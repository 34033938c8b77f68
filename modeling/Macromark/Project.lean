import Macromark.Compile

/-!
# Compiling a project

The documents of a project share their identifiers. All of them are analyzed
first and entered into the store one after the other; an identifier that
another document has taken is reported and left out. Links are resolved only
when the store holds the whole project, so the order of the documents does not
matter to them. References that lose, or lead nowhere, leave the store.
-/

namespace Macromark

def defaultIndexName : String := "index"

structure Document where
  name : String
  source : String
deriving DecidableEq, Repr

structure Project where
  registry : Registry
  store : Store
  documents : List Document := []
  indexName : Option String := none
deriving Repr

structure CompiledDocument where
  name : String
  output : Compiled
deriving Repr

structure CompiledProject where
  documents : List CompiledDocument
  /-- What is wrong with the project as a whole. -/
  diagnostics : List Diagnostic
deriving Repr

namespace CompiledProject

def document? (p : CompiledProject) (name : String) : Option Compiled :=
  (p.documents.find? (·.name == name)).map (·.output)

/-- Those of the documents first. -/
def allDiagnostics (p : CompiledProject) : List Diagnostic :=
  p.documents.flatMap (·.output.diagnostics) ++ p.diagnostics

def hasErrors (p : CompiledProject) : Bool := p.allDiagnostics.any (·.isError)

end CompiledProject

namespace Project

/-- Adds a document, or replaces the one of that name. -/
def add (p : Project) (name source : String) : Project :=
  if p.documents.any (·.name == name) then
    { p with documents := p.documents.map fun d => if d.name = name then { d with source } else d }
  else { p with documents := p.documents ++ [⟨name, source⟩] }

def names (p : Project) : List String := p.documents.map (·.name)

def indexDocument (p : Project) : Option String :=
  let name := p.indexName.getD defaultIndexName
  if p.names.contains name then some name else p.names.head?

-- ----------------------------------------------------------------------------
-- Above an identifier
-- ----------------------------------------------------------------------------

/-- What the first structural reference to `id` comes from. -/
def parent? (store : Store) (id : String) : Option String :=
  ((store.rowsAt .structuralParent [id] false).map (·.reference.source)).find? (· != "")

/-- Walks upwards until there is no parent, or one that has been seen. -/
def climb (store : Store) : Nat → List String → String → List String
  | 0, _, _ => []
  | steps + 1, seen, id =>
    match parent? store id with
    | none => []
    | some parent =>
      if seen.contains parent then []
      else parent :: climb store steps (parent :: seen) parent

/-- The structural ancestors of an identifier, nearest first: headers, then the
document, then what includes it. A parent is a source of a row, so that no
chain without repetition is longer than the rows. -/
def ancestors (store : Store) (id : String) : List String :=
  climb store (store.rows.length + 1) [id] id

-- ----------------------------------------------------------------------------
-- Entering documents into the store
-- ----------------------------------------------------------------------------

/-- Leaves out the identifiers that other documents have taken, and reports them. -/
def yieldTo (taken : List IdRecord) (a : Analysis) : Analysis :=
  taken.foldl (fun a previous =>
    match a.contribution.ids.get? previous.id with
    | none => a
    | some own =>
      { a with
        contribution := { a.contribution with ids := a.contribution.ids.erase previous.id }
        diagnostics := a.diagnostics ++
          [⟨.duplicateId previous.id previous.location, own.location.position, a.document⟩] }) a

def merge (store : Store) (a : Analysis) : Analysis × Store :=
  let a := yieldTo (store.lookup a.contribution.ids.keys [a.document]) a
  (a, (store.update a.contribution).2)

def mergeAll (store : Store) : List Analysis → List Analysis × Store
  | [] => ([], store)
  | a :: rest =>
    let (a, store) := merge store a
    let (others, store) := mergeAll store rest
    (a :: others, store)

def resolves (store : Store) (r : Reference) : Bool :=
  (r.source == "" || store.knows r.source []) && store.knows r.target []

-- ----------------------------------------------------------------------------
-- Reachability
-- ----------------------------------------------------------------------------

abbrev Edge := String × String

def edges (store : Store) (names : List String) : List Edge :=
  (store.rowsIn names).filterMap fun row =>
    let r := row.reference
    if r.kind = .structuralParent ∧ names.contains r.target then some (r.site.document, r.target)
    else none

def included (edges : List Edge) (document : String) : List String :=
  edges.filterMap fun (source, target) => if source = document then some target else none

/-- A search has reached some documents. Those that it has not gone on from yet
wait for that. -/
structure Search where
  reached : List String
  waiting : List String

namespace Search

/-- A document waits once, when it is reached for the first time. -/
def find (s : Search) (name : String) : Search :=
  if s.reached.contains name then s else ⟨s.reached ++ [name], s.waiting ++ [name]⟩

/-- How often the search may still go on, at most. -/
def ahead (edges : List Edge) (s : Search) : Nat :=
  (edges.filter (!s.reached.contains ·.2)).length + s.waiting.length

theorem ahead_find {edges : List Edge} {edge : Edge} (h : edge ∈ edges) (s : Search) :
    (s.find edge.2).ahead edges ≤ s.ahead edges := by
  unfold find
  split
  · exact Nat.le_refl _
  · next hnew =>
    have hleft : edges.filter (fun other => !(s.reached ++ [edge.2]).contains other.2) =
        (edges.filter (!s.reached.contains ·.2)).filter (·.2 ≠ edge.2) := by
      rw [List.filter_filter]
      refine List.filter_congr fun other _ => ?_
      simp [Bool.and_comm]
    have hlt : ((edges.filter (!s.reached.contains ·.2)).filter (·.2 ≠ edge.2)).length <
        (edges.filter (!s.reached.contains ·.2)).length :=
      List.length_filter_lt_length_iff_exists.mpr ⟨edge, by simp_all, by simp⟩
    simp only [ahead, hleft, List.length_append, List.length_singleton]
    omega

theorem ahead_foldl_find {edges : List Edge} {names : List String}
    (h : ∀ name ∈ names, ∃ edge ∈ edges, edge.2 = name) (s : Search) :
    (names.foldl find s).ahead edges ≤ s.ahead edges := by
  induction names generalizing s with
  | nil => exact Nat.le_refl _
  | cons name names ih =>
    obtain ⟨edge, hedge, rfl⟩ := h _ List.mem_cons_self
    exact Nat.le_trans (ih (fun other hother => h other (List.mem_cons_of_mem _ hother)) _)
      (ahead_find hedge s)

end Search

theorem mem_included {edges : List Edge} {source target : String} :
    target ∈ included edges source ↔ (source, target) ∈ edges := by
  simp [included]

/-- What a search reaches that goes on from the document that has waited longest,
until none waits. -/
def reach (edges : List Edge) (reached : List String) : List String → List String
  | [] => reached
  | document :: waiting =>
    let s := (included edges document).foldl Search.find ⟨reached, waiting⟩
    reach edges s.reached s.waiting
termination_by waiting => Search.ahead edges ⟨reached, waiting⟩
decreasing_by
  refine Nat.lt_of_le_of_lt (Search.ahead_foldl_find (fun name hname => ?_) _) (Nat.lt_succ_self _)
  exact ⟨(document, name), mem_included.mp hname, rfl⟩

def unreachable (p : Project) (store : Store) : List Diagnostic :=
  match p.indexDocument with
  | none => []
  | some start =>
    let reached := reach (edges store p.names) [start] [start]
    (p.names.filter (!reached.contains ·)).map fun name =>
      ⟨.unreachableDocument, .origin, name⟩

-- ----------------------------------------------------------------------------
-- Compilation
-- ----------------------------------------------------------------------------

def compileDocument (registry : Registry) (store : Store) (options : CompileOptions)
    (references : List Reference) (selection : Selection) (a : Analysis) : CompiledDocument :=
  let resolutions := selection.resolutions a.document a.linkSites references
  let (output, diagnostics) := a.render registry (some store) resolutions options
  let unresolved := selection.diagnostics.filter (·.document == a.document)
  ⟨a.document,
    a.finish output (unresolved ++ diagnostics) { options with document := a.document }⟩

def compile (p : Project) (options : CompileOptions) :
    Except CompileFault (CompiledProject × Project) := do
  p.registry.check.mapError .registry
  let analyses ← p.documents.mapM fun d => (analyze p.registry d.name d.source).finished
  let (analyses, store) := mergeAll (p.store.clear p.names) analyses
  let rows := store.rowsIn p.names
  let references := rows.map (·.reference)
  let selection := select (resolves store) references
  let rejected := selection.rejected.filterMap fun place => (rows[place]?).map (·.id)
  let store := store.delete rejected
  let documents := analyses.map (compileDocument p.registry store options references selection)
  return (⟨documents, p.unreachable store⟩, { p with store })

end Project
end Macromark
