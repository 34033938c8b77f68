import Macromark.Proofs.Html.Render
import Macromark.Proofs.Project.Compile

/-!
# Projects that are compiled again and again

What a store holds outside of a project is not touched by compiling it
(`Keyed.keptOutside_finished`), and what it holds inside is cleared first. So
whatever has been added and compiled before, the next compilation starts where
the first one would, but for the row numbers that have been given out in the
meantime (`Keyed.finished_renumber`).
-/

namespace Macromark

namespace Store

variable {s t u : Store} {documents : List String}

theorem clear_clear (s : Store) {fewer : List String} (h : fewer ⊆ documents) :
    (s.clear fewer).clear documents = s.clear documents := by
  have hboth : ∀ name : String,
      (!documents.contains name && !fewer.contains name) = !documents.contains name := by
    intro name
    by_cases hname : name ∈ fewer
    · simp [hname, h hname]
    · simp [hname]
  simp only [clear, List.filter_filter, hboth]

/-- Outside of the documents `t` holds what `s` holds. It may have given out
more row numbers. -/
structure KeptOutside (documents : List String) (s t : Store) : Prop where
  records : (t.clear documents).records = (s.clear documents).records
  rows : (t.clear documents).rows = (s.clear documents).rows
  nextRow : s.nextRow ≤ t.nextRow

theorem KeptOutside.refl (documents : List String) (s : Store) : KeptOutside documents s s :=
  ⟨rfl, rfl, Nat.le_refl _⟩

theorem KeptOutside.trans (h : KeptOutside documents s t) (h' : KeptOutside documents t u) :
    KeptOutside documents s u :=
  ⟨h'.records.trans h.records, h'.rows.trans h.rows, Nat.le_trans h.nextRow h'.nextRow⟩

theorem KeptOutside.subset {fewer : List String} (h : KeptOutside fewer s t)
    (hsub : fewer ⊆ documents) : KeptOutside documents s t := by
  refine ⟨?_, ?_, h.nextRow⟩
  · rw [← t.clear_clear hsub, ← s.clear_clear hsub]
    exact congrArg (List.filter _) h.records
  · rw [← t.clear_clear hsub, ← s.clear_clear hsub]
    exact congrArg (List.filter _) h.rows

-- ----------------------------------------------------------------------------
-- Row numbers
-- ----------------------------------------------------------------------------

def renumber (f : RowId → RowId) (s : Store) : Store :=
  { s with rows := s.rows.map fun row => { row with id := f row.id }, nextRow := f s.nextRow }

/-- Leaves the numbers below `next` and lets the others follow `later`. -/
def shift (next later id : RowId) : RowId := if id < next then id else later + (id - next)

theorem shift_below {next later id : RowId} (h : id < next) : shift next later id = id := if_pos h

@[simp] theorem shift_add (next later place : RowId) :
    shift next later (next + place) = later + place := by
  rw [shift, if_neg (Nat.not_lt.mpr (Nat.le_add_right _ _)), Nat.add_sub_cancel_left]

theorem shift_strictMono {next later : RowId} (h : next ≤ later) :
    StrictMono (shift next later) := by
  intro a b hab
  by_cases hb : b < next
  · rwa [shift_below hb, shift_below (Nat.lt_trans hab hb)]
  · obtain ⟨b, rfl⟩ := Nat.exists_eq_add_of_le (Nat.le_of_not_lt hb)
    rw [shift_add]
    by_cases ha : a < next
    · rw [shift_below ha]
      exact Nat.lt_of_lt_of_le ha (Nat.le_trans h (Nat.le_add_right _ _))
    · obtain ⟨a, rfl⟩ := Nat.exists_eq_add_of_le (Nat.le_of_not_lt ha)
      rw [shift_add]
      exact Nat.add_lt_add_left (Nat.lt_of_add_lt_add_left hab) _

theorem number_shift (next later : RowId) (references : List Reference) :
    (number next references).map (fun row => { row with id := shift next later row.id }) =
      number later references := by
  refine List.ext_getElem? fun place => ?_
  simp [getElem?_number, Function.comp_def]

end Store

namespace Project

variable {p : Project} {s t : Store} {options : CompileOptions}

-- ----------------------------------------------------------------------------
-- What a compilation leaves alone
-- ----------------------------------------------------------------------------

/-- Records of documents of the project are all that is added. -/
theorem mem_names_of_defined {id : String}
    (hr : p.analyses.findSome? (·.contribution.ids.get? id) = some r) : r.document ∈ p.names := by
  obtain ⟨a, ha, hr⟩ := List.exists_of_findSome?_eq_some hr
  obtain ⟨d, hd, rfl, hsound⟩ := mem_analyses ha
  have howned := (hsound.contribution.records _ (OrderedMap.mem_of_get? hr)).owned
  rw [howned.trans hsound.owner]
  exact List.mem_map_of_mem hd

theorem Keyed.keptOutside_finished (h : p.Keyed) :
    Store.KeptOutside p.names p.store p.finished := by
  have hfree := p.store.clear_freeOf p.names
  refine ⟨?_, ?_, ?_⟩
  · refine OrderedMap.ext_sorted (h.keyed_finished.clear _).sorted (h.store.clear _).sorted ?_
    intro id
    rw [Store.get?_clear h.keyed_finished, h.get?_finished, ground]
    cases hr : (p.store.clear p.names).records.get? id with
    | some r =>
      have hdocument := hfree.records (id, r) (OrderedMap.mem_of_get? hr)
      simpa using hdocument
    | none =>
      rw [Option.none_or, Option.filter_eq_none_iff]
      intro r hr
      simpa using mem_names_of_defined hr
  · have hadded : p.finished.rows.filter (fun row =>
        !p.names.contains row.reference.site.document) = (p.store.clear p.names).rows := by
      rw [h.rows_finished, List.filter_append, List.filter_eq_self.mpr, List.filter_eq_nil_iff.mpr,
        List.append_nil, ground]
      · intro row hrow
        simpa using site_of_mem_number (List.mem_filter.mp hrow).1
      · intro row hrow
        simpa using hfree.rows row hrow
    exact hadded
  · exact (Nat.le_add_right _ _).trans_eq h.nextRow_finished.symm

-- ----------------------------------------------------------------------------
-- What a compilation depends on
-- ----------------------------------------------------------------------------

theorem yielded_records (h : s.records = t.records) (a : Analysis) : yielded s a = yielded t a := by
  obtain ⟨records, rows, nextRow⟩ := s
  cases h
  rfl

theorem resolves_records (h : s.records = t.records) : resolves s = resolves t := by
  obtain ⟨records, rows, nextRow⟩ := s
  cases h
  rfl

theorem render_records {registry : Registry} (h : s.records = t.records) (a : Analysis) :
    a.render registry (some s) = a.render registry (some t) := by
  funext resolutions options
  exact congrFun (RenderContext.renderDocument_records h
    { registry, document := a.document, tree := a.tree, index := a.index, headers := a.headers
      store := none, resolutions, extension := options.extension }) options.bodyOnly

theorem compileDocument_records {registry : Registry} (h : s.records = t.records) :
    compileDocument registry s = compileDocument registry t := by
  funext options references selection a
  simp only [compileDocument, render_records h a]

theorem edges_renumber (f : RowId → RowId) (s : Store) (names : List String) :
    edges (s.renumber f) names = edges s names := by
  simp only [edges, Store.rowsIn, Store.renumber, List.filter_map, List.filterMap_map]
  rfl

-- ----------------------------------------------------------------------------
-- The same project over another store
-- ----------------------------------------------------------------------------

section
variable (h : p.Keyed) (ht : t.Keyed) (hkept : Store.KeptOutside p.names p.store t)
include h ht hkept

theorem Keyed.records_finished :
    ({ p with store := t } : Project).finished.records = p.finished.records := by
  have h' : ({ p with store := t } : Project).Keyed := ⟨h.names, ht⟩
  refine OrderedMap.ext_sorted h'.keyed_finished.sorted h.keyed_finished.sorted ?_
  intro id
  rw [h'.get?_finished, h.get?_finished]
  exact congrArg (fun records => (OrderedMap.get? records id).or _) hkept.records

theorem Keyed.selection_eq : ({ p with store := t } : Project).selection = p.selection := by
  have hresolves := resolves_records (h.records_finished ht hkept)
  exact congrArg (select · p.references) hresolves

theorem Keyed.rows_finished_shift :
    ({ p with store := t } : Project).finished.rows = p.finished.rows.map fun row =>
      { row with id := Store.shift p.store.nextRow t.nextRow row.id } := by
  have h' : ({ p with store := t } : Project).Keyed := ⟨h.names, ht⟩
  have hground : p.ground.rows.map (fun row =>
      { row with id := Store.shift p.store.nextRow t.nextRow row.id }) = p.ground.rows := by
    refine (List.map_congr_left fun row hrow => ?_).trans (List.map_id _)
    have hbelow : row.id < p.store.nextRow := (h.store.clear p.names).below row hrow
    rw [Store.shift_below hbelow]
    rfl
  have hrejected : ∀ row : Store.Row,
      (p.selection.rejected.map (t.nextRow + ·)).contains
          (Store.shift p.store.nextRow t.nextRow row.id) =
        (p.selection.rejected.map (p.store.nextRow + ·)).contains row.id := by
    intro row
    have hmap : p.selection.rejected.map (t.nextRow + ·) =
        (p.selection.rejected.map (p.store.nextRow + ·)).map
          (Store.shift p.store.nextRow t.nextRow) := by simp [Function.comp_def]
    have hinjective := (Store.shift_strictMono hkept.nextRow).injective
    rw [Bool.eq_iff_iff, List.contains_iff_mem, List.contains_iff_mem, hmap,
      List.mem_map_of_injective hinjective]
  rw [h'.rows_finished, h.rows_finished, h.selection_eq ht hkept, List.map_append, hground,
    ← Store.number_shift p.store.nextRow t.nextRow, List.filter_map]
  refine congrArg₂ (· ++ ·) hkept.rows (congrArg (List.map _) ?_)
  refine List.filter_congr fun row _ => ?_
  exact congrArg (!·) (hrejected row)

theorem Keyed.finished_renumber :
    ({ p with store := t } : Project).finished =
      p.finished.renumber (Store.shift p.store.nextRow t.nextRow) := by
  have h' : ({ p with store := t } : Project).Keyed := ⟨h.names, ht⟩
  have hnext : ({ p with store := t } : Project).finished.nextRow =
      Store.shift p.store.nextRow t.nextRow p.finished.nextRow := by
    rw [h'.nextRow_finished, h.nextRow_finished, Store.shift_add]
    rfl
  rw [Store.renumber, ← h.rows_finished_shift ht hkept, ← hnext, ← h.records_finished ht hkept]

theorem Keyed.output_eq (options : CompileOptions) :
    ({ p with store := t } : Project).output options = p.output options := by
  have hrecords := h.records_finished ht hkept
  have hcompiled : ({ p with store := t } : Project).compiled options = p.compiled options := by
    funext a
    have hyielded : yielded ({ p with store := t } : Project).merged a = yielded p.merged a :=
      yielded_records hrecords a
    rw [compiled, compiled, compileDocument_records hrecords, h.selection_eq ht hkept, hyielded]
    rfl
  have hunreachable : ({ p with store := t } : Project).unreachable
      ({ p with store := t } : Project).finished = p.unreachable p.finished := by
    rw [h.finished_renumber ht hkept]
    simp only [unreachable, edges_renumber]
    rfl
  exact congrArg₂ CompiledProject.mk (congrArg (p.analyses.map ·) hcompiled) hunreachable

/-- A compilation over `t` gives what one over the store of the project gives,
under other row numbers. -/
theorem Keyed.compile_renumber (options : CompileOptions) :
    ({ p with store := t } : Project).compile options =
      (p.compile options).map fun (out, q) =>
        (out, { q with store := q.store.renumber (Store.shift p.store.nextRow t.nextRow) }) := by
  have h' : ({ p with store := t } : Project).Keyed := ⟨h.names, ht⟩
  rw [h'.compile_eq, h.compile_eq, h.output_eq ht hkept, h.finished_renumber ht hkept]
  change Except.map _ p.obstacle = _
  cases p.obstacle <;> rfl

end

-- ----------------------------------------------------------------------------
-- Histories
-- ----------------------------------------------------------------------------

inductive Operation where
  | add (name source : String)
  | compile (options : CompileOptions)
deriving DecidableEq, Repr

def perform (p : Project) : Operation → Except Abort Project
  | .add name source => .ok (p.add name source)
  | .compile options =>
    match p.compile options with
    | .ok (_, q) => .ok q
    | .error (.registry _) => .ok p
    | .error (.aborted why) => .error why

def run (p : Project) (operations : List Operation) : Except Abort Project :=
  operations.foldlM perform p

/-- `p` has come from `initial`, and outside of its documents the store is what
it was. -/
structure Since (initial p : Project) : Prop where
  keyed : p.Keyed
  registry : p.registry = initial.registry
  indexName : p.indexName = initial.indexName
  kept : Store.KeptOutside p.names initial.store p.store

theorem Since.perform {initial p q : Project} (h : Since initial p) {operation : Operation}
    (hq : p.perform operation = .ok q) : Since initial q := by
  cases operation with
  | add name source =>
    obtain rfl := Except.ok.inj hq
    have hnames : p.names ⊆ (p.add name source).names := by
      rw [names_add]
      split
      · exact List.Subset.refl _
      · exact List.subset_append_left _ _
    refine ⟨h.keyed.add name source, ?_, ?_, ?_⟩
    · exact (registry_add p name source).trans h.registry
    · exact (indexName_add p name source).trans h.indexName
    · exact (store_add p name source).symm ▸ h.kept.subset hnames
  | compile options =>
    simp only [Project.perform] at hq
    split at hq
    · next hcompile =>
      obtain rfl := Except.ok.inj hq
      obtain ⟨-, rfl⟩ := h.keyed.eq_of_compile hcompile
      exact ⟨⟨h.keyed.names, h.keyed.keyed_finished⟩, h.registry, h.indexName,
        h.kept.trans h.keyed.keptOutside_finished⟩
    · exact Except.ok.inj hq ▸ h
    · cases hq

theorem Since.run {initial p q : Project} (h : Since initial p) {operations : List Operation}
    (hq : p.run operations = .ok q) : Since initial q := by
  induction operations generalizing p with
  | nil => exact Except.ok.inj hq ▸ h
  | cons operation rest ih =>
    rw [Project.run, List.foldlM_cons] at hq
    cases hnext : p.perform operation with
    | error why => rw [hnext] at hq; cases hq
    | ok next =>
      rw [hnext] at hq
      exact ih (h.perform hnext) hq

/-- A compilation is broken off by a document only. -/
theorem Keyed.perform_compile (h : p.Keyed) (hdone : p.Completes) (options : CompileOptions) :
    ∃ t, p.perform (.compile options) = .ok { p with store := t } ∧
      ({ p with store := t } : Project).Keyed := by
  simp only [perform, h.compile_eq, obstacle]
  cases hcheck : p.registry.check with
  | error fault => exact ⟨p.store, rfl, h⟩
  | ok _ =>
    have hready := obstacle_eq_ok_iff.mpr ⟨hcheck, hdone⟩
    rw [obstacle, hcheck] at hready
    exact ⟨p.finished, by rw [hready]; rfl, ⟨h.names, h.keyed_finished⟩⟩

def additions (operations : List Operation) : List Document :=
  operations.filterMap fun
    | .add name source => some ⟨name, source⟩
    | .compile _ => none

/-- A history goes through if no document of it breaks a compilation off. -/
theorem Keyed.run_ok (h : p.Keyed) (hdone : p.Completes) (operations : List Operation)
    (hadded : ∀ d ∈ additions operations, (p.analysis d).aborted = none) :
    ∃ t, p.run operations = .ok { p.addAll (additions operations) with store := t } := by
  induction operations generalizing p with
  | nil => exact ⟨p.store, rfl⟩
  | cons operation rest ih =>
    cases operation with
    | add name source =>
      have hnext : (p.add name source).Completes := by
        intro d hd
        rw [analysis, registry_add]
        rcases mem_documents_add.mp hd with rfl | ⟨hd, -⟩
        · exact hadded ⟨name, source⟩ List.mem_cons_self
        · exact hdone d hd
      refine ih (h.add name source) hnext fun d hd => ?_
      rw [analysis, registry_add]
      exact hadded d (List.mem_cons_of_mem _ hd)
    | compile options =>
      obtain ⟨t, hperform, hkeyed⟩ := h.perform_compile hdone options
      obtain ⟨last, hlast⟩ := ih hkeyed hdone hadded
      refine ⟨last, ?_⟩
      rw [run, List.foldlM_cons, hperform]
      exact hlast.trans (by rw [addAll_store]; rfl)

/-- Whatever has been added and compiled before, a compilation gives what a new
project over the first store gives, if it holds the same documents: the same
output, and the same store under row numbers of the same order. So compiling
again changes nothing else. The store may come from anywhere, as long as its
records stand under their own identifiers: only then does a document see what it
would overwrite. -/
theorem compile_after_history {store : Store} (hstore : store.Keyed) (registry : Registry)
    (indexName : Option String) {operations : List Operation} {last : Project}
    (hrun : Project.run { registry, store, indexName } operations = .ok last)
    (options : CompileOptions) :
    let fresh := addAll { registry, store, indexName } last.documents
    (∃ f, StrictMono f ∧ last.compile options =
      (fresh.compile options).map fun (out, q) => (out, { q with store := q.store.renumber f })) ∧
    ∀ out q, last.compile options = .ok (out, q) → ∃ f, StrictMono f ∧
      q.compile options = .ok (out, { q with store := q.store.renumber f }) := by
  intro fresh
  let initial : Project := { registry, store, indexName }
  have hinitial : initial.Keyed := ⟨List.nodup_nil, hstore⟩
  have hlast : Since initial last :=
    Since.run ⟨hinitial, rfl, rfl, Store.KeptOutside.refl _ _⟩ hrun
  refine ⟨?_, ?_⟩
  · have hfresh : fresh = { initial with documents := last.documents } :=
      addAll_new (p := initial) hlast.keyed.names
    have hkeyed : fresh.Keyed := hfresh ▸ ⟨hlast.keyed.names, hstore⟩
    have hlater : ({ fresh with store := last.store } : Project) = last := by
      rw [hfresh, ← hlast.registry, ← hlast.indexName]
    have hkept : Store.KeptOutside fresh.names fresh.store last.store := hfresh ▸ hlast.kept
    refine ⟨_, Store.shift_strictMono hkept.nextRow, ?_⟩
    rw [← hkeyed.compile_renumber hlast.keyed.store hkept, hlater]
  · intro out q hcompile
    obtain ⟨rfl, rfl⟩ := hlast.keyed.eq_of_compile hcompile
    have hkept := hlast.keyed.keptOutside_finished
    refine ⟨_, Store.shift_strictMono hkept.nextRow, ?_⟩
    rw [hlast.keyed.compile_renumber hlast.keyed.keyed_finished hkept, hcompile]
    rfl

theorem compile_after_history_birds :
    birds.store.Keyed ∧ ∃ last f,
      Project.run { registry := .builtin, store := birds.store }
        [.add "owls" "\\h[1][Geese]", .compile {}, .add "index" "\\x[geese]", .compile {},
          .add "owls" ""] = .ok last ∧
      last.documents = [⟨"owls", ""⟩, ⟨"index", "\\x[geese]"⟩] ∧ StrictMono f ∧
      last.compile {} =
        ((addAll { registry := .builtin, store := birds.store } last.documents).compile {}).map
          fun (out, q) => (out, { q with store := q.store.renumber f }) := by
  have hstore := birds_reachable.sound.1.store
  have hkeyed : ({ registry := .builtin, store := birds.store } : Project).Keyed :=
    ⟨List.nodup_nil, hstore⟩
  obtain ⟨t, hrun⟩ := hkeyed.run_ok (List.forall_mem_nil _)
    [.add "owls" "\\h[1][Geese]", .compile {}, .add "index" "\\x[geese]", .compile {},
      .add "owls" ""] (by decide +kernel)
  obtain ⟨⟨f, hf, hcompile⟩, -⟩ := compile_after_history hstore .builtin none hrun {}
  exact ⟨hstore, _, f, hrun, rfl, hf, hcompile⟩

/-- A record stands under an identifier that is not its own. A document takes that one over without
seeing that another document holds it, and gives it up later. -/
theorem compile_after_history_mislaid : ¬ ∀ (store : Store) (registry : Registry)
    (indexName : Option String) (operations : List Operation) (last : Project),
    Project.run { registry, store, indexName } operations = .ok last → ∀ options,
      ∃ f, StrictMono f ∧ last.compile options =
        ((addAll { registry, store, indexName } last.documents).compile options).map
          fun (out, q) => (out, { q with store := q.store.renumber f }) := by
  intro hall
  let store : Store := ⟨[("a", .define "zzz" MacroName.header ⟨"far", .origin⟩)], [], 0⟩
  let known (p : Project) : Option Bool :=
    (p.compile {}).toOption.map fun result => result.2.store.records.contains "a"
  have hfacts : (Project.run { registry := .builtin, store }
      [.add "d" "\\h[1][A]", .compile {}, .add "d" "\\x[a][here]"]).toOption.any (fun last =>
        known last == some false &&
          known (addAll { registry := .builtin, store } last.documents) == some true) = true := by
    decide +kernel
  cases hrun : Project.run { registry := .builtin, store }
      [.add "d" "\\h[1][A]", .compile {}, .add "d" "\\x[a][here]"] with
  | error why =>
    rw [hrun] at hfacts
    cases hfacts
  | ok last =>
    obtain ⟨f, -, hcompile⟩ := hall store .builtin none _ last hrun {}
    rw [hrun] at hfacts
    obtain ⟨hlost, hfound⟩ : known last = some false ∧
        known (addAll { registry := .builtin, store } last.documents) = some true := by
      simpa only [Except.toOption, Option.any_some, Bool.and_eq_true, beq_iff_eq] using hfacts
    have hsame : known last = known (addAll { registry := .builtin, store } last.documents) := by
      simp only [known, hcompile]
      cases (addAll { registry := .builtin, store } last.documents).compile {} <;> rfl
    rw [hsame, hfound] at hlost
    exact absurd hlost (by decide)

end Project
end Macromark
