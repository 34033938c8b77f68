import Macromark.Proofs.Assembly.Implied
import Macromark.Proofs.Assembly.Notes
import Macromark.Proofs.Outline.Linking

/-!
# What a visit names

A visit asks for an identifier (`requestedId`), and the identifier is entered for
its node or refused, in the index, in the tree and among the numbers alike
(`Naming`). A header that is no synonym is opened (`Opening`), whether it gets a
name or not. What a visit does beyond that concerns neither names nor headers
(`visitNode_naming`).
-/

namespace Macromark

def Problem.isDuplicateId : Problem → Bool
  | .duplicateId _ _ => true
  | _ => false

/-- The reports of identifiers that were taken. -/
def duplicates (diagnostics : List Diagnostic) : List Diagnostic :=
  diagnostics.filter (·.problem.isDuplicateId)

def Tree.isSynonym (registry : Registry) (t : Tree) (id : NodeId) : Bool :=
  t.name? id == some MacroName.header && Text.isTruthy (t.argumentText registry id "synonym")

def Tree.isHeading (registry : Registry) (t : Tree) (id : NodeId) : Bool :=
  t.name? id == some MacroName.header && !Text.isTruthy (t.argumentText registry id "synonym")

namespace Assembly

/-- The scope in which a macro is named: that of a header does not count the last open header. -/
def scopeAt (setting : Setting) (s : State) (node : NodeId) : Option String :=
  if s.tree.isSynonym setting.registry node then outerScope s
  else if s.tree.isHeading setting.registry node then
    outerScope { s with headers := (s.headers.enter node (levelOf setting s node).1).2 }
  else innerScope s

/-- The identifier that a macro asks for, with its scope. The root is named by the document. -/
def requestedId (setting : Setting) (s : State) (node : NodeId) : Option String :=
  if node = s.tree.root then none
  else do
    let call ← s.tree.call? node
    let definition ← setting.registry.get? call.name
    let name ← localId setting s node call definition
    return Identifier.underScope (scopeAt setting s node) name

variable {setting : Setting} {s t u earlier later : State} {node : NodeId} {call : MacroCall}
variable {definition : MacroDef} {asked given : Option String} {scope : Option String}
variable {visit : Visit} {numbered : Bool}

-- ----------------------------------------------------------------------------
-- Identifiers and numbers
-- ----------------------------------------------------------------------------

structure SameNames (s u : State) : Prop where
  tree : u.tree = s.tree
  index : u.index = s.index
  counters : u.counters = s.counters
  refusals : duplicates u.diagnostics = duplicates s.diagnostics

theorem SameNames.refl (s : State) : SameNames s s := ⟨rfl, rfl, rfl, rfl⟩

theorem SameNames.trans (h : SameNames s t) (h' : SameNames t u) : SameNames s u :=
  ⟨h'.tree.trans h.tree, h'.index.trans h.index, h'.counters.trans h.counters,
    h'.refusals.trans h.refusals⟩

inductive Naming (setting : Setting) (node : NodeId) (s : State) :
    Option String → Option String → State → Prop
  | nameless {u : State} : SameNames s u → Naming setting node s none none u
  | refused {u : State} {id : String} {previous : IdRecord} : s.index.record? id = some previous →
      u.tree = s.tree → u.index = s.index → u.counters = s.counters →
      duplicates u.diagnostics = duplicates s.diagnostics ++
        [⟨.duplicateId id previous.location, s.tree.position node, setting.document⟩] →
      Naming setting node s (some id) none u
  | entered {u : State} {id name : String} {r : IdRecord} : s.index.record? id = none →
      s.tree.name? node = some name → r.location = site setting (s.tree.position node) →
      r.count = (if s.tree.isSynonym setting.registry node then none
        else some ((s.counters.get? name).getD 0 + 1)) →
      (∀ other, u.index.entries.get? other =
        if id = other then some (node, r) else s.index.entries.get? other) →
      u.tree = s.tree.modifyCall node (fun call => { call with id := some id, count := r.count }) →
      u.counters = (match r.count with
        | some count => s.counters.insert name count
        | none => s.counters) →
      duplicates u.diagnostics = duplicates s.diagnostics →
      r.title = Text.trim (text setting s node "title") → Naming setting node s (some id) (some id) u

theorem Naming.framed (h : Naming setting node s asked given u) (hearlier : SameNames earlier s)
    (hlater : SameNames u later) : Naming setting node earlier asked given later := by
  obtain ⟨htree, hindex, hcounters, hrefusals⟩ := hearlier
  obtain ⟨htree', hindex', hcounters', hrefusals'⟩ := hlater
  cases h with
  | nameless hsame =>
    exact .nameless ⟨(htree'.trans hsame.tree).trans htree, (hindex'.trans hsame.index).trans hindex,
      (hcounters'.trans hsame.counters).trans hcounters,
      (hrefusals'.trans hsame.refusals).trans hrefusals⟩
  | refused hprevious hsame hindices hcounts hduplicates =>
    rw [hindex] at hprevious
    refine .refused hprevious ?_ ?_ ?_ ?_
    · rw [htree', hsame, htree]
    · rw [hindex', hindices, hindex]
    · rw [hcounters', hcounts, hcounters]
    · rw [hrefusals', hduplicates, hrefusals, htree]
  | entered hfree hname hplace hcount hentries htrees hcounts hduplicates htitle =>
    rw [hindex] at hfree
    rw [htree] at hname hplace hcount
    rw [text, htree] at htitle
    rw [hcounters] at hcount
    refine .entered hfree hname hplace hcount (fun other => ?_) ?_ ?_ ?_ htitle
    · rw [hindex', hentries, hindex]
    · rw [htree', htrees, htree]
    · rw [hcounters', hcounts, hcounters]
    · rw [hrefusals', hduplicates, hrefusals]

/-- The record of a new identifier may be filled in. -/
theorem Naming.modify {id : String} (h : Naming setting node s asked (some id) u)
    {f : IdRecord → IdRecord} (hplace : ∀ r, (f r).location = r.location)
    (hcount : ∀ r, (f r).count = r.count) (htitle : ∀ r, (f r).title = r.title) :
    Naming setting node s asked (some id) { u with index := u.index.modify id f } := by
  cases h with
  | @entered _ _ name r hfree hname hplaced hcounted hentries htree hcounters hduplicates htitled =>
    refine .entered (r := f r) hfree hname ((hplace r).trans hplaced)
      ((hcount r).trans hcounted) (fun other => ?_) ?_ ?_ hduplicates ((htitle r).trans htitled)
    · simp only [Index.modify, OrderedMap.get?_modify, hentries]
      split <;> rfl
    · rw [htree, hcount]
    · rw [hcounters, hcount]

theorem Naming.labeled (h : Naming setting node s asked given u) : Labeled s.tree u.tree := by
  cases h with
  | nameless hsame => exact hsame.tree ▸ .refl _
  | refused _ htree => exact htree ▸ .refl _
  | entered _ _ _ _ _ htree =>
    exact htree ▸ labeled_modifyCall _ _ (fun _ => rfl) (fun _ => rfl) fun _ => rfl

theorem Naming.others (h : Naming setting node s asked given u) {x : NodeId} (hx : x ≠ node) :
    u.tree.call? x = s.tree.call? x := by
  cases h with
  | nameless hsame => rw [hsame.tree]
  | refused _ htree => rw [htree]
  | entered _ _ _ _ _ htree => rw [htree, Tree.call?_modifyCall, if_neg (Ne.symm hx)]

/-- No entry of the index is lost. -/
theorem Naming.entry (h : Naming setting node s asked given u) {id : String}
    {found : NodeId × IdRecord} (hfound : s.index.entries.get? id = some found) :
    u.index.entries.get? id = some found := by
  cases h with
  | nameless hsame => rw [hsame.index, hfound]
  | refused _ _ hindex => rw [hindex, hfound]
  | @entered _ other _ _ hfree _ _ _ hentries =>
    have hne : other ≠ id := by
      rintro rfl
      simp [Index.record?, hfound] at hfree
    rw [hentries, if_neg hne, hfound]

theorem label_entered {name id : String} {count : Option Nat} (hname : s.tree.name? node = some name)
    (htree : u.tree = s.tree.modifyCall node fun call => { call with id := some id, count })
    (x : NodeId) :
    u.tree.label x = if x = node then (some id, count) else s.tree.label x := by
  obtain ⟨call, hcall, -⟩ := Option.map_eq_some_iff.mp hname
  have hentered : ∀ call : MacroCall,
      (({ call with id := some id, count } : MacroCall).id, count) = (some id, count) := fun _ => rfl
  rw [htree, Tree.label_modifyCall s.tree node hentered hcall]

theorem assignId_naming (hname : s.tree.name? node = some definition.name)
    (hnumbered : numbered = !s.tree.isSynonym setting.registry node) (call : MacroCall)
    (scope : Option String) :
    let result := assignId setting s node call definition scope numbered
    Naming setting node s
      ((localId setting s node call definition).map (Identifier.underScope scope)) result.1 result.2 := by
  subst hnumbered
  unfold assignId
  cases localId setting s node call definition with
  | none => exact .nameless (.refl s)
  | some name =>
    simp only [Option.map_some]
    split
    · next previous hprevious =>
      refine .refused (Index.insert_error hprevious) rfl rfl rfl ?_
      simp [report, duplicates, Problem.isDuplicateId, List.filter_append]
    · next index hindex =>
      have hentries := Index.insert_ok hindex
      have hfree : s.index.record? (Identifier.underScope scope name) = none := by
        unfold Index.insert at hindex
        split at hindex
        · simp at hindex
        · assumption
      let record := { recordFor setting s node definition (Identifier.underScope scope name) with
        count := if !s.tree.isSynonym setting.registry node then
            some ((s.counters.get? definition.name).getD 0 + 1)
          else none }
      refine .entered (r := record) hfree hname rfl ?_ (fun other => ?_) rfl ?_ rfl rfl
      · simp only [record]
        cases s.tree.isSynonym setting.registry node <;> rfl
      · rw [hentries, OrderedMap.get?_insert]
        rfl
      · simp only [record]
        cases s.tree.isSynonym setting.registry node <;> rfl

-- ----------------------------------------------------------------------------
-- Headers
-- ----------------------------------------------------------------------------

structure SameScopes (s u : State) : Prop where
  headers : u.headers = s.headers
  headerIds : u.headerIds = s.headerIds
  scopes : u.scopes = s.scopes
  aborted : u.aborted = s.aborted

theorem SameScopes.refl (s : State) : SameScopes s s := ⟨rfl, rfl, rfl, rfl⟩

theorem SameScopes.trans (h : SameScopes s t) (h' : SameScopes t u) : SameScopes s u :=
  ⟨h'.headers.trans h.headers, h'.headerIds.trans h.headerIds, h'.scopes.trans h.scopes,
    h'.aborted.trans h.aborted⟩

theorem assignId_scopes (setting : Setting) (s : State) (node : NodeId) (call : MacroCall)
    (definition : MacroDef) (scope : Option String) (numbered : Bool) :
    SameScopes s (assignId setting s node call definition scope numbered).2 := by
  unfold assignId
  split
  · exact .refl s
  · simp only
    split <;> exact ⟨rfl, rfl, rfl, rfl⟩

/-- A header is opened at `node`, under the identifier that is given to it. The run goes on if its
level can be compared with the one before. -/
structure Opened (setting : Setting) (node : NodeId) (level : Level) (given : Option String)
    (s u : State) : Prop where
  headers : u.headers = (s.headers.enter node level).2
  headerIds : ∀ header, u.headerIds.get? header =
    if header = s.headers.nodes.size ∧ given.isSome then given else s.headerIds.get? header
  scopes : ∀ header, u.scopes.get? header =
    if header = s.headers.nodes.size ∧ given.isSome ∧ Text.isTruthy (text setting s node "scope")
    then given else s.scopes.get? header
  aborted : u.aborted = none ↔
    s.aborted = none ∧ ∀ previous ∈ s.headers.previousLevel, previous.toNat + 1 < UInt64.size

/-- What a visit of `node` makes of the headers. -/
inductive Opening (setting : Setting) (node : NodeId) (s : State) : Option String → State → Prop
  | aside {given : Option String} {u : State} :
      (node = s.tree.root ∨ s.tree.isHeading setting.registry node = false) → SameScopes s u →
      Opening setting node s given u
  | opened {given : Option String} {u : State} :
      node ≠ s.tree.root → s.tree.isHeading setting.registry node = true →
      Opened setting node (levelOf setting s node).1 given s u → Opening setting node s given u

theorem levelOf_names (setting : Setting) (s : State) (node : NodeId) :
    SameNames s (levelOf setting s node).2 ∧ SameScopes s (levelOf setting s node).2 := by
  unfold levelOf
  simp only
  split
  · exact ⟨.refl s, .refl s⟩
  · refine ⟨⟨rfl, rfl, rfl, ?_⟩, rfl, rfl, rfl, rfl⟩
    simp [report, duplicates, Problem.isDuplicateId, List.filter_append]

theorem visitSynonym_naming (hname : s.tree.name? node = some definition.name)
    (hsynonym : s.tree.isSynonym setting.registry node = true) (call : MacroCall) (level : Level) :
    let result := visitSynonym setting s node call definition level
    Naming setting node s
      ((localId setting s node call definition).map (Identifier.underScope (outerScope s)))
      result.1 result.2 ∧ SameScopes s result.2 := by
  have hnumbered : false = !s.tree.isSynonym setting.registry node := by simp [hsynonym]
  have hnaming := assignId_naming hname hnumbered call (outerScope s)
  have hscopes := assignId_scopes setting s node call definition (outerScope s) false
  unfold visitSynonym
  generalize assignId setting s node call definition (outerScope s) false = assigned
    at hnaming hscopes ⊢
  obtain ⟨given, t⟩ := assigned
  cases given with
  | none => exact ⟨hnaming, hscopes⟩
  | some id =>
    have hmodified := hnaming.modify
      (f := fun record => { record with level := some level, synonymOf := t.lastHeader })
      (fun _ => rfl) (fun _ => rfl) fun _ => rfl
    simp only at hmodified hscopes ⊢
    obtain ⟨hheaders, hheaderIds, hopen, haborted⟩ := hscopes
    split
    · exact ⟨hmodified.framed (.refl s) ⟨rfl, rfl, rfl, rfl⟩, hheaders, hheaderIds, hopen, haborted⟩
    · refine ⟨hmodified.framed (.refl s) ⟨rfl, rfl, rfl, ?_⟩, hheaders, hheaderIds, hopen, haborted⟩
      simp [report, duplicates, Problem.isDuplicateId, List.filter_append]

theorem localId_congr (htree : u.tree = s.tree) (node : NodeId) (call : MacroCall)
    (definition : MacroDef) :
    localId setting u node call definition = localId setting s node call definition := by
  unfold localId text
  rw [htree]

theorem outerScope_congr (hheaders : u.headers = s.headers) (hscopes : u.scopes = s.scopes) :
    outerScope u = outerScope s := by
  unfold outerScope scopesOf
  rw [hheaders, hscopes]

theorem linkHeader_names (setting : Setting) (s : State) (node : NodeId) (level : Level) :
    SameNames s (linkHeader setting s node level).2 ∧
      SameScopes { s with
          headers := (s.headers.enter node level).2
          aborted := (linkHeader setting s node level).2.aborted }
        (linkHeader setting s node level).2 := by
  obtain ⟨reports, aborted, heq, hreports⟩ := linkHeader_eq setting s node level
  have hnone : duplicates reports = [] := by
    refine List.filter_eq_nil_iff.mpr fun d hd => ?_
    obtain ⟨previous, current, rfl⟩ := hreports d hd
    exact Bool.false_ne_true
  rw [heq]
  refine ⟨⟨rfl, rfl, rfl, ?_⟩, rfl, rfl, rfl, rfl⟩
  rw [duplicates, List.filter_append]
  exact (congrArg _ hnone).trans (List.append_nil _)

theorem linkHeader_aborted (setting : Setting) (s : State) (node : NodeId) (level : Level) :
    (linkHeader setting s node level).2.aborted = none ↔
      s.aborted = none ∧ ∀ previous ∈ s.headers.previousLevel, previous.toNat + 1 < UInt64.size := by
  have hcompared := @HeaderTree.skip?_eq_ok level s.headers.previousLevel
  unfold linkHeader HeaderTree.link
  cases hskipped : HeaderTree.skip? s.headers.previousLevel level with
  | error why =>
    have hnot := fun hfits => hcompared.mpr ⟨hfits, rfl⟩
    simp only [hskipped, reduceCtorEq, imp_false] at hnot
    exact iff_of_false (by simp [Except.map]) fun hboth => hnot hboth.2
  | ok skipped =>
    have hfits := (hcompared.mp hskipped).1
    simp only [Except.map]
    cases skipped <;> simpa [report] using fun _ => hfits

theorem visitHeader_eq (setting : Setting) (s : State) (node : NodeId) (call : MacroCall)
    (definition : MacroDef) : visitHeader setting s node call definition =
      let (level, t) := levelOf setting s node
      if Text.isTruthy (text setting t node "synonym") then
        visitSynonym setting t node call definition level
      else
        nameHeader setting (linkHeader setting t node level).2 node call definition
          (t.headers.enter node level).1 level := by
  have hentered : ∀ t level, (linkHeader setting t node level).1 = (t.headers.enter node level).1 := by
    intro t level
    obtain ⟨reports, aborted, heq, -⟩ := linkHeader_eq setting t node level
    rw [heq]
  unfold visitHeader
  simp only [hentered]

theorem nameHeader_naming (hname : s.tree.name? node = some definition.name)
    (hsynonym : s.tree.isSynonym setting.registry node = false) (call : MacroCall)
    (linked : HeaderTree.Entered) (level : Level) :
    let result := nameHeader setting s node call definition linked level
    Naming setting node s
      ((localId setting s node call definition).map (Identifier.underScope (outerScope s)))
      result.1 result.2 ∧
    result.2.headers = s.headers ∧
    (∀ header, result.2.headerIds.get? header =
      if header = linked.id ∧ result.1.isSome then result.1 else s.headerIds.get? header) ∧
    (∀ header, result.2.scopes.get? header =
      if header = linked.id ∧ result.1.isSome ∧ Text.isTruthy (text setting s node "scope")
      then result.1 else s.scopes.get? header) ∧
    result.2.aborted = s.aborted := by
  have hnumbered : true = !s.tree.isSynonym setting.registry node := by simp [hsynonym]
  have hnaming := assignId_naming hname hnumbered call (outerScope s)
  have hscopes := assignId_scopes setting s node call definition (outerScope s) true
  unfold nameHeader
  simp only
  generalize Text.isTruthy (text setting s node "scope") = isScope
  generalize assignId setting s node call definition (outerScope s) true = assigned
    at hnaming hscopes ⊢
  obtain ⟨given, t⟩ := assigned
  obtain ⟨hheaders, hheaderIds, hopen, haborted⟩ := hscopes
  cases given with
  | none =>
    simp only at hnaming hheaders hheaderIds hopen haborted ⊢
    exact ⟨hnaming, hheaders, fun header => by simp [hheaderIds], fun header => by simp [hopen],
      haborted⟩
  | some id =>
    have hmodified := hnaming.modify
      (f := fun record => { record with level := some level, isScope })
      (fun _ => rfl) (fun _ => rfl) fun _ => rfl
    simp only at hmodified hheaders hheaderIds hopen haborted ⊢
    refine ⟨hmodified.framed (.refl s) ⟨rfl, rfl, rfl, rfl⟩, hheaders, fun header => ?_,
      fun header => ?_, haborted⟩
    · simp only [refer, OrderedMap.get?_insert, hheaderIds, Option.isSome_some, and_true]
      exact if_congr eq_comm rfl rfl
    · cases isScope with
      | true =>
        simp only [refer, if_true, OrderedMap.get?_insert, hopen, Option.isSome_some, and_true]
        exact if_congr eq_comm rfl rfl
      | false => simp [refer, hopen]

theorem visitHeader_naming (hname : s.tree.name? node = some MacroName.header)
    (hdefinition : definition.name = MacroName.header) (hroot : node ≠ s.tree.root)
    (call : MacroCall) :
    let result := visitHeader setting s node call definition
    Naming setting node s
      ((localId setting s node call definition).map
        (Identifier.underScope (scopeAt setting s node))) result.1 result.2 ∧
      Opening setting node s result.1 result.2 := by
  obtain ⟨hnames, hscopes⟩ := levelOf_names setting s node
  have hsynonym : s.tree.isSynonym setting.registry node =
      Text.isTruthy (text setting s node "synonym") := by simp [Tree.isSynonym, hname, text]
  have hheading : s.tree.isHeading setting.registry node =
      !Text.isTruthy (text setting s node "synonym") := by simp [Tree.isHeading, hname, text]
  rw [visitHeader_eq, scopeAt, hsynonym, hheading]
  generalize hleveled : levelOf setting s node = leveled at hnames hscopes ⊢
  obtain ⟨level, t⟩ := leveled
  obtain ⟨hlinked, hkept⟩ := linkHeader_names setting t node level
  simp only at hnames hscopes ⊢
  have htext : ∀ argument, text setting t node argument = text setting s node argument := by
    intro argument
    unfold text
    rw [hnames.tree]
  rw [htext]
  cases hsynonymous : Text.isTruthy (text setting s node "synonym") with
  | true =>
    have hnamed : t.tree.name? node = some definition.name := by rw [hnames.tree, hname, hdefinition]
    obtain ⟨hnaming, hsame⟩ := visitSynonym_naming hnamed
      (by rw [hnames.tree, hsynonym, hsynonymous]) call level
    rw [← localId_congr hnames.tree, ← outerScope_congr hscopes.headers hscopes.scopes]
    exact ⟨hnaming.framed hnames (.refl _), .aside (.inr (by simp [hheading, hsynonymous]))
      (hscopes.trans hsame)⟩
  | false =>
    have hsame := hnames.trans hlinked
    have hnamed : (linkHeader setting t node level).2.tree.name? node = some definition.name := by
      rw [hsame.tree, hname, hdefinition]
    obtain ⟨hnaming, hheaders, hheaderIds, hopen, haborted⟩ := nameHeader_naming hnamed
      (by rw [hsame.tree, hsynonym, hsynonymous]) call (t.headers.enter node level).1 level
    have hscope : outerScope (linkHeader setting t node level).2 =
        outerScope { s with headers := (s.headers.enter node level).2 } :=
      outerScope_congr (by rw [hkept.headers, hscopes.headers]) (by rw [hkept.scopes, hscopes.scopes])
    rw [localId_congr hsame.tree, hscope] at hnaming
    simp only [Bool.false_eq_true, if_false, Bool.not_false, if_true]
    refine ⟨hnaming.framed hsame (.refl _), .opened hroot (by simp [hheading, hsynonymous]) ?_⟩
    have hid : (t.headers.enter node level).1.id = s.headers.nodes.size := by
      rw [hscopes.headers]
      rfl
    rw [hid] at hheaderIds hopen
    refine ⟨?_, fun header => ?_, fun header => ?_, ?_⟩
    · rw [hheaders, hkept.headers, hscopes.headers, hleveled]
    · rw [hheaderIds, hkept.headerIds, hscopes.headerIds]
    · have htext' : text setting (linkHeader setting t node level).2 node "scope" =
          text setting s node "scope" := by
        unfold text
        rw [hsame.tree]
      rw [hopen, hkept.scopes, hscopes.scopes, htext']
    · rw [haborted, linkHeader_aborted, hscopes.aborted, hscopes.headers]

-- ----------------------------------------------------------------------------
-- A whole visit
-- ----------------------------------------------------------------------------

theorem visitLink_names (setting : Setting) (s : State) (node : NodeId) (call : MacroCall)
    (titleOf : Option String) : SameNames s (visitLink setting s node call titleOf) ∧
      SameScopes s (visitLink setting s node call titleOf) := by
  unfold visitLink
  split <;> exact ⟨⟨rfl, rfl, rfl, rfl⟩, rfl, rfl, rfl, rfl⟩

theorem visitInclusion_names (setting : Setting) (s : State) (node : NodeId) (call : MacroCall) :
    SameNames s (visitInclusion setting s node call) ∧
      SameScopes s (visitInclusion setting s node call) := by
  unfold visitInclusion
  split <;> exact ⟨⟨rfl, rfl, rfl, rfl⟩, rfl, rfl, rfl, rfl⟩

theorem visitCall_naming (hcall : s.tree.call? visit.node = some call)
    (hdefined : setting.registry.get? call.name = some definition)
    (hroot : visit.node ≠ s.tree.root) :
    ∃ given, Naming setting visit.node s (requestedId setting s visit.node) given
        (visitCall setting s visit call).2 ∧
      Opening setting visit.node s given (visitCall setting s visit call).2 := by
  have hname : s.tree.name? visit.node = some call.name := by rw [Tree.name?, hcall, Option.map_some]
  have hdefinition := Registry.name_of_get? hdefined
  have hasked : requestedId setting s visit.node =
      (localId setting s visit.node call definition).map
        (Identifier.underScope (scopeAt setting s visit.node)) := by
    simp [requestedId, hroot, hcall, hdefined, Option.map_eq_bind]
  rw [hasked]
  simp only [visitCall, hdefined]
  split
  · next hheader =>
    exact ⟨_, visitHeader_naming (hheader ▸ hname) (hdefinition.trans hheader) hroot call⟩
  · next hheader =>
    have hother : s.tree.isSynonym setting.registry visit.node = false ∧
        s.tree.isHeading setting.registry visit.node = false := by
      simp [Tree.isSynonym, Tree.isHeading, hname, hheader]
    generalize hnoted : (if call.name = MacroName.crossReference then
        visitLink setting s visit.node call visit.titleOf
      else if call.name = MacroName.inclusion then visitInclusion setting s visit.node call
      else s) = t
    have hsame : SameNames s t ∧ SameScopes s t := by
      rw [← hnoted]
      split
      · exact visitLink_names ..
      · split
        · exact visitInclusion_names ..
        · exact ⟨.refl s, .refl s⟩
    obtain ⟨hnames, hscopes⟩ := hsame
    have hnumbered : true = !t.tree.isSynonym setting.registry visit.node := by
      rw [hnames.tree]
      simp [hother.1]
    have hnamed : t.tree.name? visit.node = some definition.name := by
      rw [hnames.tree, hname, hdefinition]
    have hscope : scopeAt setting s visit.node = innerScope t := by
      unfold scopeAt innerScope scopesAround scopesOf
      rw [hother.1, hother.2, hscopes.headers, hscopes.scopes]
      rfl
    rw [hscope, ← localId_congr hnames.tree]
    exact ⟨_, (assignId_naming hnamed hnumbered call _).framed hnames (.refl _),
      .aside (.inr hother.2) (hscopes.trans (assignId_scopes ..))⟩

/-- A visit names its node and opens it if it is a header, and then arranges it. -/
theorem visitNode_naming (visit : Visit) (hdeclared : s.tree.Declared setting.registry)
    (hnode : visit.node < s.tree.size) :
    let u := (visitNode setting visit s).2
    ∃ given t, Naming setting visit.node s (requestedId setting s visit.node) given t ∧
      Opening setting visit.node s given t ∧ u = { t with tree := u.tree } ∧
      Adorned t.tree visit.node u.tree := by
  unfold visitNode
  split
  · next hnone =>
    have hasked : requestedId setting s visit.node = none := by simp [requestedId, hnone]
    have hheading : s.tree.isHeading setting.registry visit.node = false := by
      simp [Tree.isHeading, Tree.name?, hnone]
    rw [hasked]
    exact ⟨none, s, .nameless (.refl s), .aside (.inr hheading) (.refl s), rfl,
      (Bare.refl s.tree).adorned visit.node⟩
  · next call hcall =>
    obtain ⟨d, hd, -⟩ := hdeclared visit.node call hcall
    have hcalled : ∀ called, (if visit.node = s.tree.root then ((none : Option String), s)
          else visitCall setting s visit call) = called →
        ∃ given, Naming setting visit.node s (requestedId setting s visit.node) given called.2 ∧
          Opening setting visit.node s given called.2 ∧ Labeled s.tree called.2.tree := by
      rintro called rfl
      split
      · next hroot =>
        rw [requestedId, if_pos hroot]
        exact ⟨none, .nameless (.refl s), .aside (.inl hroot) (.refl s), .refl _⟩
      · next hroot =>
        obtain ⟨given, hnaming, hopening⟩ := visitCall_naming hcall hd hroot
        exact ⟨given, hnaming, hopening, visitCall_labeled ..⟩
    simp only
    generalize hmade : (if visit.node = s.tree.root then ((none : Option String), s)
      else visitCall setting s visit call) = called
    obtain ⟨given, hnaming, hopening, hlabeled⟩ := hcalled called hmade
    obtain ⟨headerId, t⟩ := called
    simp only at hnaming hopening hlabeled ⊢
    obtain ⟨written, hwritten, -⟩ := hlabeled.kept.call? hcall
    have harranged := arrange_adorned setting t (hlabeled.size_eq ▸ hnode) written
      (visit.node = s.tree.root)
    have htree := arrange_tree setting t visit.node written (visit.node = s.tree.root)
    rw [hwritten]
    simp only
    refine ⟨given, t, hnaming, hopening, ?_, ?_⟩
    · split <;> exact htree
    · split <;> exact harranged

-- ----------------------------------------------------------------------------
-- Runs that are broken off
-- ----------------------------------------------------------------------------

theorem visitHeader_aborted
    (h : (visitHeader setting s node call definition).2.aborted = none) : s.aborted = none := by
  have hlevel := (levelOf_names setting s node).2.aborted
  unfold visitHeader at h
  generalize levelOf setting s node = leveled at hlevel h
  obtain ⟨level, t⟩ := leveled
  simp only at hlevel h
  rw [← hlevel]
  split at h
  · have hassigned := (assignId_scopes setting t node call definition (outerScope t) false).aborted
    rw [← hassigned]
    unfold visitSynonym at h
    split at h
    · next heq => exact heq ▸ h
    · next heq =>
      rw [heq]
      simp only at h
      split at h <;> exact h
  · generalize hlinked : (linkHeader setting t node level).2 = u at h
    have hassigned := (assignId_scopes setting u node call definition (outerScope u) true).aborted
    have hopened : u.aborted = none := by
      rw [← hassigned]
      unfold nameHeader at h
      simp only at h
      split at h
      · next heq => exact heq ▸ h
      · next heq => exact heq ▸ h
    rw [← hlinked] at hopened
    exact ((linkHeader_aborted setting t node level).mp hopened).1

theorem visitCall_aborted (h : (visitCall setting s visit call).2.aborted = none) :
    s.aborted = none := by
  unfold visitCall at h
  split at h
  · exact h
  · split at h
    · exact visitHeader_aborted h
    · rw [(assignId_scopes ..).aborted] at h
      split at h
      · rwa [(visitLink_names ..).2.aborted] at h
      · split at h
        · rwa [(visitInclusion_names ..).2.aborted] at h
        · exact h

/-- No visit takes it back that a run is broken off. -/
theorem visitNode_aborted (h : (visitNode setting visit s).2.aborted = none) : s.aborted = none := by
  cases hcall : s.tree.call? visit.node with
  | none => simpa [visitNode, hcall] using h
  | some call =>
    rw [visitNode_rest hcall] at h
    simp only at h
    split at h
    · exact h
    · exact visitCall_aborted h

end Assembly
end Macromark
