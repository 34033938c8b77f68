import Macromark.Proofs.Compile
import Macromark.Proofs.Project.Merge
import Macromark.Proofs.Selection
import Macromark.Registry.Builtin

/-!
# One compilation of a project

The parts of a compilation under names of their own (`Keyed.compile_eq`): the
store without the documents of the project is the `ground`, the `merged` store
has all of them, and the `finished` store lacks the references that were not
kept (`Keyed.rows_finished`). `Keyed` holds of every project (`Reachable.sound`).
-/

namespace Macromark.Project

variable {p : Project} {d : Document} {options : CompileOptions}

def analysis (p : Project) (d : Document) : Analysis := analyze p.registry d.name d.source

def analyses (p : Project) : List Analysis := p.documents.map p.analysis

def references (p : Project) : List Reference :=
  p.analyses.flatMap (·.contribution.references)

def ground (p : Project) : Store := p.store.clear p.names

def merged (p : Project) : Store := (mergeAll p.ground p.analyses).2

def selection (p : Project) : Selection := select (resolves p.merged) p.references

def finished (p : Project) : Store :=
  p.merged.delete (p.selection.rejected.map (p.store.nextRow + ·))

def compiled (p : Project) (options : CompileOptions) (a : Analysis) : CompiledDocument :=
  compileDocument p.registry p.finished options p.references p.selection (yielded p.merged a)

def output (p : Project) (options : CompileOptions) : CompiledProject :=
  ⟨p.analyses.map (p.compiled options), p.unreachable p.finished⟩

/-- No document breaks the compilation off. -/
def Completes (p : Project) : Prop := ∀ d ∈ p.documents, (p.analysis d).aborted = none

instance (p : Project) : Decidable p.Completes :=
  inferInstanceAs (Decidable (∀ d ∈ p.documents, (p.analysis d).aborted = none))

/-- What may keep the project from being compiled. -/
def obstacle (p : Project) : Except CompileFault Unit := do
  p.registry.check.mapError .registry
  let _ ← p.documents.mapM fun d => (p.analysis d).finished

theorem obstacle_eq_ok_iff : p.obstacle = .ok () ↔ p.registry.check = .ok () ∧ p.Completes := by
  have hall := @Analysis.mapM_finished _ p.analysis p.documents
  unfold obstacle
  cases p.registry.check with
  | error fault => simp [bind, Except.bind, Except.mapError]
  | ok _ =>
    simp only [bind, Except.bind, Except.mapError, pure, Except.pure, true_and]
    cases hanalyses : p.documents.mapM fun d => (p.analysis d).finished with
    | error fault =>
      have hnot : ¬ p.Completes := fun hdone => by simpa [hanalyses] using hall.mpr ⟨rfl, hdone⟩
      simpa using hnot
    | ok analyses => simpa using show p.Completes from (hall.mp hanalyses).2

structure Keyed (p : Project) : Prop where
  names : p.names.Nodup
  store : p.store.Keyed

-- ----------------------------------------------------------------------------
-- Merging
-- ----------------------------------------------------------------------------

theorem analysis_sound (p : Project) (d : Document) : (p.analysis d).Sound d.name :=
  analyze_sound p.registry d.name d.source

theorem get?_defines (p : Project) (d : Document) (id : String) :
    (p.analysis d).contribution.ids.get? id = (p.analysis d).index.record? id := by
  rw [(p.analysis_sound d).ids, Index.get?_records]

@[simp] theorem documents_analyses (p : Project) : p.analyses.map (·.document) = p.names := by
  simp only [analyses, List.map_map]
  rfl

theorem mem_analyses {a : Analysis} (h : a ∈ p.analyses) :
    ∃ d ∈ p.documents, a = p.analysis d ∧ a.Sound d.name := by
  obtain ⟨d, hd, rfl⟩ := List.mem_map.mp h
  exact ⟨d, hd, rfl, p.analysis_sound d⟩

theorem Keyed.mergeable (h : p.Keyed) : Mergeable p.ground p.analyses := by
  refine ⟨h.store.clear _, ?_, ?_, ?_, ?_⟩
  · intro a ha
    obtain ⟨d, -, -, hsound⟩ := mem_analyses ha
    exact hsound.contribution
  · intro a ha
    obtain ⟨d, -, -, hsound⟩ := mem_analyses ha
    exact hsound.owner.trans hsound.name.symm
  · exact p.documents_analyses ▸ h.names
  · exact p.documents_analyses ▸ p.store.clear_freeOf p.names

theorem site_mem_names {r : Reference} (hr : r ∈ p.references) : r.site.document ∈ p.names := by
  obtain ⟨a, ha, hr⟩ := List.mem_flatMap.mp hr
  obtain ⟨d, hd, -, hsound⟩ := mem_analyses ha
  rw [(hsound.references r hr).1]
  exact List.mem_map_of_mem hd

theorem site_of_mem_number {row : Store.Row} (hrow : row ∈ Store.number next p.references) :
    row.reference.site.document ∈ p.names := by
  obtain ⟨place, -, hr⟩ := Store.mem_number.mp hrow
  exact site_mem_names (List.mem_of_getElem? hr)

section
variable (h : p.Keyed)
include h

theorem Keyed.rows_merged :
    p.merged.rows = p.ground.rows ++ Store.number p.store.nextRow p.references :=
  rows_mergeAll h.mergeable

theorem Keyed.rowsIn_merged :
    p.merged.rowsIn p.names = Store.number p.store.nextRow p.references := by
  have hground : p.ground.rows.filter
      (fun row => p.names.contains row.reference.site.document) = [] := by
    refine List.filter_eq_nil_iff.mpr fun row hrow => ?_
    simpa using (p.store.clear_freeOf p.names).rows row hrow
  have hown : (Store.number p.store.nextRow p.references).filter
      (fun row => p.names.contains row.reference.site.document) =
        Store.number p.store.nextRow p.references := by
    refine List.filter_eq_self.mpr fun row hrow => ?_
    simpa using site_of_mem_number hrow
  rw [Store.rowsIn, h.rows_merged, List.filter_append, hground, hown, List.nil_append]

theorem Keyed.compile_eq (options : CompileOptions) :
    p.compile options =
      p.obstacle.map fun _ => (p.output options, { p with store := p.finished }) := by
  have hrejected : p.selection.rejected.filterMap (fun place =>
      ((Store.number p.store.nextRow p.references)[place]?).map (·.id)) =
        p.selection.rejected.map (p.store.nextRow + ·) := by
    rw [← List.filterMap_eq_map]
    refine List.filterMap_congr fun place hplace => ?_
    have hlt := (Selection.mem_rejected.mp hplace).1
    rw [Store.getElem?_number, List.getElem?_eq_getElem hlt]
    rfl
  have hmerge : mergeAll (p.store.clear p.names) (p.documents.map p.analysis) =
      (p.analyses.map (yielded p.merged), p.merged) :=
    Prod.ext (documents_mergeAll h.mergeable) rfl
  unfold compile obstacle
  cases p.registry.check with
  | error fault => rfl
  | ok _ =>
    change (p.documents.mapM fun d => (p.analysis d).finished).bind _ = Except.map _
      ((p.documents.mapM fun d => (p.analysis d).finished).bind _)
    cases hanalyses : p.documents.mapM fun d => (p.analysis d).finished with
    | error fault => rfl
    | ok analyses =>
      obtain ⟨rfl, -⟩ := Analysis.mapM_finished.mp hanalyses
      rw [selection] at hrejected
      simp only [Except.bind, pure, Except.pure, Except.map, hmerge, h.rowsIn_merged,
        Store.references_number, hrejected, List.map_map]
      rfl

theorem Keyed.compile_ok (hcheck : p.registry.check = .ok ()) (hdone : p.Completes)
    (options : CompileOptions) :
    p.compile options = .ok (p.output options, { p with store := p.finished }) := by
  rw [h.compile_eq, obstacle_eq_ok_iff.mpr ⟨hcheck, hdone⟩]
  rfl

end

-- ----------------------------------------------------------------------------
-- The finished store
-- ----------------------------------------------------------------------------

section
variable (h : p.Keyed)
include h

theorem Keyed.get?_finished (id : String) :
    p.finished.records.get? id =
      (p.ground.records.get? id).or
        (p.analyses.findSome? (·.contribution.ids.get? id)) :=
  get?_mergeAll h.mergeable id

/-- What the store held of other documents is still there; of the references of
the project only those that were kept have been added. -/
theorem Keyed.rows_finished :
    p.finished.rows = p.ground.rows ++
      (Store.number p.store.nextRow p.references).filter fun row =>
        !(p.selection.rejected.map (p.store.nextRow + ·)).contains row.id := by
  have hground : p.ground.rows.filter (fun row =>
      !(p.selection.rejected.map (p.store.nextRow + ·)).contains row.id) = p.ground.rows := by
    refine List.filter_eq_self.mpr fun row hrow => ?_
    have hlt : row.id < p.store.nextRow := (h.store.clear p.names).below row hrow
    rw [Bool.not_eq_true', ← Bool.not_eq_true, List.contains_iff_mem, List.mem_map]
    rintro ⟨place, -, hplace⟩
    exact Nat.not_lt.mpr (Nat.le_add_right _ place) (hplace ▸ hlt)
  rw [finished, Store.delete, h.rows_merged, List.filter_append, hground]

theorem Keyed.rowsIn_finished :
    p.finished.rowsIn p.names =
      (Store.number p.store.nextRow p.references).filter fun row =>
        !(p.selection.rejected.map (p.store.nextRow + ·)).contains row.id := by
  rw [← h.rowsIn_merged, finished, Store.delete, Store.rowsIn, Store.rowsIn, List.filter_filter,
    List.filter_filter]
  refine List.filter_congr fun row _ => Bool.and_comm _ _

theorem Keyed.mem_rowsIn_finished :
    row ∈ p.finished.rowsIn p.names ↔
      ∃ place ∈ p.selection.selected, row.id = p.store.nextRow + place ∧
        p.references[place]? = some row.reference := by
  rw [h.rowsIn_finished, List.mem_filter, Store.mem_number, Bool.not_eq_true', ← Bool.not_eq_true,
    List.contains_iff_mem, List.mem_map]
  constructor
  · rintro ⟨⟨place, hid, hr⟩, hkept⟩
    refine ⟨place, ?_, hid, hr⟩
    by_contra hlost
    have hlt := (List.getElem?_eq_some_iff.mp hr).1
    exact hkept ⟨place, Selection.mem_rejected.mpr ⟨hlt, hlost⟩, hid.symm⟩
  · rintro ⟨place, hplace, hid, hr⟩
    refine ⟨⟨place, hid, hr⟩, ?_⟩
    rintro ⟨other, hother, heq⟩
    obtain rfl := Nat.add_left_cancel (heq.trans hid)
    exact (Selection.mem_rejected.mp hother).2 hplace

theorem Keyed.nextRow_finished :
    p.finished.nextRow = p.store.nextRow + p.references.length := nextRow_mergeAll h.mergeable

theorem Keyed.keyed_finished : p.finished.Keyed := (keyed_mergeAll h.mergeable).delete _

theorem Keyed.sound_finished (hstore : p.store.Sound) : p.finished.Sound :=
  (sound_mergeAll h.mergeable (hstore.clear p.names)).delete _

theorem Keyed.ready_of_compile (hcompile : p.compile options = .ok (out, q)) :
    p.registry.check = .ok () ∧ p.Completes := by
  rw [h.compile_eq] at hcompile
  cases hready : p.obstacle with
  | error fault => simp [hready, Except.map] at hcompile
  | ok _ => exact obstacle_eq_ok_iff.mp hready

theorem Keyed.eq_of_compile (hcompile : p.compile options = .ok (out, q)) :
    out = p.output options ∧ q = { p with store := p.finished } := by
  obtain ⟨hcheck, hdone⟩ := h.ready_of_compile hcompile
  rw [h.compile_ok hcheck hdone] at hcompile
  obtain ⟨rfl, rfl⟩ := Prod.mk.inj (Except.ok.inj hcompile)
  exact ⟨rfl, rfl⟩

end

-- ----------------------------------------------------------------------------
-- Every project
-- ----------------------------------------------------------------------------

@[simp] theorem registry_add (p : Project) (name source : String) :
    (p.add name source).registry = p.registry := by
  unfold add
  split <;> rfl

@[simp] theorem store_add (p : Project) (name source : String) :
    (p.add name source).store = p.store := by
  unfold add
  split <;> rfl

@[simp] theorem indexName_add (p : Project) (name source : String) :
    (p.add name source).indexName = p.indexName := by
  unfold add
  split <;> rfl

theorem add_new (hnew : name ∉ p.names) (source : String) :
    p.add name source = { p with documents := p.documents ++ [⟨name, source⟩] } := by
  have hany : ¬p.documents.any (·.name == name) = true := by simpa [names] using hnew
  rw [add, if_neg hany]

theorem names_add (p : Project) (name source : String) :
    (p.add name source).names = if name ∈ p.names then p.names else p.names ++ [name] := by
  by_cases hname : name ∈ p.names
  · have hany : p.documents.any (·.name == name) = true := by simpa [names] using hname
    rw [add, if_pos hany, if_pos hname]
    simp only [names, List.map_map]
    refine List.map_congr_left fun d _ => ?_
    simp only [Function.comp_apply]
    split <;> rfl
  · rw [add_new hname, if_neg hname]
    simp [names]

def addAll (p : Project) (documents : List Document) : Project :=
  documents.foldl (fun p d => p.add d.name d.source) p

theorem addAll_cons (p : Project) (d : Document) (documents : List Document) :
    p.addAll (d :: documents) = (p.add d.name d.source).addAll documents := rfl

theorem addAll_store (p : Project) (s : Store) (documents : List Document) :
    ({ p with store := s } : Project).addAll documents =
      { p.addAll documents with store := s } := by
  have hadd : ∀ (p : Project) (name source : String),
      ({ p with store := s } : Project).add name source = { p.add name source with store := s } := by
    intro p name source
    unfold add
    split <;> rfl
  induction documents generalizing p with
  | nil => rfl
  | cons d documents ih => rw [addAll_cons, hadd, ih, addAll_cons]

theorem addAll_new {documents : List Document}
    (hnodup : (p.names ++ documents.map (·.name)).Nodup) :
    p.addAll documents = { p with documents := p.documents ++ documents } := by
  induction documents generalizing p with
  | nil => simp [addAll]
  | cons d rest ih =>
    have hnew : d.name ∉ p.names := fun hmem =>
      (List.nodup_append.mp hnodup).2.2 d.name hmem d.name (by simp) rfl
    rw [addAll_cons, ih (by simpa [names_add, hnew] using hnodup), add_new hnew]
    simp

theorem registry_addAll (p : Project) (documents : List Document) :
    (p.addAll documents).registry = p.registry := by
  induction documents generalizing p with
  | nil => rfl
  | cons d documents ih => rw [addAll_cons, ih, registry_add]

theorem mem_names_addAll {documents : List Document} :
    name ∈ (p.addAll documents).names ↔
      name ∈ p.names ∨ name ∈ documents.map (·.name) := by
  induction documents generalizing p with
  | nil => simp [addAll]
  | cons d documents ih =>
    rw [addAll_cons, ih, names_add]
    split
    · next hname =>
      rw [List.map_cons, List.mem_cons]
      constructor
      · exact Or.imp_right .inr
      · rintro (h | rfl | h)
        exacts [.inl h, .inl hname, .inr h]
    · rw [List.map_cons, List.mem_cons, List.mem_append, List.mem_singleton, or_assoc]

theorem mem_documents_add {source : String} :
    d ∈ (p.add name source).documents ↔
      d = ⟨name, source⟩ ∨ d ∈ p.documents ∧ d.name ≠ name := by
  by_cases hname : name ∈ p.names
  · have hany : p.documents.any (·.name == name) = true := by simpa [names] using hname
    rw [add, if_pos hany, List.mem_map]
    constructor
    · rintro ⟨e, he, rfl⟩
      by_cases hsame : e.name = name
      · exact .inl (by simp [hsame])
      · exact .inr (by simp [hsame, he])
    · rintro (rfl | ⟨hd, hne⟩)
      · obtain ⟨e, he, rfl⟩ := List.mem_map.mp hname
        exact ⟨e, he, if_pos rfl⟩
      · exact ⟨d, hd, if_neg hne⟩
  · rw [add_new hname, List.mem_append, List.mem_singleton, or_comm]
    refine or_congr_right (iff_self_and.mpr fun hd heq => hname ?_)
    exact heq ▸ List.mem_map_of_mem hd

/-- A document stays as long as no other one of its name is added. -/
theorem mem_documents_addAll {documents : List Document} (hd : d ∈ p.documents)
    (hlater : d.name ∉ documents.map (·.name)) :
    d ∈ (p.addAll documents).documents := by
  induction documents generalizing p with
  | nil => exact hd
  | cons e documents ih =>
    rw [List.map_cons, List.mem_cons, not_or] at hlater
    exact ih (mem_documents_add.mpr (.inr ⟨hd, hlater.1⟩)) hlater.2

theorem Keyed.add (h : p.Keyed) (name source : String) : (p.add name source).Keyed := by
  refine ⟨?_, ?_⟩
  · rw [names_add]
    split
    · exact h.names
    · next hname => exact List.concat_eq_append ▸ h.names.concat hname
  · rw [store_add]
    exact h.store

/-- A project is made over a store; then documents are added to it or replaced,
and it is compiled, in any order. -/
inductive Reachable : Project → Prop
  | create {store : Store} (h : store.Built) (registry : Registry) (indexName : Option String) :
      Reachable { registry, store, indexName }
  | add {p : Project} (h : Reachable p) (name source : String) : Reachable (p.add name source)
  | compile {p q : Project} {options : CompileOptions} {out : CompiledProject}
      (h : Reachable p) (hcompile : p.compile options = .ok (out, q)) : Reachable q

theorem Reachable.sound (h : Reachable p) : p.Keyed ∧ p.store.Sound := by
  induction h with
  | create hstore registry indexName =>
    exact ⟨⟨List.nodup_nil, hstore.sound.toKeyed⟩, hstore.sound⟩
  | add _ name source ih =>
    exact ⟨ih.1.add name source, (store_add _ name source).symm ▸ ih.2⟩
  | compile _ hcompile ih =>
    obtain ⟨hkeyed, hsound⟩ := ih
    obtain ⟨-, rfl⟩ := hkeyed.eq_of_compile hcompile
    exact ⟨⟨hkeyed.names, hkeyed.keyed_finished⟩, hkeyed.sound_finished hsound⟩

theorem Reachable.addAll (h : Reachable p) (documents : List Document) :
    Reachable (p.addAll documents) := by
  induction documents generalizing p with
  | nil => exact h
  | cons d rest ih => exact ih (h.add d.name d.source)

/-- Any documents of different names, over any store that can be built. -/
theorem reachable_of_nodup {store : Store} (hstore : store.Built) (registry : Registry)
    (indexName : Option String) {documents : List Document}
    (hnodup : (documents.map (·.name)).Nodup) :
    Reachable { registry, store, documents, indexName } := by
  have hadded := (Reachable.create hstore registry indexName).addAll documents
  rwa [addAll_new (by simpa [names] using hnodup)] at hadded

-- ----------------------------------------------------------------------------
-- A project to look at
-- ----------------------------------------------------------------------------

/-- Its documents define what a foreign one defines, what each other defines and
what each other is called, and link to all of that and to nothing. -/
def birds : Project :=
  { registry := .builtin
    store := (Store.empty.update (analyze .builtin "zoo" "\\h[1][Geese]").contribution).2
    documents := [⟨"ducks", "\\h[1][Geese]\n\n\\h[1][Swans]\n\n\\x[ducks]"⟩,
      ⟨"index", "\\h[1][Ducks]\n\n\\h[1][Swans]\n\n\\x[swan]{magic=1} \\x[owl]{magic=1}"⟩] }

theorem birds_reachable : birds.Reachable :=
  reachable_of_nodup (.update .empty .builtin "zoo" "\\h[1][Geese]") .builtin none (by decide)

theorem birds_completes : birds.Completes := by decide +kernel

end Macromark.Project
