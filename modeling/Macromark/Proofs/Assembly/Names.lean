import Macromark.Assembly
import Macromark.Proofs.Index

/-!
# What an assembly enters

Whatever the tree and the registry, an assembly keeps its index that of the
document, notes references that stand in the document and lead from nothing or
from an identifier of the index, and reports what can be wrong with a document
taken by itself. `State.Sound` is the invariant of a state; `State.Grows` says
that a step keeps it and gives no identifier up, so that what has been noted
before stays true (`visitAll_grows`). `assemble_sound` reads it off the result.
-/

namespace Macromark

/-- What can be wrong with a document taken by itself: nothing that concerns
the targets of its links, and no identifier taken by another document. -/
def Problem.Local (document : String) : Problem → Prop
  | .duplicateId _ previous => previous.document = document
  | .unresolvedLink _ | .missingDocument _ | .unreachableDocument | .brokenLink _ => False
  | _ => True

namespace Assembly
namespace State

def Names (s : State) (id : String) : Prop := id = "" ∨ s.index.contains id = true

structure Sound (setting : Setting) (s : State) : Prop where
  index : s.index.Of setting.document
  toplevel : ∀ id, toplevelId setting = some id → s.index.contains id = true
  headers : ∀ entry ∈ s.headerIds, s.index.contains entry.2 = true
  references : ∀ r ∈ s.references, r.site.document = setting.document ∧ s.Names r.source
  diagnostics : ∀ d ∈ s.diagnostics, d.problem.Local setting.document

/-- From `s` the assembly may go on to `t`. -/
structure Grows (setting : Setting) (s t : State) : Prop where
  sound : t.Sound setting
  keeps : ∀ id, s.index.contains id = true → t.index.contains id = true

structure Named (setting : Setting) (s : State) (result : Option String × State) : Prop extends
    Grows setting s result.2 where
  name : ∀ id, result.1 = some id → result.2.index.contains id = true

end State

open State (Names Sound Grows Named)

variable {setting : Setting} {s t u : State} {id : String}

theorem State.Sound.refl (h : s.Sound setting) : Grows setting s s := ⟨h, fun _ hid => hid⟩

theorem State.Grows.trans (h : Grows setting s t) (h' : Grows setting t u) : Grows setting s u :=
  ⟨h'.sound, fun id hid => h'.keeps id (h.keeps id hid)⟩

theorem State.Grows.named (h : Grows setting s t) : Named setting s (none, t) :=
  ⟨h, by simp⟩

theorem State.Named.after (h : Grows setting s t) (h' : Named setting t result) :
    Named setting s result := ⟨h.trans h'.toGrows, h'.name⟩

theorem State.Sound.frame (h : s.Sound setting) (hindex : t.index = s.index)
    (hheaders : t.headerIds = s.headerIds) (hreferences : t.references = s.references)
    (hdiagnostics : t.diagnostics = s.diagnostics) : Grows setting s t := by
  refine ⟨⟨?_, ?_, ?_, ?_, ?_⟩, ?_⟩
  · exact hindex ▸ h.index
  · exact hindex ▸ h.toplevel
  · exact hindex ▸ hheaders ▸ h.headers
  · simpa only [Names, hindex, hreferences] using h.references
  · exact hdiagnostics ▸ h.diagnostics
  · exact hindex ▸ fun _ hid => hid

theorem State.Grows.names (h : Grows setting s t) (hid : s.Names id) : t.Names id :=
  hid.imp_right (h.keeps id)

-- ----------------------------------------------------------------------------
-- Notes
-- ----------------------------------------------------------------------------

theorem report_grows (h : s.Sound setting) (position : Position) (problem : Problem)
    (hp : problem.Local setting.document) :
    Grows setting s (report setting s position problem) := by
  refine ⟨⟨h.index, h.toplevel, h.headers, h.references, ?_⟩, fun _ hid => hid⟩
  intro d hd
  rcases List.mem_append.mp hd with hd | hd
  · exact h.diagnostics d hd
  · obtain rfl := List.mem_singleton.mp hd
    exact hp

theorem refer_grows (h : s.Sound setting)
    (hr : ∀ r ∈ rows, r.site.document = setting.document ∧ s.Names r.source) :
    Grows setting s (refer s rows) := by
  refine ⟨⟨h.index, h.toplevel, h.headers, ?_, h.diagnostics⟩, fun _ hid => hid⟩
  intro r hmem
  rcases List.mem_append.mp hmem with hmem | hmem
  · exact h.references r hmem
  · exact hr r hmem

theorem refer_one_grows {source : String} (h : s.Sound setting) (hsource : s.Names source)
    (target : String) (kind : ReferenceKind) (position : Position) :
    Grows setting s (refer s [{ source, target, kind, site := site setting position }]) := by
  apply refer_grows h
  simp only [List.mem_singleton, forall_eq]
  exact ⟨rfl, hsource⟩

theorem toplevelId_names (h : s.Sound setting) : s.Names ((toplevelId setting).getD "") := by
  cases ht : toplevelId setting with
  | none => exact .inl rfl
  | some id => exact .inr (h.toplevel id ht)

theorem headerId_names (h : s.Sound setting) : s.Names ((s.headerIds.get? header).getD "") := by
  cases hid : s.headerIds.get? header with
  | none => exact .inl rfl
  | some id => exact .inr (h.headers _ (OrderedMap.mem_of_get? hid))

theorem source_names (h : s.Sound setting) : s.Names (source setting s) := by
  unfold source
  cases hid : s.headerIds.get? s.headers.current with
  | none => simpa using toplevelId_names h
  | some id => exact .inr (h.headers _ (OrderedMap.mem_of_get? hid))

theorem parentId_names (h : s.Sound setting) (parent : HeaderId) :
    s.Names (parentId setting s parent) := by
  unfold parentId
  split
  · exact toplevelId_names h
  · exact headerId_names h

-- ----------------------------------------------------------------------------
-- The index
-- ----------------------------------------------------------------------------

theorem insert_grows (h : s.Sound setting) (hr : record.Of setting.document record.id)
    (hi : s.index.insert node record = .ok index) : Grows setting s { s with index } := by
  have hkeeps : ∀ id, s.index.contains id = true → index.contains id = true := by
    intro id hid
    rw [Index.contains_insert hi, hid, Bool.or_true]
  refine ⟨⟨h.index.insert hr hi, ?_, ?_, ?_, h.diagnostics⟩, hkeeps⟩
  · exact fun id hid => hkeeps id (h.toplevel id hid)
  · exact fun entry he => hkeeps _ (h.headers entry he)
  · exact fun r hmem => ⟨(h.references r hmem).1, (h.references r hmem).2.imp_right (hkeeps _)⟩

theorem modify_grows (h : s.Sound setting) (id : String)
    (hf : ∀ r : IdRecord, r.Of setting.document id → (f r).Of setting.document id) :
    Grows setting s { s with index := s.index.modify id f } := by
  refine ⟨⟨h.index.modify hf, ?_, ?_, ?_, h.diagnostics⟩, ?_⟩
  · simpa using h.toplevel
  · simpa using h.headers
  · simpa [Names] using h.references
  · simp

theorem assignId_named (h : s.Sound setting) (node : NodeId) (call : MacroCall)
    (definition : MacroDef) (scope : Option String) (numbered : Bool) :
    Named setting s (assignId setting s node call definition scope numbered) := by
  unfold assignId
  split
  · exact h.refl.named
  · simp only
    split
    · next previous hi =>
      have hprevious := h.index.record? (Index.insert_error hi)
      exact (report_grows h _ (.duplicateId _ _) hprevious.placed).named
    · next index hi =>
      have hgrows := insert_grows h ⟨rfl, rfl, rfl⟩ hi
      refine ⟨hgrows.trans (hgrows.sound.frame rfl rfl rfl rfl), ?_⟩
      rintro id ⟨⟩
      rw [Index.contains_insert hi]
      simp [recordFor, IdRecord.define]

-- ----------------------------------------------------------------------------
-- Headers
-- ----------------------------------------------------------------------------

theorem levelOf_grows (h : s.Sound setting) (node : NodeId) :
    Grows setting s (levelOf setting s node).2 := by
  unfold levelOf
  simp only
  split
  · exact h.refl
  · exact report_grows h _ _ trivial

theorem visitSynonym_named (h : s.Sound setting) :
    Named setting s (visitSynonym setting s node call definition level) := by
  have hassigned := assignId_named h node call definition (outerScope s) false
  unfold visitSynonym
  split
  · next heq => rw [heq] at hassigned; exact hassigned.toGrows.named
  · next id t heq =>
    rw [heq] at hassigned
    have hmodified := modify_grows hassigned.sound id
      (f := fun record => { record with level := some level, synonymOf := t.lastHeader })
      fun r hr => ⟨hr.keyed, hr.owned, hr.placed⟩
    have hid : t.index.contains id = true := hassigned.name id rfl
    have hid := hmodified.keeps id hid
    simp only
    split
    · next target htarget =>
      have hgrows := refer_one_grows hmodified.sound (.inr hid) target .synonym
        (t.tree.position node)
      refine ⟨hassigned.toGrows.trans (hmodified.trans hgrows), ?_⟩
      rintro id ⟨⟩
      exact hgrows.keeps id hid
    · have hgrows := report_grows hmodified.sound (t.tree.position node) .orphanSynonym trivial
      refine ⟨hassigned.toGrows.trans (hmodified.trans hgrows), ?_⟩
      rintro id ⟨⟩
      exact hgrows.keeps id hid

theorem linkHeader_grows (h : s.Sound setting) (node : NodeId) (level : Level) :
    Grows setting s (linkHeader setting s node level).2 := by
  obtain ⟨reports, aborted, heq, hreports⟩ := linkHeader_eq setting s node level
  rw [heq]
  refine ⟨⟨h.index, h.toplevel, h.headers, h.references, fun d hd => ?_⟩, fun _ hid => hid⟩
  rcases List.mem_append.mp hd with hd | hd
  · exact h.diagnostics d hd
  · obtain ⟨previous, current, rfl⟩ := hreports d hd
    trivial

theorem nameHeader_named {entered : HeaderTree.Entered} (h : s.Sound setting) :
    Named setting s (nameHeader setting s node call definition entered level) := by
  unfold nameHeader
  generalize Text.isTruthy (text setting s node "scope") = isScope
  have hassigned := assignId_named h node call definition (outerScope s) true
  split
  · next heq => rw [heq] at hassigned; exact hassigned.toGrows.named
  · next id t heq =>
    rw [heq] at hassigned
    have hmodified := modify_grows hassigned.sound id
      (f := fun record => { record with level := some level, isScope })
      fun r hr => ⟨hr.keyed, hr.owned, hr.placed⟩
    have hid := hmodified.keeps id (hassigned.name id rfl)
    have hentered : Sound setting { t with
        index := t.index.modify id fun record => { record with level := some level, isScope }
        headerIds := t.headerIds.insert entered.id id
        scopes := if isScope then t.scopes.insert entered.id id else t.scopes
        lastHeader := some id } := by
      refine ⟨hmodified.sound.index, hmodified.sound.toplevel, ?_, hmodified.sound.references,
        hmodified.sound.diagnostics⟩
      intro entry he
      rcases OrderedMap.mem_insert he with rfl | he
      · exact hid
      · exact hmodified.sound.headers entry he
    have hgrows := refer_one_grows hentered (parentId_names hentered entered.parent) id
      .structuralParent (s.tree.position node)
    refine ⟨⟨hgrows.sound, fun id hid => ?_⟩, ?_⟩
    · exact hgrows.keeps id (hmodified.keeps id (hassigned.keeps id hid))
    · rintro id ⟨⟩
      exact hgrows.keeps id hid

theorem visitHeader_named (h : s.Sound setting) :
    Named setting s (visitHeader setting s node call definition) := by
  have hlevel := levelOf_grows h node
  unfold visitHeader
  generalize levelOf setting s node = leveled at hlevel ⊢
  obtain ⟨level, t⟩ := leveled
  simp only at hlevel ⊢
  split
  · exact (visitSynonym_named hlevel.sound).after hlevel
  · have hlinked : Grows setting s (linkHeader setting t node level).2 :=
      hlevel.trans (linkHeader_grows hlevel.sound node level)
    exact (nameHeader_named hlinked.sound).after hlinked

-- ----------------------------------------------------------------------------
-- Links and inclusions
-- ----------------------------------------------------------------------------

theorem mem_candidateReferences {source : String} {site : Site}
    (h : r ∈ candidateReferences source inTitle site candidate) :
    r.source = source ∧ r.site = site := by
  unfold candidateReferences at h
  split at h
  · simp only [List.mem_cons, List.not_mem_nil, or_false] at h
    rcases h with rfl | rfl <;> exact ⟨rfl, rfl⟩
  · obtain rfl := List.mem_singleton.mp h
    exact ⟨rfl, rfl⟩

theorem visitLink_grows (h : s.Sound setting) (htitle : ∀ id, titleOf = some id → s.Names id) :
    Grows setting s (visitLink setting s node call titleOf) := by
  unfold visitLink
  split
  · exact h.refl
  · next href _ =>
    have horigin : s.Names (titleOf.getD (source setting s)) := by
      cases titleOf with
      | none => exact source_names h
      | some id => exact htitle id rfl
    have hrows : ∀ candidates : List Candidate, ∀ r ∈ candidates.flatMap
        (candidateReferences (titleOf.getD (source setting s)) titleOf.isSome
          (site setting href.position)), r.site.document = setting.document ∧ s.Names r.source := by
      intro candidates r hr
      obtain ⟨candidate, -, hr⟩ := List.mem_flatMap.mp hr
      obtain ⟨hsource, hsite⟩ := mem_candidateReferences hr
      exact ⟨by rw [hsite]; rfl, hsource ▸ horigin⟩
    exact (refer_grows h (hrows _)).trans
      ((refer_grows h (hrows _)).sound.frame rfl rfl rfl rfl)

theorem visitInclusion_grows (h : s.Sound setting) :
    Grows setting s (visitInclusion setting s node call) := by
  unfold visitInclusion
  split
  · exact h.refl
  · exact refer_one_grows h (source_names h) _ _ _

-- ----------------------------------------------------------------------------
-- Visits
-- ----------------------------------------------------------------------------

def Visit.Sound (s : State) (visit : Visit) : Prop := ∀ id, visit.titleOf = some id → s.Names id

theorem Visit.Sound.later (hv : Visit.Sound s visit) (h : Grows setting s t) :
    Visit.Sound t visit := fun id hid => h.names (hv id hid)

theorem visitCall_named (h : s.Sound setting) (hv : Visit.Sound s visit) :
    Named setting s (visitCall setting s visit call) := by
  unfold visitCall
  split
  · exact h.refl.named
  · split
    · exact visitHeader_named h
    · have hgrows : Grows setting s
          (if call.name = MacroName.crossReference then
            visitLink setting s visit.node call visit.titleOf
          else if call.name = MacroName.inclusion then visitInclusion setting s visit.node call
          else s) := by
        split
        · exact visitLink_grows h hv
        · split
          · exact visitInclusion_grows h
          · exact h.refl
      exact (hgrows.trans (assignId_named hgrows.sound _ _ _ _ _).toGrows).named

theorem arrange_grows (h : s.Sound setting) (node : NodeId) (call : MacroCall) (isRoot : Bool) :
    Grows setting s (arrange setting s node call isRoot) := by
  unfold arrange
  generalize call.arguments = arguments
  induction arguments generalizing s with
  | nil => exact h.refl
  | cons argument rest ih =>
    refine Grows.trans (h.frame ?_ ?_ ?_ ?_) (ih (h.frame ?_ ?_ ?_ ?_).sound) <;> rfl

theorem visitsBelow_sound (hv : Visit.Sound s visit)
    (hheader : ∀ id, headerId = some id → s.index.contains id = true) :
    ∀ next ∈ visitsBelow visit call headerId, Visit.Sound s next := by
  intro next hnext
  simp only [visitsBelow, List.mem_flatMap, List.mem_map] at hnext
  obtain ⟨argument, -, child, -, rfl⟩ := hnext
  intro id hid
  simp only at hid
  split at hid
  · cases hid
    cases headerId with
    | none => exact .inl rfl
    | some id => exact .inr (hheader id rfl)
  · exact hv id hid

theorem visitNode_grows (h : s.Sound setting) (hv : Visit.Sound s visit) :
    Grows setting s (visitNode setting visit s).2 ∧
      ∀ next ∈ (visitNode setting visit s).1, Visit.Sound (visitNode setting visit s).2 next := by
  unfold visitNode
  split
  · exact ⟨h.refl, by simp⟩
  · next call _ =>
    have hcalled : Named setting s
        (if visit.node = s.tree.root then (none, s) else visitCall setting s visit call) := by
      split
      · exact h.refl.named
      · exact visitCall_named h hv
    simp only
    generalize (if visit.node = s.tree.root then (none, s) else visitCall setting s visit call)
      = called at hcalled ⊢
    obtain ⟨headerId, t⟩ := called
    cases hcall : t.tree.call? visit.node with
    | none =>
      simp only [hcall]
      exact ⟨hcalled.toGrows, by simp⟩
    | some written =>
      have harranged := arrange_grows hcalled.sound visit.node written
        (decide (visit.node = s.tree.root))
      have hgrows := hcalled.toGrows.trans harranged
      simp only
      split
      · refine ⟨hgrows, visitsBelow_sound (hv.later hgrows) ?_⟩
        exact fun id hid => harranged.keeps id (hcalled.name id hid)
      · exact ⟨hgrows, by simp⟩

theorem visitAll_grows (depth : Nat) (h : s.Sound setting) (hv : Visit.Sound s visit) :
    Grows setting s (visitAll setting depth visit s) := by
  induction depth generalizing visit s with
  | zero => exact h.refl
  | succ depth ih =>
    simp only [visitAll]
    obtain ⟨hgrows, hbelow⟩ := visitNode_grows h hv
    generalize visitNode setting visit s = result at hgrows hbelow ⊢
    obtain ⟨below, t⟩ := result
    refine hgrows.trans ?_
    have ht := hgrows.sound
    clear hgrows
    induction below generalizing t with
    | nil => exact ht.refl
    | cons next rest ihrest =>
      have hnext := ih ht (hbelow next List.mem_cons_self)
      refine hnext.trans (ihrest _ ?_ hnext.sound)
      exact fun v hmem => (hbelow v (List.mem_cons_of_mem _ hmem)).later hnext

-- ----------------------------------------------------------------------------
-- The document as a whole
-- ----------------------------------------------------------------------------

theorem registerDocument_sound (setting : Setting) (tree : Tree) :
    (registerDocument setting (.initial tree)).Sound setting := by
  unfold registerDocument
  split
  · next ht =>
    exact ⟨Index.Of.empty, by simp [ht], by simp [State.initial], by simp [State.initial],
      by simp [State.initial]⟩
  · next id ht =>
    simp only
    split
    · next index hi =>
      refine ⟨Index.Of.empty.insert ⟨rfl, rfl, rfl⟩ hi, ?_, by simp [State.initial],
        by simp [State.initial], by simp [State.initial]⟩
      intro other hother
      rw [ht] at hother
      cases hother
      rw [Index.contains_insert hi]
      simp [IdRecord.define]
    · next hi => exact absurd (Index.insert_error hi) (by simp [State.initial, Index.empty,
        Index.record?])

theorem nameDocument_grows (h : s.Sound setting) : Grows setting s (nameDocument setting s) := by
  unfold nameDocument
  split
  · exact h.refl
  · exact modify_grows h _ fun r hr => ⟨hr.keyed, hr.owned, hr.placed⟩

end Assembly

structure Assembled.Sound (document : String) (a : Assembled) : Prop where
  index : a.index.Of document
  owner : a.contribution.document = document
  ids : a.contribution.ids = a.index.records
  references : ∀ r ∈ a.contribution.references,
    r.site.document = document ∧ (r.source = "" ∨ a.index.contains r.source = true)
  diagnostics : ∀ d ∈ a.diagnostics, d.problem.Local document

theorem assemble_sound (registry : Registry) (document : String) (tree : Tree) :
    (assemble registry document tree).Sound document := by
  unfold assemble
  split
  · exact ⟨Index.Of.empty, rfl, rfl, by simp, by simp⟩
  · have hregistered := Assembly.registerDocument_sound ⟨registry, document⟩ tree
    have hroot : Assembly.Visit.Sound (Assembly.registerDocument ⟨registry, document⟩
        (.initial tree)) ⟨tree.root, none⟩ := by simp [Assembly.Visit.Sound]
    have hvisited := Assembly.visitAll_grows (Assembly.depthBound tree) hregistered hroot
    have hnamed := Assembly.nameDocument_grows hvisited.sound
    exact ⟨hnamed.sound.index, rfl, rfl, hnamed.sound.references, hnamed.sound.diagnostics⟩

end Macromark
