import Macromark.Proofs.Assembly.Content

/-!
# Where a macro comes from

A macro in a settled passage was written, and then it is what became of the
passage that the author wrote there, or it is implied (`Passage.settle_origin`).
So every written macro of a document is settled by itself
(`Tree.SettlesTo.settled_at`).
-/

namespace Macromark
namespace Passage

variable {α : Type} {registry : Registry} {fresh : α} {owner container : String}
variable {p q : Passage α} {ps content members : List (Passage α)}
variable {fits : List (Passage α) → Prop}

/-- Where a passage comes from that is read after a step of the arrangement. What is implied there
is made of contents that are fit for it. -/
inductive Origin (registry : Registry) (fresh : α) (fits : List (Passage α) → Prop)
    (content : List (Passage α)) : Passage α → Prop
  | written {p : Passage α} : p ∈ reading content → Origin registry fresh fits content p
  | text (mark : α) (words : String) : Origin registry fresh fits content (.text mark words)
  | implied {name : String} {members : List (Passage α)} {p : Passage α} : registry.Implies name →
      implied? registry fresh name members = some p → fits members →
      Origin registry fresh fits content p

theorem mem_reading : p ∈ reading ps ↔ ∃ q ∈ ps, p ∈ q.all := List.mem_flatMap

theorem mem_all_self (p : Passage α) : p ∈ p.all := by
  rw [all_eq]
  exact List.mem_cons_self

theorem reading_subset (h : ps ⊆ content) : reading ps ⊆ reading content := by
  intro p hp
  obtain ⟨q, hq, hp⟩ := mem_reading.mp hp
  exact mem_reading.mpr ⟨q, h hq, hp⟩

theorem Origin.mono (h : Origin registry fresh fits ps p) (hsub : reading ps ⊆ reading content) :
    Origin registry fresh fits content p := by
  cases h with
  | written hp => exact .written (hsub hp)
  | text mark words => exact .text mark words
  | implied himplies himplied hfits => exact .implied himplies himplied hfits

-- ----------------------------------------------------------------------------
-- New macros
-- ----------------------------------------------------------------------------

theorem mem_impliedSlots {names : List String} {given : Option (List (Passage α))}
    {slot : Slot (Passage α)} (h : slot ∈ impliedSlots fresh names given) :
    slot.content = [.text fresh ""] ∨ slot.name = "content" ∧ some slot.content = given := by
  induction names generalizing given with
  | nil => simp [impliedSlots] at h
  | cons name names ih =>
    rw [impliedSlots] at h
    by_cases hname : name = "content"
    · simp only [hname, if_true] at h
      split at h
      · rcases List.mem_cons.mp h with rfl | h
        · exact .inr ⟨rfl, rfl⟩
        · exact .inl ((ih h).resolve_right (by simp))
      · rcases List.mem_cons.mp h with rfl | h
        · exact .inl rfl
        · exact .inl ((ih h).resolve_right (by simp))
    · simp only [hname, if_false] at h
      rcases List.mem_cons.mp h with rfl | h
      · exact .inl rfl
      · exact ih h

theorem implied?_eq {name : String} (h : implied? registry fresh name members = some p) :
    ∃ d, registry.get? name = some d ∧ "content" ∈ d.argumentNames ∧
      p = .call fresh name true (impliedSlots fresh d.argumentNames (some members)) := by
  unfold implied? at h
  split at h
  · cases h
  · next d hd =>
    split at h
    · next hdeclares =>
      exact ⟨d, hd, MacroDef.declares_iff.mp hdeclares, (Option.some.inj h).symm⟩
    · cases h

theorem mem_all_implied {name : String} (h : implied? registry fresh name members = some p)
    (hq : q ∈ p.all) : q = p ∨ q ∈ reading members ∨ q = .text fresh "" := by
  obtain ⟨d, -, -, rfl⟩ := implied?_eq h
  rw [all_eq] at hq
  refine (List.mem_cons.mp hq).imp_right fun hq => ?_
  obtain ⟨slot, hslot, hq⟩ := List.mem_flatMap.mp hq
  rcases mem_impliedSlots hslot with hcontent | ⟨-, hcontent⟩
  · rw [hcontent] at hq
    exact .inr (by simpa [all] using hq)
  · rw [Option.some.inj hcontent] at hq
    exact .inl hq

theorem origin_implied {name : String} (himplies : registry.Implies name)
    (himplied : implied? registry fresh name members = some p) (hfits : fits members)
    (hq : q ∈ p.all) : Origin registry fresh fits members q := by
  rcases mem_all_implied himplied hq with rfl | hq | rfl
  · exact .implied himplies himplied hfits
  · exact .written hq
  · exact .text fresh ""

-- ----------------------------------------------------------------------------
-- Containers
-- ----------------------------------------------------------------------------

/-- Each of these passages asks for a container. -/
def Asking (registry : Registry) (owner : String) (members : List (Passage α)) : Prop :=
  ∀ p ∈ members, ∃ container, p.container? registry owner = some container

/-- Who asks for a container is a macro that is gathered into it. -/
theorem gathering_of_container? (h : p.container? registry owner = some container) :
    ∃ mark name synthetic slots d gathering, p = .call mark name synthetic slots ∧
      registry.get? name = some d ∧ d.gathering = some gathering ∧
      gathering.container = container := by
  cases p with
  | call mark name synthetic slots =>
    obtain ⟨d, hd, h⟩ := Option.bind_eq_some_iff.mp h
    obtain ⟨gathering, hgathering, h⟩ := Option.bind_eq_some_iff.mp h
    split at h
    · cases h
    · exact ⟨mark, name, synthetic, slots, d, gathering, rfl, hd, hgathering, Option.some.inj h⟩
  | _ => cases h

theorem implies_of_container? (h : p.container? registry owner = some container) :
    registry.Implies container := by
  obtain ⟨_, _, _, _, d, gathering, -, hd, hgathering, rfl⟩ := gathering_of_container? h
  exact .inr ⟨d, List.mem_of_find?_eq_some hd, gathering, hgathering, rfl⟩

theorem gatherRows_origin (hq : q ∈ reading (gatherRows registry fresh owner ps)) :
    Origin registry fresh (Asking registry owner) ps q := by
  fun_induction gatherRows registry fresh owner ps with
  | case1 => exact .written hq
  | case2 p rest _ ih =>
    rcases List.mem_append.mp hq with hq | hq
    · exact .written (List.mem_append_left _ hq)
    · exact (ih hq).mono (List.subset_append_right _ _)
  | case3 p rest _ _ _ _ _ ih =>
    rcases List.mem_append.mp hq with hq | hq
    · exact .written (List.mem_append_left _ hq)
    · exact (ih hq).mono (List.subset_append_right _ _)
  | case4 p rest container hasks isMember row _ wrapper hwrapper ih =>
    have hrow : row ⊆ rest := (rowBehind_front isMember isBlank rest).1.subset
    rcases List.mem_append.mp hq with hq | hq
    · refine (origin_implied (implies_of_container? hasks) hwrapper ?_ hq).mono ?_
      · intro member hmember
        rcases List.mem_cons.mp hmember with rfl | hmember
        · exact ⟨container, hasks⟩
        · exact ⟨container, by simpa [isMember] using (List.mem_filter.mp hmember).2⟩
      · exact reading_subset (List.cons_subset_cons p fun member hmember =>
          hrow (List.filter_sublist.subset hmember))
    · exact (ih hq).mono (reading_subset fun other hother =>
        List.mem_cons_of_mem _ (List.drop_subset _ _ hother))
  | case5 p rest container _ isMember row _ _ ih =>
    have hrow : row ⊆ rest := (rowBehind_front isMember isBlank rest).1.subset
    rw [reading_append] at hq
    rcases List.mem_append.mp hq with hq | hq
    · exact .written (reading_subset (List.cons_subset_cons p hrow) hq)
    · exact (ih hq).mono (reading_subset fun other hother =>
        List.mem_cons_of_mem _ (List.drop_subset _ _ hother))

theorem gather_origin (hq : q ∈ reading (gather registry fresh owner ps)) :
    Origin registry fresh (Asking registry owner) ps q := by
  unfold gather at hq
  split at hq
  · exact (gatherRows_origin hq).mono (reading_subset List.filter_sublist.subset)
  · exact gatherRows_origin hq

-- ----------------------------------------------------------------------------
-- Paragraphs
-- ----------------------------------------------------------------------------

theorem mem_trimFront {cut : List Char → List Char} (hp : p ∈ trimFront cut ps) :
    p ∈ ps ∨ ∃ mark words, p = .text mark words := by
  fun_induction trimFront cut ps with
  | case1 => exact .inl hp
  | case2 mark words rest _ ih => exact (ih hp).imp_left (List.mem_cons_of_mem _)
  | case3 mark words rest =>
    rcases List.mem_cons.mp hp with rfl | hp
    · exact .inr ⟨_, _, rfl⟩
    · exact .inl (List.mem_cons_of_mem _ hp)
  | case4 p rest _ => exact .inl hp

theorem mem_trimChunk (hp : p ∈ trimChunk ps) : p ∈ ps ∨ ∃ mark words, p = .text mark words := by
  rcases mem_trimFront (List.mem_reverse.mp hp) with hp | htext
  · exact mem_trimFront (List.mem_reverse.mp hp)
  · exact .inr htext

theorem trimChunk_origin (hq : q ∈ reading (trimChunk ps)) : Origin registry fresh fits ps q := by
  obtain ⟨p, hp, hq⟩ := mem_reading.mp hq
  rcases mem_trimChunk hp with hp | ⟨mark, words, rfl⟩
  · exact .written (mem_reading.mpr ⟨p, hp, hq⟩)
  · rw [all_text, List.mem_singleton] at hq
    exact hq ▸ .text mark words

theorem wrapChunk_origin (hq : q ∈ reading (wrapChunk registry fresh ps)) :
    Origin registry fresh (fun _ => True) ps q := by
  unfold wrapChunk at hq
  split at hq
  · cases hq
  · next first rest hchunk =>
    rw [← hchunk] at hq
    split at hq
    · split at hq
      · next paragraph himplied =>
        simp only [reading_cons, reading_nil, List.append_nil] at hq
        have horigin : Origin registry fresh (fun _ => True) (trimChunk ps) q :=
          origin_implied (.inl rfl) himplied trivial hq
        cases horigin with
        | written hq => exact trimChunk_origin hq
        | text mark words => exact .text mark words
        | implied himplies himplied hfits => exact .implied himplies himplied hfits
      · exact trimChunk_origin hq
    · exact trimChunk_origin hq

theorem insertParagraphs_origin (hq : q ∈ reading (insertParagraphs registry fresh ps)) :
    Origin registry fresh (fun _ => True) ps q := by
  obtain ⟨p, hp, hq⟩ := mem_reading.mp hq
  obtain ⟨chunk, hchunk, hp⟩ := List.mem_flatMap.mp hp
  refine (wrapChunk_origin (mem_reading.mpr ⟨p, hp, hq⟩)).mono (reading_subset fun p hp => ?_)
  have hmem : p ∈ (chunks ps).flatten := List.mem_flatten.mpr ⟨chunk, hchunk, hp⟩
  rw [flatten_chunks] at hmem
  exact List.filter_sublist.subset hmem

-- ----------------------------------------------------------------------------
-- Arguments
-- ----------------------------------------------------------------------------

/-- What may be put into a new macro: all that asks for a container, or anything next to a break. -/
def Wrappable (registry : Registry) (owner : String) (isText : Prop) (content : List (Passage α))
    (members : List (Passage α)) : Prop :=
  content.any isBreak = true ∨ isText ∨ Asking registry owner members

theorem tidyContent_origin {isRoot : Bool} {name : String}
    (hq : q ∈ reading (tidyContent registry fresh owner isRoot name content)) :
    Origin registry fresh (Wrappable registry owner (isRoot ∧ name = "content") content) content q := by
  have hgathered : ∀ q ∈ reading (gather registry fresh owner content),
      Origin registry fresh (Wrappable registry owner (isRoot ∧ name = "content") content) content q := by
    intro q hq
    cases gather_origin hq with
    | written hq => exact .written hq
    | text mark words => exact .text mark words
    | implied himplies himplied hasking => exact .implied himplies himplied (.inr (.inr hasking))
  unfold tidyContent at hq
  simp only at hq
  split at hq
  · next hbreaks =>
    cases insertParagraphs_origin hq with
    | written hq => exact hgathered _ hq
    | text mark words => exact .text mark words
    | implied himplies himplied =>
      exact .implied himplies himplied (hbreaks.imp_right .inl)
  · exact hgathered q hq

-- ----------------------------------------------------------------------------
-- Passages
-- ----------------------------------------------------------------------------

theorem mark_settle (depth : Nat) (isRoot : Bool) (p : Passage α) :
    (p.settle registry fresh depth isRoot).mark = p.mark := by
  cases depth <;> cases p <;> rfl

theorem settle_call (depth : Nat) (isRoot : Bool) (mark : α) (name : String) (synthetic : Bool)
    (slots : List (Slot (Passage α))) :
    settle registry fresh (depth + 1) isRoot (.call mark name synthetic slots) =
      .call mark name synthetic (slots.map fun slot =>
        (slot.tidy registry fresh name isRoot).map (settle registry fresh depth false)) := by
  simp only [settle, tidy, mapContent, List.map_map, Function.comp_def]

/-- What is read in a settled passage below its top has been settled, or is new, or is a text. -/
theorem settle_origin {depth : Nat} {isRoot : Bool}
    (hq : q ∈ (p.settle registry fresh depth isRoot).all) (htext : ∀ mark words, q ≠ .text mark words) :
    q = p.settle registry fresh depth isRoot ∨ q.mark = fresh ∨
      ∃ first ∈ p.all, ∃ depth', q = first.settle registry fresh depth' false := by
  induction depth generalizing p isRoot with
  | zero => exact .inr (.inr ⟨q, hq, 0, rfl⟩)
  | succ depth ih =>
    cases p with
    | call mark name synthetic slots =>
      rw [settle_call, all_eq] at hq
      rw [settle_call]
      refine (List.mem_cons.mp hq).imp_right fun hq => ?_
      obtain ⟨_, htidied, hq⟩ := List.mem_flatMap.mp hq
      obtain ⟨slot, hslot, rfl⟩ := List.mem_map.mp htidied
      obtain ⟨_, hsettled, hq⟩ := List.mem_flatMap.mp hq
      obtain ⟨made, hmade, rfl⟩ := List.mem_map.mp hsettled
      have hbelow : q.mark = fresh ∨
          ∃ first ∈ made.all, ∃ depth', q = first.settle registry fresh depth' false := by
        rcases ih hq with rfl | hnew
        · exact .inr ⟨made, mem_all_self made, depth, rfl⟩
        · exact hnew
      rcases hbelow with hnew | ⟨first, hfirst, depth', rfl⟩
      · exact .inl hnew
      cases tidyContent_origin (mem_reading.mpr ⟨made, hmade, hfirst⟩) with
      | written hwritten =>
        refine .inr ⟨first, ?_, depth', rfl⟩
        rw [all_eq]
        exact List.mem_cons_of_mem _ (List.mem_flatMap.mpr ⟨slot, hslot, hwritten⟩)
      | text mark words => exact absurd (by cases depth' <;> rfl) (htext mark words)
      | implied _ himplied =>
        obtain ⟨d, -, -, rfl⟩ := implied?_eq himplied
        exact .inl (mark_settle ..)
    | _ => exact .inr (.inr ⟨q, hq, 0, rfl⟩)

end Passage

open Assembly (written written_of_lt)

/-- A macro that was written is settled by itself. -/
theorem Tree.SettlesTo.settled_at {registry : Registry} {t u : Tree} (h : t.SettlesTo registry u)
    {x : NodeId} {call : MacroCall} (hx : x < t.size) (hroot : x ≠ u.root) (hreaches : u.Reaches u.root x)
    (hcall : u.call? x = some call) :
    ∃ depth, u.passage (written t) x =
      (t.passage (written t) x).settle registry none depth false := by
  have hlt' := h.root_inside
  obtain ⟨ht, hlt, hu, -, hkept, hpassage⟩ := h
  have hsettled := hpassage (written t) (fun id hid => Assembly.written_of_le hid) (Nat.le_refl _)
  have hx' : x < u.size := Nat.lt_of_lt_of_le hx hkept.size_le
  rw [← hkept.root_eq] at hsettled hlt
  have hmem : u.passage (written t) x ∈ (u.passage (written t) u.root).all := by
    rw [hu.all_passage hlt']
    exact List.mem_map_of_mem (hu.mem_preorder hlt' hreaches)
  have hmark : (u.passage (written t) x).mark = some x := by
    rw [hu.mark_passage hx', written_of_lt hx]
  rw [hsettled] at hmem
  have htext : ∀ mark words, u.passage (written t) x ≠ .text mark words := by
    intro mark words htext
    rw [hu.passage_of_call? hcall] at htext
    cases htext
  rcases Passage.settle_origin hmem htext with htop | hnew | ⟨first, hfirst, depth, heq⟩
  · -- the root is another node
    rw [htop, Passage.mark_settle, ht.mark_passage hlt, written_of_lt hlt] at hmark
    exact absurd (Option.some.inj hmark).symm hroot
  · rw [hnew] at hmark
    cases hmark
  · rw [ht.all_passage hlt] at hfirst
    obtain ⟨y, hy, rfl⟩ := List.mem_map.mp hfirst
    have hy' : y < t.size := ht.lt_of_reaches hlt (ht.reaches_of_mem_preorder hlt hy)
    rw [heq, Passage.mark_settle, ht.mark_passage hy', written_of_lt hy'] at hmark
    obtain rfl := Option.some.inj hmark
    exact ⟨depth, heq⟩

end Macromark
