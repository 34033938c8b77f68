import Macromark.Proofs.Assembly.Enclosing
import Macromark.Proofs.Tree.Copies

/-!
# A row in a span of the source

Where a row of macros is all that stands in a span of the source, a copy of the
document in which the row is replaced by its container is the document with that
container written around the row (`HoldsRow.enclosed`).
-/

namespace Macromark
namespace Passage

variable {α : Type} {registry : Registry} {within : α → Prop} {container owner : String}
variable {d : MacroDef} {e : Edit α} {p : Passage α} {ps front row back members : List (Passage α)}
variable {qs : List (Passage Unit)}

@[simp] theorem isBlank_unmarked : p.unmarked.isBlank = p.isBlank := by
  cases p <;> rw [unmarked] <;> rfl

@[simp] theorem container?_unmarked :
    p.unmarked.container? registry owner = p.container? registry owner := by
  cases p <;> rw [unmarked] <;> rfl

/-- Some argument holds a row of macros that ask for `container`. The members of the row stand
`within` a span, and nothing else does. Beside the row nothing asks for what `container` is put into
itself. `owner` is the macro that the passages stand in. -/
inductive HoldsRow (registry : Registry) (within : α → Prop) (container : String) :
    String → List (Passage α) → Prop
  | here {owner : String} {front row back : List (Passage α)} :
      Run registry owner container front row back →
      (∀ outer, container? registry owner (.call () container false []) = some outer →
        Aside registry owner outer front back) →
      (∀ p ∈ row, within p.mark) → (∀ p ∈ front ++ back, p.Outside within) →
      HoldsRow registry within container owner (front ++ row ++ back)
  | inside {owner name argument : String} {mark : α} {synthetic supplied : Bool}
      {before after : List (Slot (Passage α))} {front content back : List (Passage α)} :
      ¬ within mark → HoldsRow registry within container name content →
      (∀ slot ∈ before ++ after, ∀ p ∈ slot.content, p.Outside within) →
      (∀ p ∈ front ++ back, p.Outside within) →
      HoldsRow registry within container owner
        (front ++ .call mark name synthetic (before ++ ⟨argument, supplied, content⟩ :: after) :: back)

/-- No macro that asks for a container stands twice in these passages, nor in an argument there. -/
structure Distinct (registry : Registry) (ps : List (Passage α)) : Prop where
  row : ps.Pairwise fun p q => p = q → ∀ owner, p.container? registry owner = none
  below : ∀ p ∈ ps.flatMap all, ∀ slot ∈ p.slots,
    slot.content.Pairwise fun p q => p = q → ∀ owner, p.container? registry owner = none

theorem Distinct.slot (h : Distinct registry ps) (hp : p ∈ ps) {slot : Slot (Passage α)}
    (hslot : slot ∈ p.slots) : Distinct registry slot.content := by
  refine ⟨h.below p ?_ slot hslot, fun q hq => h.below q ?_⟩
  · exact List.mem_flatMap.mpr ⟨p, hp, by rw [all_eq]; exact List.mem_cons_self⟩
  · refine List.mem_flatMap.mpr ⟨p, hp, ?_⟩
    rw [all_eq]
    exact List.mem_cons_of_mem _ (List.mem_flatMap.mpr ⟨slot, hslot, hq⟩)

-- ----------------------------------------------------------------------------
-- What a copy looks like
-- ----------------------------------------------------------------------------

theorem HoldsRow.members_ne_nil (h : HoldsRow registry within container owner ps)
    (hcopy : Copy (.enclosing within members container d) ps qs) : members ≠ [] := by
  rintro rfl
  have hmem : ∀ {ps : List (Passage α)} {qs : List (Passage Unit)},
      Copy (.enclosing within [] container d) ps qs → ∀ p ∈ ps,
        ¬ within p.mark ∧ ∃ slots, CopySlots (.enclosing within [] container d) p.slots slots := by
    intro ps qs hcopy p hp
    refine (hcopy.mem p hp).resolve_right ?_
    rintro ⟨row, other, ⟨rfl, -⟩, hp⟩
    simp at hp
  induction h generalizing qs with
  | here hrow _ hwithin _ =>
    obtain ⟨first, middle, last, rfl, -⟩ := hrow.ends
    exact (hmem hcopy first (by simp)).1 (hwithin first (by simp))
  | @inside owner name argument mark synthetic supplied before after front content back hmark _ _ _ ih =>
    obtain ⟨-, slots, hslots⟩ := hmem hcopy _ (List.mem_append_right front List.mem_cons_self)
    obtain ⟨pairs, hpairs, hfirst, -⟩ := copySlots_iff.mp hslots
    have hslot : ⟨argument, supplied, content⟩ ∈ pairs.map (·.1) :=
      hfirst ▸ List.mem_append_right before List.mem_cons_self
    obtain ⟨pair, hpair, heq⟩ := List.mem_map.mp hslot
    have hcontent := (hpairs pair hpair).content
    rw [heq] at hcontent
    exact ih hcontent

section Inversion

variable (hne : members ≠ []) (hmembers : ∀ p ∈ members, within p.mark)
include hne hmembers

theorem enclosing_within (row : List (Passage α)) (other : List (Passage Unit))
    (hrow : (Edit.enclosing within members container d).swap row other) :
    ∃ p ∈ row, within p.mark := by
  obtain ⟨p, hp⟩ := List.exists_mem_of_ne_nil members hne
  exact ⟨p, hrow.1 ▸ hp, hmembers p hp⟩

/-- A passage is copied, or it is the first one of the row that is replaced. -/
theorem Copy.of_cons (h : Copy (.enclosing within members container d) (p :: ps) qs) :
    (¬ within p.mark ∧ ∃ slots qs', qs = p.rebuild slots :: qs' ∧
        CopySlots (.enclosing within members container d) p.slots slots ∧
        Copy (.enclosing within members container d) ps qs') ∨
      within p.mark ∧ ∃ rest qs', p :: ps = members ++ rest ∧
        qs = enclosing container d (members.map unmarked) :: qs' ∧
        Copy (.enclosing within members container d) rest qs' := by
  generalize hlist : p :: ps = list at h
  cases h with
  | nil => simp at hlist
  | cons hapart hslots hrest =>
    obtain ⟨rfl, rfl⟩ := List.cons.inj hlist
    exact .inl ⟨hapart, _, _, rfl, hslots, hrest⟩
  | swap hrow hrest =>
    obtain ⟨rfl, rfl⟩ := hrow
    obtain ⟨first, others, rfl⟩ := List.exists_cons_of_ne_nil hne
    obtain ⟨rfl, -⟩ := List.cons.inj hlist
    exact .inr ⟨hmembers p List.mem_cons_self, _, _, rfl, rfl, hrest⟩

theorem Copy.of_append (h : Copy (.enclosing within members container d) (front ++ ps) qs)
    (houtside : ∀ p ∈ front, p.Outside within) :
    ∃ qs', qs = front.map unmarked ++ qs' ∧
      Copy (.enclosing within members container d) ps qs' := by
  induction front generalizing qs with
  | nil => exact ⟨qs, rfl, h⟩
  | cons p front ih =>
    obtain ⟨hp, hfront⟩ := List.forall_mem_cons.mp houtside
    rcases h.of_cons hne hmembers with ⟨-, slots, qs', rfl, hslots, hrest⟩ | ⟨hwithin, -⟩
    · obtain ⟨qs', rfl, hps⟩ := ih hrest hfront
      refine ⟨qs', ?_, hps⟩
      rw [List.map_cons, unmarked_eq, hslots.eq_unmarked (enclosing_within hne hmembers)
        fun slot hslot q hq => hp.slot hslot hq]
      rfl
    · exact absurd hwithin hp.mark

theorem CopySlots.of_append {before slots : List (Slot (Passage α))}
    {others : List (Slot (Passage Unit))}
    (h : CopySlots (.enclosing within members container d) (before ++ slots) others)
    (houtside : ∀ slot ∈ before, ∀ p ∈ slot.content, p.Outside within) :
    ∃ rest, others = before.map (·.map unmarked) ++ rest ∧
      CopySlots (.enclosing within members container d) slots rest := by
  induction before generalizing others with
  | nil => exact ⟨others, rfl, h⟩
  | cons slot before ih =>
    obtain ⟨hslot, hbefore⟩ := List.forall_mem_cons.mp houtside
    cases h with
    | cons hcontent hrest =>
      obtain ⟨rest, rfl, hslots⟩ := ih hrest hbefore
      refine ⟨rest, ?_, hslots⟩
      rw [hcontent.eq_unmarked (enclosing_within hne hmembers) hslot]
      rfl

/-- The row that is replaced is all that stands within the span. -/
theorem Copy.of_row (h : Copy (.enclosing within members container d) (p :: row ++ back) qs)
    (honce : p ∉ row) (hwithin : ∀ q ∈ p :: row, within q.mark)
    (hback : ∀ q ∈ back, q.Outside within) :
    p :: row = members ∧ qs = enclosing container d ((p :: row).map unmarked) :: back.map unmarked := by
  rcases h.of_cons hne hmembers with ⟨hp, -⟩ | ⟨-, rest, qs', hsplit, rfl, hrest⟩
  · exact absurd (hwithin p List.mem_cons_self) hp
  suffices hrow : p :: row = members ∧ rest = back by
    obtain ⟨rfl, rfl⟩ := hrow
    exact ⟨rfl, by rw [hrest.eq_unmarked (enclosing_within hne hmembers) hback]⟩
  have hsplit : p :: row ++ back = members ++ rest := hsplit
  rcases List.append_eq_append_iff.mp hsplit with ⟨more, hmore, hbehind⟩ | ⟨more, hmore, hbehind⟩
  · cases more with
    | nil => exact ⟨by simpa using hmore.symm, by simpa using hbehind.symm⟩
    | cons q more =>
      exact absurd (hmembers q (by simp [hmore])) (hback q (by simp [hbehind])).mark
  · cases more with
    | nil => exact ⟨by simpa using hmore, by simpa using hbehind⟩
    | cons q more =>
      -- the row would begin once more behind its end
      rw [hbehind, List.cons_append] at hrest
      rcases hrest.of_cons hne hmembers with ⟨hq, -⟩ | ⟨-, rest', -, hagain, -⟩
      · exact absurd (hwithin q (by simp [hmore])) hq
      · obtain ⟨first, others, rfl⟩ := List.exists_cons_of_ne_nil hne
        obtain ⟨rfl, hothers⟩ := List.cons.inj hmore
        obtain ⟨rfl, -⟩ := List.cons.inj hagain
        exact absurd (by simp [hothers]) honce

end Inversion

theorem fillSlots_content (fresh : α) (names : List String) (hne : ps ≠ []) :
    fillSlots fresh names [⟨"content", true, ps⟩] = impliedSlots fresh names (some ps) ∧
      fillSlots fresh names [] = impliedSlots fresh names none := by
  obtain ⟨p, ps, rfl⟩ := List.exists_cons_of_ne_nil hne
  induction names with
  | nil => exact ⟨rfl, rfl⟩
  | cons name names ih =>
    simp only [fillSlots, impliedSlots]
    by_cases hname : name = "content"
    · simp [takeSlot, hname, ih.2]
    · simp [takeSlot, hname, Ne.symm hname, ih.1, ih.2]

theorem enclosing_eq (content : List (Passage Unit)) (hne : content ≠ []) :
    enclosing container d content = callWith () d container false content := by
  rw [enclosing, (fillSlots_content () d.argumentNames hne).1]
  rfl

-- ----------------------------------------------------------------------------
-- The document around the row
-- ----------------------------------------------------------------------------

/-- A copy in which the container stands in place of the row is the document with the container
written around it. -/
theorem HoldsRow.enclosed (h : HoldsRow registry within container owner ps)
    (hcopy : Copy (.enclosing within members container d) ps qs)
    (hget : registry.get? container = some d) (hnames : "content" ∈ d.argumentNames)
    (hmembers : ∀ p ∈ members, within p.mark) (hdistinct : Distinct registry ps)
    (synthetic : Bool) (before after : List (Slot (Passage Unit))) (argument : String)
    (supplied : Bool) :
    Enclosed registry ()
      (.call () owner synthetic (before ++ ⟨argument, supplied, ps.map unmarked⟩ :: after))
      (.call () owner synthetic (before ++ ⟨argument, supplied, qs⟩ :: after)) := by
  have hne : members ≠ [] := h.members_ne_nil hcopy
  induction h generalizing qs synthetic before after argument supplied with
  | @here owner front row back hrow houter hwithin houtside =>
    obtain ⟨first, middle, last, rfl, hfirst, -⟩ := id hrow.ends
    have hrun := hrow.map (f := unmarked) (fun _ => isBlank_unmarked) (fun _ => container?_unmarked)
    have honce : first ∉ middle ++ [last] := by
      intro hagain
      have hpairs := (List.pairwise_append.mp (List.pairwise_append.mp hdistinct.row).1).2.1
      have hnone := List.rel_of_pairwise_cons hpairs hagain rfl owner
      rw [hfirst] at hnone
      simp at hnone
    rw [List.append_assoc] at hcopy
    obtain ⟨qs', rfl, hrest⟩ := hcopy.of_append hne hmembers
      fun p hp => houtside p (List.mem_append_left _ hp)
    obtain ⟨-, rfl⟩ := hrest.of_row hne hmembers honce hwithin
      fun p hp => houtside p (List.mem_append_right _ hp)
    rw [enclosing_eq _ (by simp), List.map_append, List.map_append]
    refine .row hrun hget hnames fun outer houter' => ?_
    exact (houter outer houter').map (fun _ => isBlank_unmarked) fun _ => container?_unmarked
  | @inside owner name argument' mark synthetic' supplied' before' after' front content back
      hmark _ hslots houtside ih =>
    obtain ⟨qs', rfl, hbehind⟩ := hcopy.of_append hne hmembers
      fun p hp => houtside p (List.mem_append_left _ hp)
    rcases hbehind.of_cons hne hmembers with ⟨-, slots, qs'', rfl, hslots', hback⟩ | ⟨hwithin, -⟩
    · obtain ⟨rest, rfl, hrest⟩ := CopySlots.of_append hne hmembers hslots'
        fun slot hslot => hslots slot (List.mem_append_left _ hslot)
      cases hrest with
      | cons hcontent hafter =>
        rw [hback.eq_unmarked (enclosing_within hne hmembers)
          fun p hp => houtside p (List.mem_append_right _ hp)]
        rw [hafter.eq_unmarked (enclosing_within hne hmembers)
          fun slot hslot => hslots slot (List.mem_append_right _ hslot)]
        rw [List.map_append, List.map_cons, unmarked_eq, slots, List.map_append, List.map_cons]
        refine .inside (ih hcontent ?_ _ _ _ _ _)
        exact hdistinct.slot (List.mem_append_right _ List.mem_cons_self)
          (List.mem_append_right _ List.mem_cons_self)
    · exact absurd hwithin hmark

end Passage
end Macromark
