import Macromark.Proofs.Tree.Rows

/-!
# Two documents side by side

A copy of some passages is the same passages without their marks, in which some
rows may be replaced (`Passage.Copy`). What the parser does with a token is the
same whatever stands in the arguments already: where all that is open in one
state is a copy of what is open in another one, this is still so behind the next
token (`Copied.read`).
-/

namespace Macromark

/-- How a copy may differ: rows that may be replaced, and the places of all that may not. -/
structure Edit (α : Type) where
  swap : List (Passage α) → List (Passage Unit) → Prop
  apart : α → Prop

namespace Passage

variable {α β γ : Type} {e : Edit α} {p : Passage α} {ps ps' : List (Passage α)}
variable {qs qs' : List (Passage Unit)} {slots : List (Slot (Passage α))}
variable {others : List (Slot (Passage Unit))} {fresh : α}

/-- The passage without its mark, over other slots. -/
def rebuild (p : Passage α) (slots : List (Slot (Passage Unit))) : Passage Unit :=
  match p with
  | .text _ words => .text () words
  | .paragraphBreak _ => .paragraphBreak ()
  | .error _ message => .error () message
  | .call _ name synthetic _ => .call () name synthetic slots

mutual
inductive Copy (e : Edit α) : List (Passage α) → List (Passage Unit) → Prop
  | nil : Copy e [] []
  | cons {p : Passage α} {slots : List (Slot (Passage Unit))} {ps : List (Passage α)}
      {qs : List (Passage Unit)} : e.apart p.mark → CopySlots e p.slots slots → Copy e ps qs →
      Copy e (p :: ps) (p.rebuild slots :: qs)
  | swap {row ps : List (Passage α)} {other qs : List (Passage Unit)} : e.swap row other →
      Copy e ps qs → Copy e (row ++ ps) (other ++ qs)
inductive CopySlots (e : Edit α) : List (Slot (Passage α)) → List (Slot (Passage Unit)) → Prop
  | nil : CopySlots e [] []
  | cons {name : String} {supplied : Bool} {content : List (Passage α)}
      {other : List (Passage Unit)} {slots : List (Slot (Passage α))}
      {others : List (Slot (Passage Unit))} : Copy e content other → CopySlots e slots others →
      CopySlots e (⟨name, supplied, content⟩ :: slots) (⟨name, supplied, other⟩ :: others)
end

theorem Copy.append {ps : List (Passage α)} {qs : List (Passage Unit)} (h : Copy e ps qs)
    (h' : Copy e ps' qs') : Copy e (ps ++ ps') (qs ++ qs') := by
  match h with
  | .nil => exact h'
  | .cons hapart hslots hrest => exact .cons hapart hslots (hrest.append h')
  | .swap hswap hrest =>
    rw [List.append_assoc, List.append_assoc]
    exact .swap hswap (hrest.append h')

theorem Copy.text (hfresh : e.apart fresh) (words : String) :
    Copy e [.text fresh words] [.text () words] :=
  .cons (p := .text fresh words) hfresh .nil .nil

theorem Copy.call (hfresh : e.apart fresh) (h : CopySlots e slots others) (name : String)
    (synthetic : Bool) :
    Copy e [.call fresh name synthetic slots] [.call () name synthetic others] :=
  .cons (p := .call fresh name synthetic slots) hfresh h .nil

-- ----------------------------------------------------------------------------
-- The arguments of a macro
-- ----------------------------------------------------------------------------

/-- Two slots next to each other, the second one a copy of the first. -/
structure CopyPair (e : Edit α) (pair : Slot (Passage α) × Slot (Passage Unit)) : Prop where
  name : pair.2.name = pair.1.name
  supplied : pair.2.supplied = pair.1.supplied
  content : Copy e pair.1.content pair.2.content

theorem CopyPair.first {pair : Slot (Passage α) × Slot (Passage Unit)} (h : CopyPair e pair)
    (hrest : CopySlots e slots others) : CopySlots e (pair.1 :: slots) (pair.2 :: others) := by
  obtain ⟨⟨name, supplied, content⟩, ⟨name', supplied', content'⟩⟩ := pair
  obtain ⟨hname, hsupplied, hcontent⟩ := h
  simp only at hname hsupplied hcontent
  subst hname hsupplied
  exact .cons hcontent hrest

theorem copySlots_iff : CopySlots e slots others ↔
    ∃ pairs : List (Slot (Passage α) × Slot (Passage Unit)), (∀ pair ∈ pairs, CopyPair e pair) ∧
      pairs.map (·.1) = slots ∧ pairs.map (·.2) = others := by
  constructor
  · intro h
    induction slots generalizing others with
    | nil =>
      cases h
      exact ⟨[], by simp, rfl, rfl⟩
    | cons slot slots ih =>
      cases h with
      | cons hcontent hrest =>
        obtain ⟨pairs, hpairs, rfl, rfl⟩ := ih hrest
        exact ⟨(⟨_, _, _⟩, ⟨_, _, _⟩) :: pairs,
          List.forall_mem_cons.mpr ⟨⟨rfl, rfl, hcontent⟩, hpairs⟩, rfl, rfl⟩
  · rintro ⟨pairs, hpairs, rfl, rfl⟩
    induction pairs with
    | nil => exact .nil
    | cons pair pairs ih =>
      obtain ⟨hpair, hrest⟩ := List.forall_mem_cons.mp hpairs
      exact hpair.first (ih hrest)

/-- A slot is taken out of two lists at the same place. -/
theorem takeSlot_pairs (name : String) {pairs : List (Slot β × Slot γ)}
    (hnames : ∀ pair ∈ pairs, pair.2.name = pair.1.name) :
    (takeSlot name (pairs.map (·.1)) = none ∧ takeSlot name (pairs.map (·.2)) = none) ∨
      ∃ pair rest, takeSlot name (pairs.map (·.1)) = some (pair.1, rest.map (·.1)) ∧
        takeSlot name (pairs.map (·.2)) = some (pair.2, rest.map (·.2)) ∧ pair :: rest ⊆ pairs := by
  have hindex : (pairs.map (·.2)).findIdx? (·.name == name) =
      (pairs.map (·.1)).findIdx? (·.name == name) := by
    have hmap : (pairs.map (·.2)).map (·.name) = (pairs.map (·.1)).map (·.name) := by
      simpa using hnames
    have hname : ∀ {δ : Type} (slots : List (Slot δ)),
        slots.findIdx? (·.name == name) = (slots.map (·.name)).findIdx? (· == name) := by
      intro δ slots
      rw [List.findIdx?_map]
      rfl
    rw [hname, hname, hmap]
  unfold takeSlot
  rw [hindex, List.getLast?_map, List.getLast?_map]
  cases (pairs.map (·.1)).findIdx? (·.name == name) with
  | none => exact .inl ⟨rfl, rfl⟩
  | some i =>
    cases hlast : pairs.getLast? with
    | none => exact .inl ⟨rfl, rfl⟩
    | some last =>
      simp only [Option.map_some, List.getElem?_map]
      cases hi : pairs[i]? with
      | none => exact .inl ⟨rfl, rfl⟩
      | some pair =>
        refine .inr ⟨pair, (pairs.set i last).dropLast, ?_, ?_, ?_⟩
        · simp [List.map_set, List.map_dropLast]
        · simp [List.map_set, List.map_dropLast]
        · refine List.cons_subset.mpr ⟨List.mem_of_getElem? hi, fun other hother => ?_⟩
          rcases List.mem_or_eq_of_mem_set (List.mem_of_mem_dropLast hother) with hother | rfl
          · exact hother
          · exact List.mem_of_getLast? hlast

/-- Also what the author left out. -/
theorem CopySlots.fill (hfresh : e.apart fresh) (names : List String)
    (h : CopySlots e slots others) :
    CopySlots e (fillSlots fresh names slots) (fillSlots () names others) := by
  obtain ⟨pairs, hpairs, rfl, rfl⟩ := copySlots_iff.mp h
  clear h
  induction names generalizing pairs with
  | nil => exact .nil
  | cons name names ih =>
    unfold fillSlots
    rcases takeSlot_pairs name (fun pair hpair => (hpairs pair hpair).name) with ⟨hleft, hright⟩ |
      ⟨pair, rest, hleft, hright, hsub⟩
    · rw [hleft, hright]
      exact .cons (.text hfresh "") (ih pairs hpairs)
    · rw [hleft, hright]
      exact (hpairs pair (hsub List.mem_cons_self)).first
        (ih rest fun other hother => hpairs other (hsub (List.mem_cons_of_mem _ hother)))

-- ----------------------------------------------------------------------------
-- Where nothing is replaced
-- ----------------------------------------------------------------------------

def unmarked (p : Passage α) : Passage Unit :=
  match p with
  | .text _ words => .text () words
  | .paragraphBreak _ => .paragraphBreak ()
  | .error _ message => .error () message
  | .call _ name synthetic slots =>
    .call () name synthetic
      (slots.map fun slot => ⟨slot.name, slot.supplied, slot.content.map unmarked⟩)
termination_by sizeOf p
decreasing_by
  rename_i hslot _ hp
  exact sizeOf_lt_of_slot hslot hp ..

theorem unmarked_eq (p : Passage α) : p.unmarked = p.rebuild (p.slots.map (·.map unmarked)) := by
  cases p <;> rw [unmarked] <;> rfl

/-- Nothing in a passage is marked as `within`. -/
def Outside (within : α → Prop) (p : Passage α) : Prop := ∀ q ∈ p.all, ¬ within q.mark

variable {within : α → Prop}

theorem Outside.mark (h : p.Outside within) : ¬ within p.mark :=
  h p (by rw [all_eq]; exact List.mem_cons_self)

theorem Outside.slot {slot : Slot (Passage α)} (h : p.Outside within) (hslot : slot ∈ p.slots)
    {q : Passage α} (hq : q ∈ slot.content) : q.Outside within := by
  intro r hr
  refine h r ?_
  rw [all_eq]
  exact List.mem_cons_of_mem _
    (List.mem_flatMap.mpr ⟨slot, hslot, List.mem_flatMap.mpr ⟨q, hq, hr⟩⟩)

mutual
/-- Where no row can be replaced, a copy is the same without its marks. -/
theorem Copy.eq_unmarked {ps : List (Passage α)} {qs : List (Passage Unit)}
    (hswap : ∀ row other, e.swap row other → ∃ p ∈ row, within p.mark) (h : Copy e ps qs)
    (houtside : ∀ p ∈ ps, p.Outside within) : qs = ps.map unmarked := by
  match h with
  | .nil => rfl
  | .cons (p := p) hapart hslots hrest =>
    obtain ⟨hp, hps⟩ := List.forall_mem_cons.mp houtside
    rw [List.map_cons, unmarked_eq, hrest.eq_unmarked hswap hps,
      hslots.eq_unmarked hswap fun slot hslot q hq => hp.slot hslot hq]
  | .swap hrow hrest =>
    obtain ⟨p, hp, hwithin⟩ := hswap _ _ hrow
    exact absurd hwithin (houtside p (List.mem_append_left _ hp)).mark
theorem CopySlots.eq_unmarked {slots : List (Slot (Passage α))}
    {others : List (Slot (Passage Unit))}
    (hswap : ∀ row other, e.swap row other → ∃ p ∈ row, within p.mark)
    (h : CopySlots e slots others)
    (houtside : ∀ slot ∈ slots, ∀ p ∈ slot.content, p.Outside within) :
    others = slots.map (·.map unmarked) := by
  match h with
  | .nil => rfl
  | .cons hcontent hrest =>
    obtain ⟨hslot, hslots⟩ := List.forall_mem_cons.mp houtside
    rw [List.map_cons, hrest.eq_unmarked hswap hslots, hcontent.eq_unmarked hswap hslot]
    rfl
end

/-- What is in no row that can be replaced is apart, and copied with all that stands in it. -/
theorem Copy.mem {ps : List (Passage α)} {qs : List (Passage Unit)} (h : Copy e ps qs) :
    ∀ p ∈ ps, (e.apart p.mark ∧ ∃ slots, CopySlots e p.slots slots) ∨
      ∃ row other, e.swap row other ∧ p ∈ row := by
  match h with
  | .nil => simp
  | .cons hapart hslots hrest => exact List.forall_mem_cons.mpr ⟨.inl ⟨hapart, _, hslots⟩, hrest.mem⟩
  | .swap hrow hrest =>
    intro p hp
    rcases List.mem_append.mp hp with hp | hp
    · exact .inr ⟨_, _, hrow, hp⟩
    · exact hrest.mem p hp

/-- A macro with nothing but its content, as the parser makes it. -/
def enclosing (name : String) (d : MacroDef) (content : List (Passage Unit)) : Passage Unit :=
  .call () name false (fillSlots () d.argumentNames [⟨"content", true, content⟩])

end Passage

/-- The row `members` is replaced by a macro that holds it, and nothing else is `within`. -/
def Edit.enclosing {α : Type} (within : α → Prop) (members : List (Passage α)) (name : String)
    (d : MacroDef) : Edit α where
  swap row other := row = members ∧ other = [Passage.enclosing name d (members.map Passage.unmarked)]
  apart mark := ¬ within mark

/-- Without its marks a passage is what is read at the node. -/
theorem Tree.Acyclic.unmarked_marked {α : Type} {t : Tree} (h : t.Acyclic) (f : Position → α)
    {id : NodeId} (hid : id < t.size) : (t.marked f id).unmarked = t.bare id := by
  refine h.induction (motive := fun id => (t.marked f id).unmarked = t.bare id)
    (fun id hid ih => ?_) hid
  obtain ⟨kind, hface⟩ := Tree.exists_face? hid
  rw [Tree.marked, h.passage_eq hface, h.bare_eq hface, Passage.unmarked_eq]
  cases kind with
  | call call =>
    simp only [NodeKind.passage, Passage.slots, Passage.rebuild, List.map_map]
    refine congrArg _ (List.map_congr_left fun argument hargument => ?_)
    refine congrArg (Slot.mk _ _) ?_
    simp only [Argument.slot, List.map_map]
    refine List.map_congr_left fun child hchild => ih child ?_
    rw [Tree.below_of_face? hface]
    exact List.mem_flatMap.mpr ⟨argument, hargument, hchild⟩
  | _ => rfl

end Macromark
