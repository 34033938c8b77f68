import Macromark.Proofs.Tree.Links
import Mathlib.Data.Finset.Lattice.Fold

/-!
# Recursion over a tree

`Tree.recurse` goes as deep as there are nodes. Where every macro has a rank
above those of its children, no path is longer than that, so that the recursion
is the one without a bound (`Tree.Acyclic.recurse_eq`).
-/

namespace Macromark

def Node.below (node : Node) : List NodeId := (node.call?.map (·.allChildren)).getD []

namespace Tree

variable {α : Type} {t : Tree} {rank : NodeId → Nat} {id owner child : NodeId} {node : Node}

theorem below_of_get? (h : t.get? id = some node) : t.below id = node.below := by
  simp [below, Node.below, call?, h]

/-- Children are nodes of the tree, and of a lower rank than their macro. -/
structure Ranked (t : Tree) (rank : NodeId → Nat) : Prop where
  inside : ∀ {owner child}, child ∈ t.below owner → child < t.size
  lower : ∀ {owner child}, child ∈ t.below owner → rank child < rank owner

/-- A step that only asks what becomes of the children. -/
def LocalStep (step : NodeId → Node → (NodeId → α) → α) : Prop :=
  ∀ id node (f g : NodeId → α), (∀ child ∈ node.below, f child = g child) →
    step id node f = step id node g

/-- The nodes of a lower rank. -/
def lowerThan (t : Tree) (rank : NodeId → Nat) (id : NodeId) : Finset NodeId :=
  (Finset.range t.size).filter (rank · < rank id)

theorem Ranked.card_lowerThan (h : t.Ranked rank) (hchild : child ∈ t.below owner) :
    (t.lowerThan rank child).card < (t.lowerThan rank owner).card := by
  have hlower := h.lower hchild
  refine Finset.card_lt_card (Finset.ssubset_iff_of_subset ?_ |>.mpr ⟨child, ?_, ?_⟩)
  · intro id hid
    simp only [lowerThan, Finset.mem_filter] at hid ⊢
    exact ⟨hid.1, Nat.lt_trans hid.2 hlower⟩
  · simp [lowerThan, h.inside hchild, hlower]
  · simp [lowerThan]

theorem card_lowerThan_lt (rank : NodeId → Nat) (hid : id < t.size) :
    (t.lowerThan rank id).card < t.size := by
  have hsub : t.lowerThan rank id ⊂ Finset.range t.size :=
    Finset.ssubset_iff_of_subset (Finset.filter_subset _ _) |>.mpr
      ⟨id, Finset.mem_range.mpr hid, by simp⟩
  simpa using Finset.card_lt_card hsub

/-- A depth above the number of the nodes of lower rank is as good as any other. -/
theorem Ranked.recurseTo_eq (h : t.Ranked rank) {step : NodeId → Node → (NodeId → α) → α}
    (hstep : LocalStep step) (default : α) {depth depth' : Nat}
    (hdepth : (t.lowerThan rank id).card < depth) (hdepth' : (t.lowerThan rank id).card < depth') :
    t.recurseTo step default depth id = t.recurseTo step default depth' id := by
  induction depth generalizing depth' id with
  | zero => exact absurd hdepth (Nat.not_lt_zero _)
  | succ depth ih =>
    cases depth' with
    | zero => exact absurd hdepth' (Nat.not_lt_zero _)
    | succ depth' =>
      rw [recurseTo, recurseTo]
      cases hnode : t.get? id with
      | none => rfl
      | some node =>
        refine hstep id node _ _ fun child hchild => ?_
        have hcard := h.card_lowerThan (below_of_get? hnode ▸ hchild)
        exact ih (by omega) (by omega)

theorem recurse_of_none {step : NodeId → Node → (NodeId → α) → α} {default : α}
    (hnode : t.get? id = none) : t.recurse step default id = default := by
  unfold recurse
  cases t.size with
  | zero => rfl
  | succ depth => rw [recurseTo, hnode]

/-- None of the nodes reaches another. -/
def Unrelated (t : Tree) (nodes : List NodeId) : Prop :=
  ∀ a ∈ nodes, ∀ b ∈ nodes, t.Reaches a b → a = b

theorem Unrelated.subset {nodes others : List NodeId} (h : t.Unrelated nodes)
    (hsub : others ⊆ nodes) :
    t.Unrelated others := fun a ha b hb => h a (hsub ha) b (hsub hb)

theorem reaches_congr {u : Tree} (h : ∀ id, u.below id = t.below id) : u.Reaches = t.Reaches := by
  unfold Reaches
  simp only [h]

/-- No path goes round in a circle, and none leads out of the tree. -/
def Acyclic (t : Tree) : Prop := ∃ rank, t.Ranked rank

namespace Acyclic

variable (h : t.Acyclic)
include h

theorem inside (hchild : child ∈ t.below owner) : child < t.size := h.choose_spec.inside hchild

theorem recurse_eq {step : NodeId → Node → (NodeId → α) → α} (hstep : LocalStep step) {default : α}
    (hnode : t.get? id = some node) :
    t.recurse step default id = step id node (t.recurse step default) := by
  obtain ⟨rank, hrank⟩ := h
  have hid : id < t.size := lt_size_iff.mpr ⟨node, hnode⟩
  obtain ⟨depth, hdepth⟩ := Nat.exists_eq_add_one.mpr (Nat.zero_lt_of_lt hid)
  have hcard := card_lowerThan_lt rank hid
  rw [recurse, hdepth, recurseTo, hnode]
  refine hstep id node _ _ fun child hchild => ?_
  have hlower := hrank.card_lowerThan (below_of_get? hnode ▸ hchild)
  exact hrank.recurseTo_eq hstep default (by omega) (by omega)

theorem induction {motive : NodeId → Prop}
    (hstep : ∀ id < t.size, (∀ child ∈ t.below id, motive child) → motive id) (hid : id < t.size) :
    motive id := by
  obtain ⟨rank, hrank⟩ := h
  induction heq : rank id using Nat.strong_induction_on generalizing id with
  | h _ ih =>
    exact hstep id hid fun child hchild =>
      ih _ (heq ▸ hrank.lower hchild) (hrank.inside hchild) rfl

/-- Where no macro gets other children, nothing changes. -/
theorem of_below {u : Tree} (hsize : t.size ≤ u.size) (hbelow : ∀ id, u.below id = t.below id) :
    u.Acyclic := by
  obtain ⟨rank, hrank⟩ := h
  refine ⟨rank, fun hchild => ?_, fun hchild => ?_⟩
  · rw [hbelow] at hchild
    exact Nat.lt_of_lt_of_le (hrank.inside hchild) hsize
  · rw [hbelow] at hchild
    exact hrank.lower hchild

/-- A new macro stands above all that is there. -/
theorem of_new {u : Tree} (hsize : t.size < u.size)
    (hbelow : ∀ id < t.size, u.below id = t.below id)
    (hnew : ∀ id, t.size ≤ id → ∀ child ∈ u.below id, id = t.size ∧ child < t.size) :
    u.Acyclic := by
  obtain ⟨rank, hrank⟩ := h
  let above (id : NodeId) : Nat :=
    if id < t.size then rank id else (Finset.range t.size).sup rank + 1
  refine ⟨above, fun {owner child} hchild => ?_, fun {owner child} hchild => ?_⟩
  · by_cases howner : owner < t.size
    · exact Nat.lt_trans (hrank.inside (hbelow owner howner ▸ hchild)) hsize
    · exact Nat.lt_trans (hnew owner (Nat.le_of_not_lt howner) child hchild).2 hsize
  · by_cases howner : owner < t.size
    · rw [hbelow owner howner] at hchild
      simpa [above, howner, hrank.inside hchild] using hrank.lower hchild
    · have hlt := (hnew owner (Nat.le_of_not_lt howner) child hchild).2
      simpa [above, howner, hlt, Nat.lt_succ_iff] using
        Finset.le_sup (f := rank) (Finset.mem_range.mpr hlt)

-- ----------------------------------------------------------------------------
-- What is reached
-- ----------------------------------------------------------------------------

/-- Nothing reaches what it stands in. -/
theorem not_reaches (hchild : child ∈ t.below owner) : ¬ t.Reaches child owner := by
  obtain ⟨rank, hrank⟩ := h
  have hle : ∀ b, t.Reaches child b → rank b ≤ rank child := by
    intro b hb
    induction hb with
    | refl => exact Nat.le_refl _
    | tail _ hstep ih => exact Nat.le_trans (Nat.le_of_lt (hrank.lower hstep)) ih
  exact fun hreaches => Nat.not_lt.mpr (hle owner hreaches) (hrank.lower hchild)

theorem lt_of_reaches {a b : NodeId} (ha : a < t.size) (hb : t.Reaches a b) : b < t.size := by
  cases hb with
  | refl => exact ha
  | tail _ hstep => exact h.inside hstep

theorem unrelated (hlinked : t.Linked) (owner : NodeId) : t.Unrelated (t.below owner) := by
  intro a ha b hb hreaches
  cases hreaches with
  | refl => rfl
  | @tail above _ habove hstep =>
    obtain rfl := Option.some.inj ((hlinked.parent hstep).symm.trans (hlinked.parent hb))
    exact absurd habove (h.not_reaches ha)

/-- What stood in two children of one macro would have two parents. -/
theorem disjoint (hlinked : t.Linked) {a b : NodeId} (ha : a ∈ t.below owner)
    (hb : b ∈ t.below owner)
    (hne : a ≠ b) (haid : t.Reaches a id) : ¬ t.Reaches b id := by
  induction haid with
  | refl => exact fun hba => hne (h.unrelated hlinked owner b hb a ha hba).symm
  | @tail above id habove hstep ih =>
    intro hbid
    cases hbid with
    | refl => exact hne (h.unrelated hlinked owner a ha b hb (habove.tail hstep))
    | @tail other _ hother hstep' =>
      obtain rfl := Option.some.inj ((hlinked.parent hstep').symm.trans (hlinked.parent hstep))
      exact ih hother

/-- The preorder without a bound. -/
theorem preorder_eq (hid : id < t.size) :
    t.preorder id = id :: (t.below id).flatMap t.preorder := by
  obtain ⟨node, hnode⟩ := lt_size_iff.mp hid
  rw [preorder, h.recurse_eq ?_ hnode, below_of_get? hnode]
  · cases hkind : node.kind <;> simp [Node.below, Node.call?, hkind]
    rfl
  · intro id node f g hfg
    cases hkind : node.kind <;> simp [Node.below, Node.call?, hkind] at hfg ⊢
    exact congrArg List.flatten (List.map_congr_left hfg)

/-- Other nodes than those that are reached do not matter. -/
theorem preorder_congr {u : Tree} (hu : u.Acyclic) (hsize : t.size ≤ u.size) (hid : id < t.size)
    (hbelow : ∀ x, t.Reaches id x → u.below x = t.below x) : u.preorder id = t.preorder id := by
  refine h.induction (motive := fun id => (∀ x, t.Reaches id x → u.below x = t.below x) →
    u.preorder id = t.preorder id) (fun id hid ih hbelow => ?_) hid hbelow
  rw [h.preorder_eq hid, hu.preorder_eq (Nat.lt_of_lt_of_le hid hsize), hbelow id .refl]
  refine congrArg (id :: ·) (List.flatMap_congr fun child hchild => ?_)
  exact ih child hchild fun x hx => hbelow x (.head hchild hx)

theorem reaches_of_mem_preorder {a b : NodeId} (ha : a < t.size) (hb : b ∈ t.preorder a) :
    t.Reaches a b := by
  revert hb
  refine h.induction (motive := fun a => b ∈ t.preorder a → t.Reaches a b) (fun a ha ih hb => ?_) ha
  rw [h.preorder_eq ha, List.mem_cons, List.mem_flatMap] at hb
  rcases hb with rfl | ⟨child, hchild, hb⟩
  · exact .refl
  · exact .head hchild (ih child hchild hb)

theorem mem_preorder {a b : NodeId} (ha : a < t.size) (hb : t.Reaches a b) : b ∈ t.preorder a := by
  induction hb using Relation.ReflTransGen.head_induction_on with
  | refl =>
    rw [h.preorder_eq ha]
    exact List.mem_cons_self
  | head hstep _ ih =>
    rw [h.preorder_eq ha]
    exact List.mem_cons_of_mem _ (List.mem_flatMap.mpr ⟨_, hstep, ih (h.inside hstep)⟩)

/-- No node is read twice. -/
theorem nodup_preorder (hlinked : t.Linked) (hid : id < t.size) : (t.preorder id).Nodup := by
  refine h.induction (motive := fun id => (t.preorder id).Nodup) (fun id hid ih => ?_) hid
  rw [h.preorder_eq hid, List.nodup_cons, List.nodup_flatMap]
  refine ⟨fun hmem => ?_, ih, (hlinked.distinct id).imp_of_mem fun {a b} ha hb hne => ?_⟩
  · obtain ⟨child, hchild, hmem⟩ := List.mem_flatMap.mp hmem
    exact h.not_reaches hchild (h.reaches_of_mem_preorder (h.inside hchild) hmem)
  · intro x hxa hxb
    exact h.disjoint hlinked ha hb hne (h.reaches_of_mem_preorder (h.inside ha) hxa)
      (h.reaches_of_mem_preorder (h.inside hb) hxb)

end Acyclic
end Tree
end Macromark
