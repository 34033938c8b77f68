import Macromark.Tree
import Mathlib.Data.List.Perm.Subperm
import Mathlib.Logic.Relation

/-!
# Children and parents

A tree keeps both the children of a macro and the parent of every node. Where
the two agree (`Tree.Linked`) and the root has no parent, what is reached from
the root is a tree: the nodes above a node are no more than there are nodes, so
that `Tree.ancestors` and `Tree.preorder` see all of them (`mem_preorder_iff`,
`mem_ancestors_iff`).
-/

namespace Macromark.Tree

def below (t : Tree) (owner : NodeId) : List NodeId :=
  ((t.call? owner).map (·.allChildren)).getD []

def parent? (t : Tree) (id : NodeId) : Option NodeId := (t.get? id).bind (·.parent)

structure Linked (t : Tree) : Prop where
  parent : ∀ {owner child}, child ∈ t.below owner → t.parent? child = some owner
  distinct : ∀ owner, (t.below owner).Nodup
  inside : ∀ {child owner}, t.parent? child = some owner → owner < t.size

/-- A tree whose root stands in nothing. -/
structure Rooted (t : Tree) : Prop extends Linked t where
  root_lt : t.root < t.size
  top : t.parent? t.root = none

def Reaches (t : Tree) : NodeId → NodeId → Prop :=
  Relation.ReflTransGen fun owner child => child ∈ t.below owner

variable {t : Tree} {a b id child owner : NodeId} {above : List NodeId} {n depth : Nat}

theorem lt_size_iff : id < t.size ↔ ∃ node, t.get? id = some node := by
  simp [get?, size, Array.getElem?_eq_some_iff]

theorem isEmpty_of_lt (h : id < t.size) : t.isEmpty = false := by
  have hpositive : 0 < t.nodes.size := Nat.lt_of_le_of_lt (Nat.zero_le _) h
  simpa [isEmpty, Array.isEmpty_iff_size_eq_zero] using Nat.ne_of_gt hpositive

theorem get?_eq_none (h : t.size ≤ id) : t.get? id = none := Array.getElem?_eq_none h

theorem call?_eq_none (h : t.size ≤ id) : t.call? id = none := by
  simp [call?, get?_eq_none h]

theorem lt_of_parent? (h : t.parent? child = some owner) : child < t.size := by
  obtain ⟨node, hnode, -⟩ := Option.bind_eq_some_iff.mp h
  exact lt_size_iff.mpr ⟨node, hnode⟩

theorem lt_of_call? {call : MacroCall} (h : t.call? id = some call) : id < t.size := by
  obtain ⟨node, hnode, -⟩ := Option.bind_eq_some_iff.mp h
  exact lt_size_iff.mpr ⟨node, hnode⟩

theorem mem_below : child ∈ t.below owner ↔
    ∃ call, t.call? owner = some call ∧ child ∈ call.allChildren := by
  unfold below
  cases t.call? owner <;> simp

theorem below_of_call? {call : MacroCall} (h : t.call? owner = some call) :
    t.below owner = call.allChildren := by
  simp [below, h]

theorem mem_below_of_argument {call : MacroCall} {argument : Argument}
    (h : t.call? owner = some call) (hargument : argument ∈ call.arguments)
    (hchild : child ∈ argument.children) : child ∈ t.below owner := by
  rw [below_of_call? h]
  exact List.mem_flatMap.mpr ⟨argument, hargument, hchild⟩

theorem Linked.lt_of_below (h : t.Linked) (hchild : child ∈ t.below owner) : child < t.size :=
  lt_of_parent? (h.parent hchild)

-- ----------------------------------------------------------------------------
-- The nodes above a node
-- ----------------------------------------------------------------------------

/-- The nodes above a node up to one without a parent, nearest first. -/
inductive Lineage (t : Tree) : NodeId → List NodeId → Prop
  | top {id : NodeId} : t.parent? id = none → Lineage t id []
  | under {id owner : NodeId} {above : List NodeId} : t.parent? id = some owner →
      Lineage t owner above → Lineage t id (owner :: above)

theorem Lineage.unique {other : List NodeId} (h : t.Lineage id above)
    (h' : t.Lineage id other) : above = other := by
  induction h generalizing other with
  | top hnone =>
    cases h' with
    | top => rfl
    | under hsome => simp [hnone] at hsome
  | under hsome _ ih =>
    cases h' with
    | top hnone => simp [hnone] at hsome
    | under hsome' h' =>
      obtain rfl := Option.some.inj (hsome.symm.trans hsome')
      rw [ih h']

theorem Lineage.suffix (h : t.Lineage id above) (ha : a ∈ above) :
    ∃ rest, t.Lineage a rest ∧ rest.length < above.length := by
  induction h with
  | top => simp at ha
  | @under _ owner above _ howner ih =>
    rcases List.mem_cons.mp ha with rfl | ha
    · exact ⟨above, howner, by simp⟩
    · obtain ⟨rest, hrest, hlt⟩ := ih ha
      exact ⟨rest, hrest, by rw [List.length_cons]; omega⟩

/-- A node that stood above itself would have two lineages. -/
theorem Lineage.nodup (h : t.Lineage id above) : (id :: above).Nodup := by
  induction h with
  | top => simp
  | @under id owner above hsome howner ih =>
    refine List.nodup_cons.mpr ⟨fun hid => ?_, ih⟩
    have hself : t.Lineage id (owner :: above) := .under hsome howner
    obtain ⟨rest, hrest, hlt⟩ := hself.suffix hid
    rw [hrest.unique hself] at hlt
    exact Nat.lt_irrefl _ hlt

theorem Lineage.length_lt (h : t.Lineage id above) (hlinked : t.Linked) (hid : id < t.size) :
    above.length < t.size := by
  have hinside : ∀ node ∈ id :: above, node < t.size := by
    induction h with
    | top => simpa using hid
    | under hsome _ ih => simpa [hid] using ih (hlinked.inside hsome)
  have hsub := List.subperm_of_subset h.nodup
    fun node hnode => List.mem_range.mpr (hinside node hnode)
  have hlength := hsub.length_le
  rwa [List.length_cons, List.length_range] at hlength

theorem Lineage.ancestors_go (h : t.Lineage id above) (hdepth : above.length ≤ depth) :
    ancestors.go t depth id = above := by
  induction h generalizing depth with
  | top hnone =>
    cases depth with
    | zero => rfl
    | succ depth => rw [ancestors.go, ← parent?, hnone]
  | under hsome _ ih =>
    cases depth with
    | zero => simp at hdepth
    | succ depth =>
      rw [ancestors.go, ← parent?, hsome]
      simp only [ih (Nat.le_of_succ_le_succ hdepth)]

/-- The depth of `Tree.ancestors` cuts nothing off. -/
theorem Lineage.ancestors (h : t.Lineage id above) (hlinked : t.Linked) (hid : id < t.size) :
    t.ancestors id = above :=
  h.ancestors_go (Nat.le_of_lt (h.length_lt hlinked hid))

-- ----------------------------------------------------------------------------
-- What is reached
-- ----------------------------------------------------------------------------

theorem Reaches.lt (hlinked : t.Linked) (h : t.Reaches a b) (ha : a < t.size) : b < t.size := by
  cases h with
  | refl => exact ha
  | tail _ hb => exact hlinked.lt_of_below hb

/-- A node that is reached from the root has a lineage that ends there. -/
theorem Rooted.lineage (h : t.Rooted) (hb : t.Reaches t.root b) :
    ∃ above, t.Lineage b above ∧ ∀ a, a ∈ above ↔ t.Reaches t.root a ∧ t.Reaches a b ∧ a ≠ b := by
  induction hb with
  | refl =>
    refine ⟨[], .top h.top, ?_⟩
    simp only [List.not_mem_nil, false_iff, not_and]
    intro a _ ha hne
    cases ha with
    | refl => exact hne rfl
    | tail _ hroot => simpa [h.top] using h.parent hroot
  | @tail owner b howner hb ih =>
    obtain ⟨above, habove, hmem⟩ := ih
    have hlineage : t.Lineage b (owner :: above) := .under (h.parent hb) habove
    refine ⟨owner :: above, hlineage, fun a => ?_⟩
    have hnodup := (List.nodup_cons.mp hlineage.nodup).1
    constructor
    · intro ha
      have hne : a ≠ b := fun hab => hnodup (hab ▸ ha)
      rcases List.mem_cons.mp ha with rfl | ha
      · exact ⟨howner, .single hb, hne⟩
      · obtain ⟨hroot, ha, -⟩ := (hmem a).mp ha
        exact ⟨hroot, ha.tail hb, hne⟩
    · rintro ⟨hroot, ha, hne⟩
      cases ha with
      | refl => exact absurd rfl hne
      | @tail other _ ha hother =>
        obtain rfl := Option.some.inj ((h.parent hother).symm.trans (h.parent hb))
        by_cases hao : a = other
        · exact hao ▸ List.mem_cons_self
        · exact List.mem_cons_of_mem _ ((hmem a).mpr ⟨hroot, ha, hao⟩)

/-- One node stands `n` levels below the other. -/
inductive Down (t : Tree) : Nat → NodeId → NodeId → Prop
  | here {a : NodeId} : Down t 0 a a
  | step {n : Nat} {a b child : NodeId} : child ∈ t.below a → Down t n child b →
      Down t (n + 1) a b

theorem reaches_iff : t.Reaches a b ↔ ∃ n, t.Down n a b := by
  constructor
  · intro h
    induction h using Relation.ReflTransGen.head_induction_on with
    | refl => exact ⟨0, .here⟩
    | head hstep _ ih =>
      obtain ⟨n, hdown⟩ := ih
      exact ⟨n + 1, .step hstep hdown⟩
  · rintro ⟨n, hdown⟩
    induction hdown with
    | here => exact .refl
    | step hstep _ ih => exact .head hstep ih

theorem Down.lineage (h : t.Down n a b) (hlinked : t.Linked) (ha : t.Lineage a above) :
    ∃ between, t.Lineage b (between ++ above) ∧ between.length = n := by
  induction h generalizing above with
  | here => exact ⟨[], ha, rfl⟩
  | @step n a b child hstep _ ih =>
    obtain ⟨between, hb, hlength⟩ := ih (.under (hlinked.parent hstep) ha)
    exact ⟨between ++ [a], by simpa using hb, by simpa using hlength⟩

def preorderTo (t : Tree) : Nat → NodeId → List NodeId :=
  t.recurseTo (fun id node below =>
    match node.kind with
    | .call call => id :: call.allChildren.flatMap below
    | _ => [id]) []

theorem preorderTo_succ (ha : a < t.size) :
    t.preorderTo (depth + 1) a = a :: (t.below a).flatMap (t.preorderTo depth) := by
  obtain ⟨node, hnode⟩ := lt_size_iff.mp ha
  unfold preorderTo
  cases hkind : node.kind <;> simp [recurseTo, below, call?, Node.call?, hnode, hkind]

theorem mem_preorderTo (hlinked : t.Linked) (ha : a < t.size) :
    b ∈ t.preorderTo depth a ↔ ∃ n < depth, t.Down n a b := by
  induction depth generalizing a with
  | zero => simp [preorderTo, recurseTo]
  | succ depth ih =>
    rw [preorderTo_succ ha, List.mem_cons, List.mem_flatMap]
    constructor
    · rintro (rfl | ⟨child, hchild, hb⟩)
      · exact ⟨0, Nat.succ_pos _, .here⟩
      · obtain ⟨n, hn, hdown⟩ := (ih (hlinked.lt_of_below hchild)).mp hb
        exact ⟨n + 1, Nat.succ_lt_succ hn, .step hchild hdown⟩
    · rintro ⟨n, hn, hdown⟩
      cases hdown with
      | here => exact .inl rfl
      | step hchild hdown =>
        refine .inr ⟨_, hchild, (ih (hlinked.lt_of_below hchild)).mpr ⟨_, ?_, hdown⟩⟩
        exact Nat.lt_of_succ_lt_succ hn

/-- The depth of `Tree.preorder` cuts nothing off. -/
theorem Rooted.mem_preorder_iff (h : t.Rooted) (ha : t.Reaches t.root a) :
    b ∈ t.preorder a ↔ t.Reaches a b := by
  have hlt := ha.lt h.toLinked h.root_lt
  rw [show t.preorder a = t.preorderTo t.size a from rfl, mem_preorderTo h.toLinked hlt,
    reaches_iff]
  constructor
  · rintro ⟨n, -, hdown⟩
    exact ⟨n, hdown⟩
  · rintro ⟨n, hdown⟩
    obtain ⟨above, habove, -⟩ := h.lineage ha
    obtain ⟨between, hb, rfl⟩ := hdown.lineage h.toLinked habove
    have hlength := hb.length_lt h.toLinked (Reaches.lt h.toLinked (reaches_iff.mpr ⟨_, hdown⟩) hlt)
    rw [List.length_append] at hlength
    exact ⟨_, by omega, hdown⟩

theorem Rooted.mem_ancestors_iff (h : t.Rooted) (ha : t.Reaches t.root a)
    (hb : t.Reaches t.root b) (hne : a ≠ b) : a ∈ t.ancestors b ↔ b ∈ t.preorder a := by
  obtain ⟨above, habove, hmem⟩ := h.lineage hb
  rw [habove.ancestors h.toLinked (hb.lt h.toLinked h.root_lt), hmem, h.mem_preorder_iff ha]
  exact ⟨fun ⟨_, h, _⟩ => h, fun h => ⟨ha, h, hne⟩⟩

end Macromark.Tree
