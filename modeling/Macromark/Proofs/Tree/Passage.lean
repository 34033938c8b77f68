import Macromark.Proofs.Tree.Changes
import Macromark.Proofs.Tree.Recursion

/-!
# Passages

A passage is what an author reads at a node: the words, the macros and what
stands in their arguments, without the numbers of the nodes, without positions
and without what the assembly enters at a macro. A mark at every node may say
more, such as where the node comes from.

What stands at a node is a passage as long as nothing changes that the node
reaches (`Tree.Acyclic.passage_congr`), and read in its order it is the preorder
(`Tree.Acyclic.all_passage`).
-/

namespace Macromark

/-- An argument without its position, and `content` in it. -/
structure Slot (β : Type) where
  name : String
  supplied : Bool
  content : List β

inductive Passage (α : Type) where
  | text (mark : α) (text : String)
  | paragraphBreak (mark : α)
  | error (mark : α) (message : String)
  | call (mark : α) (name : String) (synthetic : Bool) (slots : List (Slot (Passage α)))

variable {α β γ : Type}

def Slot.map (f : β → γ) (slot : Slot β) : Slot γ :=
  ⟨slot.name, slot.supplied, slot.content.map f⟩

namespace Passage

def mark : Passage α → α
  | .text mark _ | .paragraphBreak mark | .error mark _ | .call mark _ _ _ => mark

def slots : Passage α → List (Slot (Passage α))
  | .call _ _ _ slots => slots
  | _ => []

def all (p : Passage α) : List (Passage α) :=
  match p with
  | .call mark name synthetic slots =>
    .call mark name synthetic slots :: slots.flatMap fun slot => slot.content.flatMap all
  | p => [p]
termination_by sizeOf p
decreasing_by
  rename_i hslot p hp
  have hcontent := List.sizeOf_lt_of_mem hp
  have hslots := List.sizeOf_lt_of_mem hslot
  cases slot
  simp only [Slot.mk.sizeOf_spec, call.sizeOf_spec] at hcontent hslots ⊢
  omega

theorem all_eq (p : Passage α) :
    p.all = p :: p.slots.flatMap fun slot => slot.content.flatMap all := by
  cases p <;> simp [all, slots]

theorem sizeOf_lt_of_slot {p : Passage α} {slot : Slot (Passage α)} {slots : List (Slot (Passage α))}
    (hslot : slot ∈ slots) (hp : p ∈ slot.content) (mark : α) (name : String) (synthetic : Bool) :
    sizeOf p < sizeOf (call mark name synthetic slots) := by
  have hcontent := List.sizeOf_lt_of_mem hp
  have hslots := List.sizeOf_lt_of_mem hslot
  cases slot
  simp only [Slot.mk.sizeOf_spec, call.sizeOf_spec] at hcontent hslots ⊢
  omega

end Passage

/-- An argument without its position, and what is made of its children. -/
def Argument.slot (f : NodeId → β) (argument : Argument) : Slot β :=
  ⟨argument.name, argument.supplied, argument.children.map f⟩

theorem Argument.slot_congr {argument : Argument} {f g : NodeId → β}
    (h : ∀ child ∈ argument.children, f child = g child) : argument.slot f = argument.slot g := by
  simpa [slot] using h

/-- What stands in an argument, as it is seen in the slots. -/
theorem MacroCall.map_children {β : Type} (call : MacroCall) (f : NodeId → β) (name : String) :
    (call.children name).map f =
      (((call.arguments.map (·.slot f)).find? (·.name == name)).map (·.content)).getD [] := by
  rw [children, argument?, List.find?_map, Option.map_map]
  have hname : (fun slot : Slot β => slot.name == name) ∘ (fun a : Argument => a.slot f) =
      fun a => a.name == name := rfl
  rw [hname]
  cases call.arguments.find? (·.name == name) <;> rfl

namespace NodeKind

/-- A node without what the assembly enters at a macro. -/
def face : NodeKind → NodeKind
  | .call written => .call { written with id := none, count := none }
  | kind => kind

/-- The passage at a node of this kind, given those at its children. -/
def passage (mark : α) (below : NodeId → Passage α) : NodeKind → Passage α
  | .plaintext text => .text mark text
  | .paragraphBreak => .paragraphBreak mark
  | .error message => .error mark message
  | .call written => .call mark written.name written.synthetic (written.arguments.map (·.slot below))

@[simp] theorem passage_face (mark : α) (below : NodeId → Passage α) (kind : NodeKind) :
    kind.face.passage mark below = kind.passage mark below := by
  cases kind <;> rfl

def below : NodeKind → List NodeId
  | .call written => written.allChildren
  | _ => []

@[simp] theorem below_face (kind : NodeKind) : kind.face.below = kind.below := by
  cases kind <;> rfl

theorem passage_congr {mark : α} {f g : NodeId → Passage α} {kind : NodeKind}
    (h : ∀ child ∈ kind.below, f child = g child) : kind.passage mark f = kind.passage mark g := by
  cases kind with
  | call written =>
    simp only [passage, Passage.call.injEq, true_and]
    refine List.map_congr_left fun argument hargument => Argument.slot_congr fun child hchild => ?_
    exact h child (List.mem_flatMap.mpr ⟨argument, hargument, hchild⟩)
  | _ => rfl

end NodeKind

namespace Tree

def face? (t : Tree) (id : NodeId) : Option NodeKind := (t.kind? id).map (·.face)

/-- The passage at a node. A number that is no node reads as an empty error. -/
def passage (label : NodeId → α) (t : Tree) (id : NodeId) : Passage α :=
  t.recurse (fun id node below => node.kind.passage (label id) below) (.error (label 0) "") id

variable {t u : Tree} {id : NodeId} {kind : NodeKind}
variable {label : NodeId → α}

theorem below_node (node : Node) : node.below = node.kind.below := by
  unfold Node.below Node.call?
  cases node.kind <;> rfl

/-- The children of a node are seen in its face. -/
theorem below_of_face? (h : t.face? id = some kind) : t.below id = kind.below := by
  obtain ⟨written, hwritten, rfl⟩ := Option.map_eq_some_iff.mp h
  obtain ⟨node, hnode, rfl⟩ := Option.map_eq_some_iff.mp hwritten
  rw [below_of_get? hnode, below_node, NodeKind.below_face]

theorem below_congr (h : u.face? id = t.face? id) : u.below id = t.below id := by
  have hbelow : ∀ t : Tree, t.below id = ((t.face? id).map (·.below)).getD [] := by
    intro t
    cases hface : t.face? id with
    | some kind => exact below_of_face? hface
    | none =>
      simp only [face?, kind?, Option.map_eq_none_iff] at hface
      simp [below, call?, hface]
  rw [hbelow, hbelow, h]

theorem exists_face? (h : id < t.size) : ∃ kind, t.face? id = some kind := by
  obtain ⟨node, hnode⟩ := lt_size_iff.mp h
  exact ⟨node.kind.face, by simp [face?, kind?, hnode]⟩

/-- A passage is read off its node. -/
theorem Acyclic.passage_of_get? (h : t.Acyclic) {node : Node} (hnode : t.get? id = some node) :
    t.passage label id = node.kind.passage (label id) (t.passage label) := by
  refine h.recurse_eq (fun id node f g hfg => ?_) hnode
  exact NodeKind.passage_congr (below_node node ▸ hfg)

theorem passage_of_none (hnone : t.get? id = none) : t.passage label id = .error (label 0) "" :=
  recurse_of_none hnone

theorem Acyclic.passage_eq (h : t.Acyclic) (hface : t.face? id = some kind) :
    t.passage label id = kind.passage (label id) (t.passage label) := by
  obtain ⟨_, hwritten, rfl⟩ := Option.map_eq_some_iff.mp hface
  obtain ⟨node, hnode, rfl⟩ := Option.map_eq_some_iff.mp hwritten
  rw [h.passage_of_get? hnode, NodeKind.passage_face]

theorem Acyclic.passage_of_call? (h : t.Acyclic) {call : MacroCall}
    (hcall : t.call? id = some call) :
    t.passage label id = .call (label id) call.name call.synthetic
      (call.arguments.map (·.slot (t.passage label))) := by
  obtain ⟨node, hnode, hcall⟩ := Option.bind_eq_some_iff.mp hcall
  rw [h.passage_of_get? hnode]
  cases hkind : node.kind <;> simp [Node.call?, hkind] at hcall
  rw [hcall, NodeKind.passage]

theorem Acyclic.mark_passage (h : t.Acyclic) (hid : id < t.size) :
    (t.passage label id).mark = label id := by
  obtain ⟨node, hnode⟩ := lt_size_iff.mp hid
  rw [h.passage_of_get? hnode]
  cases node.kind <;> rfl

/-- Other nodes than those that are reached do not matter. -/
theorem Acyclic.passage_congr (ht : t.Acyclic) (hu : u.Acyclic) (hid : id < t.size)
    (h : ∀ x, t.Reaches id x → u.face? x = t.face? x) :
    u.passage label id = t.passage label id := by
  refine ht.induction (motive := fun id => (∀ x, t.Reaches id x → u.face? x = t.face? x) →
    u.passage label id = t.passage label id) (fun id hid ih h => ?_) hid h
  obtain ⟨kind, hface⟩ := exists_face? hid
  rw [ht.passage_eq hface, hu.passage_eq ((h id .refl).trans hface)]
  refine NodeKind.passage_congr fun child hchild => ?_
  have hbelow : child ∈ t.below id := below_of_face? hface ▸ hchild
  exact ih child hbelow fun x hx => h x (.head hbelow hx)

/-- Where all faces are the same, so are all passages. -/
theorem Acyclic.passage_eq_of_faces (ht : t.Acyclic) (hu : u.Acyclic)
    (h : ∀ id, u.face? id = t.face? id)
    (hid : id < t.size) : u.passage label id = t.passage label id :=
  ht.passage_congr hu hid fun x _ => h x

/-- Marks matter at the nodes of the tree only. -/
theorem Acyclic.passage_label (h : t.Acyclic) {label' : NodeId → α}
    (hlabel : ∀ id < t.size, label' id = label id) (hid : id < t.size) :
    t.passage label' id = t.passage label id := by
  refine h.induction (motive := fun id => t.passage label' id = t.passage label id)
    (fun id hid ih => ?_) hid
  obtain ⟨kind, hface⟩ := exists_face? hid
  rw [h.passage_eq hface, h.passage_eq hface, hlabel id hid]
  exact NodeKind.passage_congr fun child hchild => ih child (below_of_face? hface ▸ hchild)

/-- The passages of a tree, every node marked with what its position says. -/
def marked (f : Position → α) (t : Tree) : NodeId → Passage α :=
  t.passage fun id => f (t.position id)

theorem slots_passage (kind : NodeKind) (mark : α) (f : NodeId → Passage α) :
    ((kind.passage mark f).slots.flatMap (·.content)) = kind.below.map f := by
  cases kind with
  | call call =>
    simp [NodeKind.passage, Passage.slots, NodeKind.below, MacroCall.allChildren, Argument.slot,
      List.flatMap_map, List.map_flatMap]
  | _ => rfl

/-- What is read in a passage is the preorder. -/
theorem Acyclic.all_passage (h : t.Acyclic) (hid : id < t.size) :
    (t.passage label id).all = (t.preorder id).map (t.passage label) := by
  refine h.induction (motive := fun id =>
    (t.passage label id).all = (t.preorder id).map (t.passage label)) (fun id hid ih => ?_) hid
  obtain ⟨kind, hface⟩ := exists_face? hid
  have hslots : ((t.passage label id).slots.flatMap fun slot => slot.content.flatMap (·.all)) =
      (t.below id).flatMap fun child => (t.passage label child).all := by
    rw [← List.flatMap_assoc, h.passage_eq hface, slots_passage, List.flatMap_map,
      below_of_face? hface]
  rw [Passage.all_eq, hslots, h.preorder_eq hid, List.map_cons, List.map_flatMap]
  exact congrArg (_ :: ·) (congrArg List.flatten (List.map_congr_left ih))

-- ----------------------------------------------------------------------------
-- Changing a tree
-- ----------------------------------------------------------------------------

theorem face?_push (t : Tree) (kind : NodeKind) (position : Position) (id : NodeId) :
    (t.push kind position).2.face? id = if id = t.size then some kind.face else t.face? id := by
  rw [face?, kind?_push]
  split <;> rfl

@[simp] theorem face?_adopt (t : Tree) (owner : NodeId) (children : List NodeId) (id : NodeId) :
    (t.adopt owner children).face? id = t.face? id := by
  rw [face?, kind?_adopt]
  rfl

theorem face?_pushCall (t : Tree) (call : MacroCall) (position : Position) (id : NodeId) :
    (t.pushCall call position).2.face? id =
      if id = t.size then some (NodeKind.call call).face else t.face? id := by
  simp [pushCall, face?_push]

theorem face?_setKind (t : Tree) (node : NodeId) (kind : NodeKind) (id : NodeId) :
    (t.setKind node kind).face? id =
      if node = id then (t.face? id).map fun _ => kind.face else t.face? id := by
  rw [face?, kind?_setKind]
  split
  · rw [face?, Option.map_map, Option.map_map]
    rfl
  · rfl

theorem face?_modifyCall (t : Tree) (owner : NodeId) (f : MacroCall → MacroCall) {id : NodeId}
    (hid : id ≠ owner) : (t.modifyCall owner f).face? id = t.face? id := by
  unfold face? kind?
  rw [get?_modifyCall, if_neg (Ne.symm hid)]

/-- From `t` to `u` there are new nodes only. -/
structure Extends (t u : Tree) : Prop where
  size_le : t.size ≤ u.size
  faces : ∀ id < t.size, u.face? id = t.face? id
  positions : ∀ id < t.size, u.position id = t.position id

namespace Extends

variable {v : Tree}

theorem refl (t : Tree) : t.Extends t := ⟨Nat.le_refl _, fun _ _ => rfl, fun _ _ => rfl⟩

theorem trans (h : t.Extends u) (h' : u.Extends v) : t.Extends v := by
  refine ⟨Nat.le_trans h.size_le h'.size_le, fun id hid => ?_, fun id hid => ?_⟩
  · rw [h'.faces id (Nat.lt_of_lt_of_le hid h.size_le), h.faces id hid]
  · rw [h'.positions id (Nat.lt_of_lt_of_le hid h.size_le), h.positions id hid]

theorem passage (h : t.Extends u) (ht : t.Acyclic) (hu : u.Acyclic) (hid : id < t.size) :
    u.passage label id = t.passage label id :=
  ht.passage_congr hu hid fun x hx => h.faces x (ht.lt_of_reaches hid hx)

theorem passages (h : t.Extends u) (ht : t.Acyclic) (hu : u.Acyclic) {ids : List NodeId}
    (hids : ∀ id ∈ ids, id < t.size) :
    ids.map (u.passage label) = ids.map (t.passage label) :=
  List.map_congr_left fun id hid => h.passage ht hu (hids id hid)

theorem marked (h : t.Extends u) (ht : t.Acyclic) (hu : u.Acyclic) (f : Position → α)
    (hid : id < t.size) : u.marked f id = t.marked f id := by
  rw [Tree.marked, h.passage ht hu hid, Tree.marked]
  exact ht.passage_label (fun id hid => by rw [h.positions id hid]) hid

end Extends

theorem extends_push (t : Tree) (kind : NodeKind) (position : Position) :
    t.Extends (t.push kind position).2 := by
  refine ⟨by simp, fun id hid => ?_, fun id hid => (t.kept_push kind position).position hid⟩
  rw [face?_push, if_neg (Nat.ne_of_lt hid)]

theorem extends_pushCall (t : Tree) (call : MacroCall) (position : Position) :
    t.Extends (t.pushCall call position).2 := by
  refine ⟨by simp, fun id hid => ?_, fun id hid => (t.kept_pushCall call position).position hid⟩
  rw [face?_pushCall, if_neg (Nat.ne_of_lt hid)]

theorem Acyclic.push (h : t.Acyclic) {kind : NodeKind} (hkind : kind.below = [])
    (position : Position) : (t.push kind position).2.Acyclic := by
  refine h.of_below (by simp) fun id => ?_
  by_cases hid : id = t.size
  · have hface : (t.push kind position).2.face? id = some kind.face := by
      rw [face?_push, if_pos hid]
    rw [below_of_face? hface, NodeKind.below_face, hkind, below,
      call?_eq_none (Nat.le_of_eq hid.symm)]
    rfl
  · exact below_congr (by rw [face?_push, if_neg hid])

theorem Acyclic.pushCall (h : t.Acyclic) {call : MacroCall}
    (hcall : ∀ child ∈ call.allChildren, child < t.size) (position : Position) :
    (t.pushCall call position).2.Acyclic := by
  refine h.of_new (by simp) (fun id hid => ?_) fun id hid child hchild => ?_
  · exact below_congr ((t.extends_pushCall call position).faces id hid)
  · obtain ⟨other, hother, hmem⟩ := mem_below.mp hchild
    rw [call?_pushCall] at hother
    split at hother
    · next heq =>
      cases hother
      exact ⟨heq, hcall child hmem⟩
    · simp [call?_eq_none hid] at hother

theorem Acyclic.marked_push (h : t.Acyclic) (f : Position → α) {kind : NodeKind}
    (hkind : kind.below = []) (position : Position) :
    (t.push kind position).2.marked f t.size = kind.passage (f position) (t.marked f) := by
  have hface : (t.push kind position).2.face? t.size = some kind.face := by
    rw [face?_push, if_pos rfl]
  rw [marked, (h.push hkind position).passage_eq hface, NodeKind.passage_face, position_push]
  exact NodeKind.passage_congr (by simp [hkind])

theorem Acyclic.marked_pushCall (h : t.Acyclic) (f : Position → α) {call : MacroCall}
    (hcall : ∀ child ∈ call.allChildren, child < t.size) (position : Position) :
    (t.pushCall call position).2.marked f t.size =
      (NodeKind.call call).passage (f position) (t.marked f) := by
  have hpushed := h.pushCall hcall position
  have hface : (t.pushCall call position).2.face? t.size = some (NodeKind.call call).face := by
    rw [face?_pushCall, if_pos rfl]
  rw [marked, hpushed.passage_eq hface, NodeKind.passage_face, position_pushCall]
  exact NodeKind.passage_congr fun child hchild =>
    (t.extends_pushCall call position).marked h hpushed f (hcall child hchild)

end Tree
end Macromark
