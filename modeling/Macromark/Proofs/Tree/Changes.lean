import Macromark.Proofs.Tree.Links

/-!
# Changing a tree

What each change makes of the children and the parents of every node, and what
no change touches: the shape of a node (`Tree.Kept`).
-/

namespace Macromark

/-- What stays as it is during the assembly: not the text, not what an argument
holds, and neither the identifier nor the number of a macro. -/
def NodeKind.shape : NodeKind → NodeKind
  | .call written =>
    .call { written with
      arguments := written.arguments.map ({ · with children := [] }), id := none, count := none }
  | .plaintext _ => .plaintext ""
  | kind => kind

namespace Tree

def shape? (t : Tree) (id : NodeId) : Option (NodeKind × Position) :=
  (t.get? id).map fun node => (node.kind.shape, node.position)

variable {t u v : Tree} {id child owner : NodeId} {children : List NodeId} {call : MacroCall}

-- ----------------------------------------------------------------------------
-- New nodes
-- ----------------------------------------------------------------------------

theorem parent?_push (t : Tree) (kind : NodeKind) (position : Position) (id : NodeId) :
    (t.push kind position).2.parent? id = t.parent? id := by
  unfold parent?
  rw [get?_push]
  split
  · next h =>
    subst h
    have hnone : t.get? t.size = none := by simp [get?, size]
    simp [hnone]
  · rfl

theorem call?_push (t : Tree) (kind : NodeKind) (position : Position) (id : NodeId) :
    (t.push kind position).2.call? id =
      if id = t.size then Node.call? ⟨kind, position, none⟩ else t.call? id := by
  unfold call?
  rw [get?_push]
  split <;> rfl

theorem get?_adopt (t : Tree) (owner : NodeId) (children : List NodeId) (id : NodeId) :
    (t.adopt owner children).get? id =
      (t.get? id).map fun node => if id ∈ children then { node with parent := some owner } else node := by
  induction children generalizing t with
  | nil => simp [adopt]
  | cons child rest ih =>
    have hstep : t.adopt owner (child :: rest) =
        (t.modify child ({ · with parent := some owner })).adopt owner rest := rfl
    rw [hstep, ih, get?_modify]
    by_cases hid : child = id
    · subst hid
      cases t.get? child <;> simp
    · cases t.get? id <;> simp [hid, Ne.symm hid]

theorem parent?_adopt (t : Tree) (owner : NodeId) (children : List NodeId) (id : NodeId) :
    (t.adopt owner children).parent? id =
      if id ∈ children ∧ id < t.size then some owner else t.parent? id := by
  unfold parent?
  rw [get?_adopt]
  by_cases hid : id < t.size
  · obtain ⟨node, hnode⟩ := lt_size_iff.mp hid
    by_cases hmem : id ∈ children <;> simp [hnode, hmem, hid]
  · have hnone : t.get? id = none := by simpa [get?, size] using hid
    simp [hnone, hid]

@[simp] theorem call?_adopt (t : Tree) (owner : NodeId) (children : List NodeId) (id : NodeId) :
    (t.adopt owner children).call? id = t.call? id := by
  unfold call?
  rw [get?_adopt]
  cases t.get? id with
  | none => rfl
  | some node => by_cases hid : id ∈ children <;> simp [hid, Node.call?]

@[simp] theorem shape?_adopt (t : Tree) (owner : NodeId) (children : List NodeId) (id : NodeId) :
    (t.adopt owner children).shape? id = t.shape? id := by
  unfold shape?
  rw [get?_adopt]
  cases t.get? id with
  | none => rfl
  | some node => by_cases hid : id ∈ children <;> simp [hid]

@[simp] theorem root?_adopt (t : Tree) (owner : NodeId) (children : List NodeId) :
    (t.adopt owner children).root? = t.root? := by
  induction children generalizing t with
  | nil => rfl
  | cons child rest ih => exact ih _

theorem pushCall_fst (t : Tree) (call : MacroCall) (position : Position) :
    (t.pushCall call position).1 = t.size := rfl

@[simp] theorem size_pushCall (t : Tree) (call : MacroCall) (position : Position) :
    (t.pushCall call position).2.size = t.size + 1 := by
  simp [pushCall]

theorem call?_pushCall (t : Tree) (call : MacroCall) (position : Position) (id : NodeId) :
    (t.pushCall call position).2.call? id = if id = t.size then some call else t.call? id := by
  simp [pushCall, call?_push, Node.call?]

theorem kind?_push (t : Tree) (kind : NodeKind) (position : Position) (id : NodeId) :
    (t.push kind position).2.kind? id = if id = t.size then some kind else t.kind? id := by
  unfold kind?
  rw [get?_push]
  split <;> rfl

theorem kind?_adopt (t : Tree) (owner : NodeId) (children : List NodeId) (id : NodeId) :
    (t.adopt owner children).kind? id = t.kind? id := by
  unfold kind?
  rw [get?_adopt]
  cases t.get? id with
  | none => rfl
  | some node => by_cases hid : id ∈ children <;> simp [hid]

theorem kind?_pushCall (t : Tree) (call : MacroCall) (position : Position) (id : NodeId) :
    (t.pushCall call position).2.kind? id = if id = t.size then some (.call call) else t.kind? id := by
  rw [pushCall, kind?_adopt]
  exact kind?_push ..

theorem kind?_setKind (t : Tree) (node : NodeId) (kind : NodeKind) (id : NodeId) :
    (t.setKind node kind).kind? id =
      if node = id then (t.kind? id).map fun _ => kind else t.kind? id := by
  unfold kind? setKind
  rw [get?_modify]
  split
  · rw [Option.map_map, Option.map_map]
    rfl
  · rfl

theorem plaintext?_eq (t : Tree) (id : NodeId) : t.plaintext? id =
    (t.kind? id).bind fun kind => match kind with
      | .plaintext text => some text
      | _ => none := by
  unfold plaintext? kind?
  cases t.get? id <;> rfl

theorem kind?_of_plaintext? {text : String} (h : t.plaintext? id = some text) :
    t.kind? id = some (.plaintext text) := by
  rw [plaintext?_eq] at h
  obtain ⟨kind, hkind, htext⟩ := Option.bind_eq_some_iff.mp h
  cases kind <;> simp at htext
  rw [hkind, htext]

theorem isParagraphBreak_push (t : Tree) (kind : NodeKind) (hkind : kind ≠ .paragraphBreak)
    (position : Position) : (t.push kind position).2.isParagraphBreak t.size = false := by
  simp [isParagraphBreak, get?_push, Node.isParagraphBreak, hkind]

theorem isParagraphBreak_pushCall (t : Tree) (call : MacroCall) (position : Position) :
    (t.pushCall call position).2.isParagraphBreak t.size = false := by
  simp [isParagraphBreak, pushCall, get?_adopt, get?_push, Node.isParagraphBreak, apply_ite]

theorem parent?_pushCall (t : Tree) (position : Position)
    (hcall : ∀ child ∈ call.allChildren, child < t.size) (id : NodeId) :
    (t.pushCall call position).2.parent? id =
      if id ∈ call.allChildren then some t.size else t.parent? id := by
  have hlt : id ∈ call.allChildren → id < t.size + 1 := fun h => Nat.lt_succ_of_lt (hcall id h)
  simp only [pushCall, parent?_adopt, parent?_push, push_fst, size_push]
  by_cases hid : id ∈ call.allChildren <;> simp [hid, hlt]

theorem position_push (t : Tree) (kind : NodeKind) (position : Position) :
    (t.push kind position).2.position t.size = position := by
  simp [Tree.position, get?_push]

theorem position_pushCall (t : Tree) (call : MacroCall) (position : Position) :
    (t.pushCall call position).2.position t.size = position := by
  simp [pushCall, Tree.position, get?_adopt, get?_push, apply_ite]

-- ----------------------------------------------------------------------------
-- Other arguments of a macro
-- ----------------------------------------------------------------------------

theorem get?_modifyCall (t : Tree) (owner : NodeId) (f : MacroCall → MacroCall) (id : NodeId) :
    (t.modifyCall owner f).get? id =
      if owner = id then (t.get? id).map fun node =>
        match node.kind with
        | .call call => { node with kind := .call (f call) }
        | _ => node
      else t.get? id := get?_modify ..

@[simp] theorem parent?_modifyCall (t : Tree) (owner : NodeId) (f : MacroCall → MacroCall)
    (id : NodeId) : (t.modifyCall owner f).parent? id = t.parent? id := by
  unfold parent?
  rw [get?_modifyCall]
  split
  · cases t.get? id with
    | none => rfl
    | some node => cases hkind : node.kind <;> simp [hkind]
  · rfl

@[simp] theorem position_modifyCall (t : Tree) (owner : NodeId) (f : MacroCall → MacroCall)
    (id : NodeId) : (t.modifyCall owner f).position id = t.position id := by
  unfold position
  rw [get?_modifyCall]
  split
  · cases t.get? id with
    | none => rfl
    | some node => cases hkind : node.kind <;> simp [hkind]
  · rfl

theorem call?_modifyCall (t : Tree) (owner : NodeId) (f : MacroCall → MacroCall) (id : NodeId) :
    (t.modifyCall owner f).call? id =
      if owner = id then (t.call? id).map f else t.call? id := by
  unfold call?
  rw [get?_modifyCall]
  split
  · cases t.get? id with
    | none => rfl
    | some node => cases hkind : node.kind <;> simp [Node.call?, hkind]
  · rfl

@[simp] theorem size_modifyCall (t : Tree) (owner : NodeId) (f : MacroCall → MacroCall) :
    (t.modifyCall owner f).size = t.size := size_modify ..

@[simp] theorem root?_modifyCall (t : Tree) (owner : NodeId) (f : MacroCall → MacroCall) :
    (t.modifyCall owner f).root? = t.root? := rfl

theorem shape?_modifyCall (t : Tree) (owner : NodeId) {f : MacroCall → MacroCall}
    (hf : ∀ call, (NodeKind.call (f call)).shape = (NodeKind.call call).shape) (id : NodeId) :
    (t.modifyCall owner f).shape? id = t.shape? id := by
  unfold shape?
  rw [get?_modifyCall]
  split
  · cases t.get? id with
    | none => rfl
    | some node => cases hkind : node.kind <;> simp [hkind, hf]
  · rfl

end Tree

theorem MacroCall.setChildren_go {name : String} {children : List NodeId} {arguments : List Argument} :
    (MacroCall.setChildren.go name children arguments).map (fun a => { a with children := [] }) =
      arguments.map fun a => { a with children := [] } := by
  induction arguments with
  | nil => rfl
  | cons a rest ih =>
    unfold MacroCall.setChildren.go
    split
    · rfl
    · simp [ih]

theorem MacroCall.shape_setChildren (call : MacroCall) (name : String) (children : List NodeId) :
    (NodeKind.call (call.setChildren name children)).shape = (NodeKind.call call).shape := by
  simp [NodeKind.shape, MacroCall.setChildren, MacroCall.setChildren_go]

namespace Tree

variable {t u v : Tree} {id child owner : NodeId} {children : List NodeId} {call : MacroCall}

-- ----------------------------------------------------------------------------
-- What no change touches
-- ----------------------------------------------------------------------------

/-- Every node of `t` is still there in `u`, and still of its shape. -/
structure Kept (t u : Tree) : Prop where
  size_le : t.size ≤ u.size
  root : u.root? = t.root?
  shape : ∀ id < t.size, u.shape? id = t.shape? id

theorem Kept.refl (t : Tree) : t.Kept t := ⟨Nat.le_refl _, rfl, fun _ _ => rfl⟩

theorem Kept.trans (h : t.Kept u) (h' : u.Kept v) : t.Kept v := by
  refine ⟨Nat.le_trans h.size_le h'.size_le, h'.root.trans h.root, fun id hid => ?_⟩
  rw [h'.shape id (Nat.lt_of_lt_of_le hid h.size_le), h.shape id hid]

theorem Kept.from (h : t.Kept v) (hbetween : t.Kept u) (hsize : u.size = t.size) : u.Kept v := by
  refine ⟨hsize ▸ h.size_le, h.root.trans hbetween.root.symm, fun id hid => ?_⟩
  rw [hsize] at hid
  rw [h.shape id hid, hbetween.shape id hid]

theorem kept_push (t : Tree) (kind : NodeKind) (position : Position) :
    t.Kept (t.push kind position).2 := by
  refine ⟨by simp, rfl, fun id hid => ?_⟩
  rw [shape?, get?_push, if_neg (Nat.ne_of_lt hid)]
  rfl

theorem kept_adopt (t : Tree) (owner : NodeId) (children : List NodeId) :
    t.Kept (t.adopt owner children) := ⟨by simp, by simp, by simp⟩

theorem kept_pushCall (t : Tree) (call : MacroCall) (position : Position) :
    t.Kept (t.pushCall call position).2 := (kept_push t _ position).trans (kept_adopt ..)

theorem kept_modifyCall (t : Tree) (owner : NodeId) {f : MacroCall → MacroCall}
    (hf : ∀ call, (NodeKind.call (f call)).shape = (NodeKind.call call).shape) :
    t.Kept (t.modifyCall owner f) := ⟨by simp, rfl, fun id _ => shape?_modifyCall t owner hf id⟩

theorem kept_setChildren (t : Tree) (owner : NodeId) (argument : String) (children : List NodeId) :
    t.Kept (t.setChildren owner argument children) :=
  (kept_adopt t owner children).trans
    (kept_modifyCall _ owner fun call => call.shape_setChildren argument children)

theorem Kept.root_eq (h : t.Kept u) : u.root = t.root := by
  rw [Tree.root, h.root, Tree.root]

theorem Kept.position (h : t.Kept u) (hid : id < t.size) : u.position id = t.position id := by
  have hposition : ∀ t : Tree, t.position id = ((t.shape? id).map (·.2)).getD .origin := by
    intro t
    unfold Tree.position shape?
    cases t.get? id <;> rfl
  rw [hposition, hposition, h.shape id hid]

theorem Kept.isParagraphBreak (h : t.Kept u) (hid : id < t.size) :
    u.isParagraphBreak id = t.isParagraphBreak id := by
  have hbreak : ∀ t : Tree, t.isParagraphBreak id =
      ((t.shape? id).map fun s => decide (s.1 = .paragraphBreak)).getD false := by
    intro t
    unfold Tree.isParagraphBreak shape?
    cases t.get? id with
    | none => rfl
    | some node => cases hkind : node.kind <;> simp [Node.isParagraphBreak, NodeKind.shape, hkind]
  rw [hbreak, hbreak, h.shape id hid]

/-- A macro without what its arguments hold, its identifier and its number. -/
def frame? (t : Tree) (id : NodeId) : Option MacroCall :=
  (t.shape? id).bind fun s => match s.1 with
    | .call call => some call
    | _ => none

theorem frame?_eq (t : Tree) (id : NodeId) : t.frame? id = (t.call? id).map fun call =>
    { call with
      arguments := call.arguments.map ({ · with children := [] }), id := none, count := none } := by
  unfold frame? shape? call?
  cases t.get? id with
  | none => rfl
  | some node => cases hkind : node.kind <;> simp [Node.call?, NodeKind.shape, hkind]

theorem Kept.frame? (h : t.Kept u) (hid : id < t.size) : u.frame? id = t.frame? id := by
  rw [Tree.frame?, Tree.frame?, h.shape id hid]

theorem Kept.call? (h : t.Kept u) (hcall : t.call? id = some call) :
    ∃ later, u.call? id = some later ∧ later.name = call.name ∧
      later.synthetic = call.synthetic ∧
      later.arguments.map ({ · with children := [] }) =
        call.arguments.map ({ · with children := [] }) := by
  have hframe := h.frame? (lt_of_call? hcall)
  rw [frame?_eq, frame?_eq, hcall] at hframe
  obtain ⟨later, hlater, heq⟩ := Option.map_eq_some_iff.mp hframe
  injection heq with hname harguments _ _ hsynthetic
  exact ⟨later, hlater, hname, hsynthetic, harguments⟩

theorem Kept.call?_of_lt {later : MacroCall} (h : t.Kept u) (hid : id < t.size)
    (hlater : u.call? id = some later) :
    ∃ call, t.call? id = some call ∧ later.name = call.name := by
  have hframe := h.frame? hid
  rw [frame?_eq, frame?_eq, hlater] at hframe
  obtain ⟨call, hcall, heq⟩ := Option.map_eq_some_iff.mp hframe.symm
  injection heq with hname
  exact ⟨call, hcall, hname.symm⟩

end Tree
end Macromark
