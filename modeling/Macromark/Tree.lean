import Macromark.Text.Position

/-!
# The document tree

The nodes of a document are numbered in the order of their creation and kept
in that order; the arguments of a macro list the numbers of their children.
A node that is in no argument any more keeps its number. What is computed over
the tree goes through `Tree.recurse`, whose depth is the number of nodes: no
path in a tree is longer.
-/

namespace Macromark

abbrev NodeId := Nat

structure Argument where
  name : String
  children : List NodeId
  /-- The position of the opener, or that of the macro if the author left the
  argument out. -/
  position : Position
  /-- Whether the author wrote the argument. -/
  supplied : Bool
deriving DecidableEq, Repr

structure MacroCall where
  name : String
  arguments : List Argument
  id : Option String := none
  count : Option Nat := none
  /-- Whether the compiler wrote it, and not the author. -/
  synthetic : Bool := false
deriving DecidableEq, Repr

namespace MacroCall

def argument? (call : MacroCall) (name : String) : Option Argument :=
  call.arguments.find? (·.name == name)

/-- No children where the argument is not declared. -/
def children (call : MacroCall) (name : String) : List NodeId :=
  ((call.argument? name).map (·.children)).getD []

def supplies (call : MacroCall) (name : String) : Bool :=
  ((call.argument? name).map (·.supplied)).getD false

def allChildren (call : MacroCall) : List NodeId := call.arguments.flatMap (·.children)

/-- Gives the first argument of that name other children. -/
def setChildren (call : MacroCall) (name : String) (children : List NodeId) : MacroCall :=
  let rec go : List Argument → List Argument
    | [] => []
    | a :: rest => if a.name = name then { a with children } :: rest else a :: go rest
  { call with arguments := go call.arguments }

end MacroCall

inductive NodeKind where
  | call (call : MacroCall)
  | plaintext (text : String)
  | paragraphBreak
  | error (message : String)
deriving DecidableEq, Repr

structure Node where
  kind : NodeKind
  position : Position
  parent : Option NodeId
deriving DecidableEq, Repr

namespace Node

def call? (node : Node) : Option MacroCall :=
  match node.kind with
  | .call call => some call
  | _ => none

def plaintext? (node : Node) : Option String :=
  match node.kind with
  | .plaintext text => some text
  | _ => none

def isParagraphBreak (node : Node) : Bool := node.kind = .paragraphBreak

def label (node : Node) : String :=
  match node.kind with
  | .call call => call.name
  | .plaintext _ => "plaintext"
  | .paragraphBreak => "paragraph_break"
  | .error _ => "error"

end Node

structure Tree where
  nodes : Array Node
  root? : Option NodeId
deriving DecidableEq, Repr

namespace Tree

def empty : Tree := ⟨#[], none⟩

instance : Inhabited Tree := ⟨empty⟩

def size (t : Tree) : Nat := t.nodes.size

def isEmpty (t : Tree) : Bool := t.nodes.isEmpty

def get? (t : Tree) (id : NodeId) : Option Node := t.nodes[id]?

def kind? (t : Tree) (id : NodeId) : Option NodeKind := (t.get? id).map (·.kind)

def call? (t : Tree) (id : NodeId) : Option MacroCall := (t.get? id).bind Node.call?

def plaintext? (t : Tree) (id : NodeId) : Option String := (t.get? id).bind Node.plaintext?

def position (t : Tree) (id : NodeId) : Position := ((t.get? id).map (·.position)).getD .origin

def isParagraphBreak (t : Tree) (id : NodeId) : Bool :=
  ((t.get? id).map (·.isParagraphBreak)).getD false

/-- The node at the top. A tree put together by hand may name none, and then it
is the first. -/
def root (t : Tree) : NodeId := t.root?.getD 0

-- ----------------------------------------------------------------------------
-- Changing a tree
-- ----------------------------------------------------------------------------

def modify (t : Tree) (id : NodeId) (f : Node → Node) : Tree :=
  { t with nodes := t.nodes.modify id f }

def setKind (t : Tree) (id : NodeId) (kind : NodeKind) : Tree := t.modify id ({ · with kind })

def modifyCall (t : Tree) (id : NodeId) (f : MacroCall → MacroCall) : Tree :=
  t.modify id fun node =>
    match node.kind with
    | .call call => { node with kind := .call (f call) }
    | _ => node

/-- Names the parent of every one of `children`. -/
def adopt (t : Tree) (owner : NodeId) (children : List NodeId) : Tree :=
  children.foldl (fun t child => t.modify child ({ · with parent := some owner })) t

def push (t : Tree) (kind : NodeKind) (position : Position) : NodeId × Tree :=
  (t.size, { t with nodes := t.nodes.push ⟨kind, position, none⟩ })

def pushCall (t : Tree) (call : MacroCall) (position : Position) : NodeId × Tree :=
  let (id, t) := t.push (.call call) position
  (id, t.adopt id call.allChildren)

def setChildren (t : Tree) (owner : NodeId) (argument : String) (children : List NodeId) : Tree :=
  (t.adopt owner children).modifyCall owner (·.setChildren argument children)

-- ----------------------------------------------------------------------------
-- Walking a tree
-- ----------------------------------------------------------------------------

/-- What `step` makes of a node, given what it makes of other nodes, down to
`depth` nodes deep. -/
def recurseTo {α : Type} (t : Tree) (step : NodeId → Node → (NodeId → α) → α) (default : α) :
    Nat → NodeId → α
  | 0, _ => default
  | depth + 1, id =>
    match t.get? id with
    | some node => step id node (t.recurseTo step default depth)
    | none => default

def recurse {α : Type} (t : Tree) (step : NodeId → Node → (NodeId → α) → α) (default : α)
    (id : NodeId) : α :=
  t.recurseTo step default t.size id

def preorder (t : Tree) (start : NodeId) : List NodeId :=
  t.recurse (fun id node below =>
    match node.kind with
    | .call call => id :: call.allChildren.flatMap below
    | _ => [id]) [] start

def ancestors (t : Tree) (id : NodeId) : List NodeId :=
  let rec go : Nat → NodeId → List NodeId
    | 0, _ => []
    | depth + 1, id =>
      match (t.get? id).bind (·.parent) with
      | some parent => parent :: go depth parent
      | none => []
  go t.size id

def findById (t : Tree) (id : String) : Option NodeId :=
  (t.preorder t.root).find? fun node => (t.call? node).bind (·.id) == some id

-- ----------------------------------------------------------------------------
-- Laws
-- ----------------------------------------------------------------------------

@[simp] theorem size_modify (t : Tree) (id : NodeId) (f : Node → Node) :
    (t.modify id f).size = t.size := by
  simp [size, modify]

theorem get?_modify (t : Tree) (id other : NodeId) (f : Node → Node) :
    (t.modify id f).get? other = if id = other then (t.get? other).map f else t.get? other := by
  simp [get?, modify, Array.getElem?_modify]

@[simp] theorem size_adopt (t : Tree) (owner : NodeId) (children : List NodeId) :
    (t.adopt owner children).size = t.size := by
  induction children generalizing t with
  | nil => rfl
  | cons child rest ih => simp [adopt] at ih ⊢; simp [ih]

@[simp] theorem push_fst (t : Tree) (kind : NodeKind) (position : Position) :
    (t.push kind position).1 = t.size := rfl

@[simp] theorem size_push (t : Tree) (kind : NodeKind) (position : Position) :
    (t.push kind position).2.size = t.size + 1 := by
  simp [push, size]

theorem get?_push (t : Tree) (kind : NodeKind) (position : Position) (id : NodeId) :
    (t.push kind position).2.get? id =
      if id = t.size then some ⟨kind, position, none⟩ else t.get? id := by
  exact Array.getElem?_push

end Tree
end Macromark
