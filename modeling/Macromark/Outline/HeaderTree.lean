import Macromark.Outline.Level
import Macromark.Tree

/-!
# Headers by level

Headers are written one after the other and form a tree by their levels: a
header closes every open one at its own level or below, and stands under the
one that is left open. The whole document, at level zero, is never closed.
-/

namespace Macromark

abbrev HeaderId := Nat

structure HeaderNode where
  node : Option NodeId
  parent : Option HeaderId
  children : List HeaderId
  level : Level
deriving DecidableEq, Repr

structure HeaderTree where
  nodes : Array HeaderNode
  /-- The open headers, the last one first and the whole document at the end. -/
  chain : List HeaderId
  previousLevel : Option Level
deriving DecidableEq, Repr

namespace HeaderTree

def root : HeaderId := 0

def new (document : Option NodeId) : HeaderTree := ⟨#[⟨document, none, [], 0⟩], [root], none⟩

instance : Inhabited HeaderTree := ⟨new none⟩

def get? (h : HeaderTree) (id : HeaderId) : Option HeaderNode := h.nodes[id]?

def level (h : HeaderTree) (id : HeaderId) : Level := ((h.get? id).map (·.level)).getD 0

def count (h : HeaderTree) : Nat := h.nodes.size - 1

def current (h : HeaderTree) : HeaderId := h.chain.head?.getD root

/-- The open headers from the whole document downwards. -/
def openChain (h : HeaderTree) : List HeaderId := h.chain.reverse

def close (h : HeaderTree) (level : Level) : List HeaderId → List HeaderId
  | [] => []
  | [last] => [last]
  | id :: outer => if level ≤ h.level id then close h level outer else id :: outer

structure Entered where
  id : HeaderId
  parent : HeaderId
deriving DecidableEq, Repr

/-- Closes what a header does not stand under, and puts it under the rest. -/
def enter (h : HeaderTree) (node : NodeId) (level : Level) : Entered × HeaderTree :=
  let outer := h.close level h.chain
  let parent := outer.head?.getD root
  let id := h.nodes.size
  let nodes := (h.nodes.push ⟨some node, some parent, [], level⟩).modify parent fun entry =>
    { entry with children := entry.children ++ [id] }
  (⟨id, parent⟩, ⟨nodes, id :: outer, some level⟩)

structure Linked extends Entered where
  /-- The levels between which others have been left out. -/
  skipped : Option (Level × Level)
deriving DecidableEq, Repr

/-- A level may exceed the one before it by one. -/
def skip? (previous : Option Level) (level : Level) : Except Abort (Option (Level × Level)) :=
  match previous with
  | none => .ok none
  | some previous => previous.next.map fun next =>
    if next < level then some (previous, level) else none

/-- Enters a header, unless its level cannot be compared with the one before. -/
def link (h : HeaderTree) (node : NodeId) (level : Level) : Except Abort (Linked × HeaderTree) :=
  (skip? h.previousLevel level).map fun skipped =>
    let (entered, next) := h.enter node level
    ({ entered with skipped }, next)

def headers (h : HeaderTree) : List (HeaderId × HeaderNode) :=
  (h.nodes.toList.zipIdx.map fun (entry, id) => (id, entry)).drop 1

def ancestors (h : HeaderTree) (id : HeaderId) : List HeaderId :=
  let rec go : Nat → HeaderId → List HeaderId
    | 0, _ => []
    | depth + 1, id =>
      match (h.get? id).bind (·.parent) with
      | some parent => parent :: go depth parent
      | none => []
  go h.nodes.size id

end HeaderTree
end Macromark
