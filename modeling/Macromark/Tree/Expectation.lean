import Macromark.Text.Quoted
import Macromark.Tree.PlainText

/-!
# Expectations of a tree

What a reader of a tree may expect of its nodes, as a value that can be
checked. The first expectation that is not met is told together with the path
that leads to its node.
-/

namespace Macromark

inductive Expectation where
  /-- The name of the macro, or the kind of another node. -/
  | label (name : String)
  | plaintext (text : String)
  | errorMentioning (fragment : String)
  | id (id : String)
  | noId
  | count (count : Nat)
  /-- The plain text of the node. -/
  | text (text : String)
  | supplied (argument : String)
  | childCount (count : Nat)
  | childLabels (argument : String) (labels : List String)
  /-- What is expected of one child of an argument. -/
  | child (argument : String) (index : Nat) (inner : List Expectation)
deriving Repr

namespace Expectation

def occursIn (fragment : List Char) : List Char → Bool
  | [] => fragment.isEmpty
  | c :: rest => fragment.isPrefixOf (c :: rest) || occursIn fragment rest

def told {α : Type} (show_ : α → String) : Option α → String
  | none => "None"
  | some a => s!"Some({show_ a})"

structure Focus where
  registry : Registry
  tree : Tree
  node : NodeId
  path : String

namespace Focus

variable (f : Focus)

def labelOf (node : NodeId) : String := ((f.tree.get? node).map Node.label).getD ""

def ownLabel : String := f.labelOf f.node

def fail {α : Type} (message : String) : Except String α := .error s!"{f.path}: {message}"

def require (condition : Bool) (message : String) : Except String Unit :=
  if condition then .ok () else f.fail message

/-- The children of an argument that has to be there. -/
def children (argument : String) : Except String (List NodeId) :=
  match f.tree.call? f.node with
  | none => f.fail s!"Expected a macro, found {f.ownLabel}"
  | some call =>
    match call.argument? argument with
    | some a => .ok a.children
    | none => f.fail s!"macro '{call.name}' has no argument '{argument}'"

def summary (nodes : List NodeId) : String := ", ".intercalate (nodes.map f.labelOf)

def plaintextIs (expected : String) : Except String Unit :=
  match f.tree.plaintext? f.node with
  | none => f.fail s!"Expected plaintext, found {f.ownLabel}"
  | some found =>
    f.require (found == expected)
      s!"Expected plaintext {Text.quoted expected}, found {Text.quoted found}"

def errorMentions (fragment : String) : Except String Unit :=
  match f.tree.kind? f.node with
  | some (.error message) =>
    f.require (occursIn fragment.toList message.toList)
      s!"Expected error mentioning {Text.quoted fragment}, found {Text.quoted message}"
  | _ => f.fail s!"Expected an error node, found {f.ownLabel}"

def ownId : Option String := (f.tree.call? f.node).bind (·.id)

def ownCount : Option Nat := (f.tree.call? f.node).bind (·.count)

end Focus

mutual
def check (f : Focus) : Expectation → Except String Unit
  | label name =>
    f.require (f.ownLabel == name) s!"Expected macro '{name}', found '{f.ownLabel}'"
  | plaintext expected => f.plaintextIs expected
  | errorMentioning fragment => f.errorMentions fragment
  | id expected =>
    f.require (f.ownId == some expected)
      s!"Expected id '{expected}', found {told Text.quoted f.ownId}"
  | noId => f.require f.ownId.isNone s!"Expected no id, found {told Text.quoted f.ownId}"
  | count expected =>
    f.require (f.ownCount == some expected)
      s!"Expected count {expected}, found {told toString f.ownCount}"
  | text expected =>
    let actual := f.tree.plainText f.registry f.node
    f.require (actual == expected)
      s!"Expected text {Text.quoted expected}, found {Text.quoted actual}"
  | supplied argument =>
    f.require (((f.tree.call? f.node).map (·.supplies argument)).getD false)
      s!"Expected argument '{argument}' to be supplied"
  | childCount expected => do
    let children ← f.children "content"
    f.require (children.length == expected)
      s!"Expected {expected} children, found {children.length} [{f.summary children}]"
  | childLabels argument labels => do
    let children ← f.children argument
    f.require (children.map f.labelOf == labels) s!"unexpected children of '{argument}'"
  | child argument index inner => do
    let children ← f.children argument
    match children[index]? with
    | none => f.fail s!"argument '{argument}' has no child {index} [{f.summary children}]"
    | some node => checkAll { f with node, path := s!"{f.path}.{argument}[{index}]" } inner
def checkAll (f : Focus) : List Expectation → Except String Unit
  | [] => .ok ()
  | e :: rest => do
    check f e
    checkAll f rest
end

end Expectation

def Tree.expect (t : Tree) (registry : Registry) (expectations : List Expectation) :
    Except String Unit :=
  Expectation.checkAll ⟨registry, t, t.root, "toplevel"⟩ expectations

end Macromark
