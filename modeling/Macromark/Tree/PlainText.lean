import Macromark.Registry
import Macromark.Text.Quoted
import Macromark.Tree

/-!
# The texts of a tree

The words of a node without any markup, of which titles, identifiers, link
targets and attribute values are made; and a drawing of the whole tree, with one
line for each node and for each argument that the author wrote or that is not
just empty.
-/

namespace Macromark.Tree

-- ----------------------------------------------------------------------------
-- Plain text
-- ----------------------------------------------------------------------------

def plainTextOfCall (rendering : Rendering) (call : MacroCall) (below : NodeId → String) : String :=
  let text (argument : String) : String := String.join ((call.children argument).map below)
  match rendering with
  | .toplevel | .block _ | .inline _ | .code | .table => text "content"
  | .header | .image => text "title"
  | .lineBreak => "\n"
  | .link | .crossReference => if text "content" = "" then text "href" else text "content"
  | .contents | .inclusion => ""

def plainText (t : Tree) (registry : Registry) : NodeId → String :=
  t.recurse (fun _ node below =>
    match node.kind with
    | .plaintext text => text
    | .paragraphBreak => "\n\n"
    | .error _ => ""
    | .call call =>
      match registry.get? call.name with
      | some definition => plainTextOfCall definition.rendering call below
      | none => "") ""

def argumentText (t : Tree) (registry : Registry) (id : NodeId) (argument : String) : String :=
  match t.call? id with
  | some call => String.join ((call.children argument).map (t.plainText registry))
  | none => ""

end Macromark.Tree

namespace Macromark.Drawing

-- ----------------------------------------------------------------------------
-- Drawing
-- ----------------------------------------------------------------------------

def icon (macroName : String) : String :=
  if macroName = "toplevel" then "⧉"
  else if macroName = "h" then "§"
  else if macroName = "p" then "¶"
  else if macroName = "Ul" ∨ macroName = "Ol" then "☰"
  else if macroName = "L" then "•"
  else if macroName = "x" then "⊕"
  else if macroName = "C" ∨ macroName = "c" then "ƒ"
  else if macroName = "Table" then "▦"
  else if macroName = "Image" then "▣"
  else "○"

def shorten (limit : Nat) (s : String) : String :=
  if limit < s.length then .ofList (s.toList.take limit) ++ "..." else s

def body : NodeKind → String
  | .call call =>
    let id := match call.id with
      | some id => s!" #{id}"
      | none => ""
    let count := match call.count with
      | some count => s!" ({count})"
      | none => ""
    s!"{icon call.name} {call.name}{id}{count}"
  | .plaintext text => s!"◦ {Text.quoted (shorten 30 text)}"
  | .paragraphBreak => "↵ paragraph break"
  | .error message => s!"✗ {message}"

def twoDigits (n : Nat) : String := if n < 10 then s!"0{n}" else s!"{n}"

def label (positions : Bool) (node : Node) : String :=
  if positions then
    s!"{twoDigits node.position.line}:{twoDigits node.position.column} {body node.kind}"
  else body node.kind

def isVisible (t : Tree) (argument : Argument) : Bool :=
  argument.supplied || argument.children.any fun child => t.plaintext? child != some ""

/-- Draws every item under a connector, and tells it how far to indent what
stands under it. -/
def branch {α : Type} (draw : α → String → String × String) (indent : String) :
    List α → String
  | [] => ""
  | [item] =>
    let (line, below) := draw item (indent ++ "   ")
    s!"{indent}└─ {line}\n{below}"
  | item :: rest =>
    let (line, below) := draw item (indent ++ "│  ")
    s!"{indent}├─ {line}\n{below}" ++ branch draw indent rest

/-- What stands under a node, at a given indentation. -/
def below (t : Tree) (positions : Bool) (id : NodeId) : String → String :=
  t.recurse (fun _ node deeper indent =>
    match node.kind with
    | .call call =>
      branch (fun (argument : Argument) inner =>
        (s!"≡ {argument.name}",
          branch (fun child innermost =>
            (((t.get? child).map (label positions)).getD "", deeper child innermost))
            inner argument.children))
        indent (call.arguments.filter (isVisible t))
    | _ => "") (fun _ => "") id

end Drawing

def Tree.draw (t : Tree) (positions : Bool) : String :=
  match t.get? t.root with
  | some node => s!"{Drawing.label positions node}\n" ++ Drawing.below t positions t.root ""
  | none => ""

end Macromark
