import Macromark.Html
import Macromark.Outline.HeaderTree
import Macromark.Tree.PlainText

/-!
# Tables of contents

An entry for each header, under that of its parent. Its number is the path of
places among siblings that leads to it, which has nothing to do with the number
that a link shows.
-/

namespace Macromark

inductive ContentsEntry where
  | entry (id : Option String) (title : String) (level : Level) (path : List Nat)
    (children : List ContentsEntry)
deriving Repr

namespace Contents

def number (path : List Nat) : String := ".".intercalate (path.map toString)

/-- The entries of the headers under `parent`, down to a depth. -/
def entriesUnder (registry : Registry) (tree : Tree) (headers : HeaderTree) :
    Nat → List Nat → HeaderId → List ContentsEntry
  | 0, _, _ => []
  | depth + 1, path, parent =>
    match headers.get? parent with
    | none => []
    | some above =>
      above.children.zipIdx.filterMap fun (child, i) =>
        (headers.get? child).map fun header =>
          let path := path ++ [i + 1]
          .entry (header.node.bind fun node => (tree.call? node).bind (·.id))
            (match header.node with
              | some node => Text.trim (tree.argumentText registry node "title")
              | none => "")
            header.level path (entriesUnder registry tree headers depth path child)

def build (registry : Registry) (tree : Tree) (headers : HeaderTree) : List ContentsEntry :=
  entriesUnder registry tree headers headers.nodes.size [] HeaderTree.root

mutual
def renderEntry : ContentsEntry → Html
  | .entry id title _ path children =>
    let label := Html.text s!"{number path}. {title}"
    let label := match id with
      | some id => Html.element "a" [⟨"href", "#" ++ escapeAttribute id⟩] [label]
      | none => label
    .element "li" [] (label :: renderList children)
def renderEntries : List ContentsEntry → List Html
  | [] => []
  | e :: rest => renderEntry e :: renderEntries rest
def renderList : List ContentsEntry → List Html
  | [] => []
  | e :: rest => [.element "ul" [] (renderEntry e :: renderEntries rest)]
end

def render (entries : List ContentsEntry) : List Html :=
  [.element "nav" [.of "class" "toc"] (renderList entries), .text "\n"]

end Contents
end Macromark
