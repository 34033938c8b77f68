import Macromark.Record
import Macromark.Registry
import Macromark.Text.Basic
import Macromark.Tree

/-!
# Implied containers and paragraphs

List items, table rows and table cells may be written without what holds them.
Two or more of them in a row are put into their container; blank text between
them does not end the row and is left out. In an argument of a container, blank
text is left out altogether, so that both ways of writing give one tree.

Paragraph breaks part the children of an argument into chunks and are gone
then. A chunk that begins with text, or with a macro that belongs into text, is
a paragraph; any other chunk stands as it is.
-/

namespace Macromark

-- ----------------------------------------------------------------------------
-- Macros that the author left out
-- ----------------------------------------------------------------------------

/-- The arguments of a macro whose `content` is given. The content is used up
by the first argument of that name. -/
def synthesizeArguments (position : Position) :
    List String → Option (List NodeId) → Tree → List Argument × Tree
  | [], _, tree => ([], tree)
  | name :: names, content, tree =>
    let given := if name = "content" then content else none
    let left := if name = "content" then none else content
    match given with
    | some (child :: children) =>
      let (arguments, tree) := synthesizeArguments position names left tree
      (⟨name, child :: children, position, true⟩ :: arguments, tree)
    | _ =>
      let (id, tree) := tree.push (.plaintext "") position
      let (arguments, tree) := synthesizeArguments position names left tree
      (⟨name, [id], position, given.isSome⟩ :: arguments, tree)

/-- Puts nodes into a new macro. There is none if the macro is not defined or
takes no content. -/
def synthesize (registry : Registry) (name : String) (content : List NodeId) (position : Position)
    (tree : Tree) : Option (NodeId × Tree) :=
  match registry.get? name with
  | none => none
  | some definition =>
    if definition.declares "content" then
      let (arguments, tree) :=
        synthesizeArguments position definition.argumentNames (some content) tree
      some (tree.pushCall { name, arguments, synthetic := true } position)
    else none

-- ----------------------------------------------------------------------------
-- Containers
-- ----------------------------------------------------------------------------

/-- The container that a node asks for where it stands in `owner`. -/
def containerFor (registry : Registry) (tree : Tree) (owner : String) (node : NodeId) :
    Option String := do
  let call ← tree.call? node
  let definition ← registry.get? call.name
  let gathering ← definition.gathering
  if gathering.container = owner ∨ gathering.skip.contains owner then none
  else some gathering.container

def isBlankNode (tree : Tree) (node : NodeId) : Bool := (tree.plaintext? node).any Text.isBlank

/-- The rest of a row that has begun: further members and the blank text
between them. -/
def rowBehind (isMember isBlank : NodeId → Bool) (rest : List NodeId) : List NodeId :=
  Text.dropEnd (fun node => !isMember node)
    (rest.takeWhile fun node => isMember node || isBlank node)

/-- Puts every row of two or more into its container. -/
def gatherRows (registry : Registry) (owner : String) :
    List NodeId → Tree → List NodeId × Tree
  | [], tree => ([], tree)
  | node :: rest, tree =>
    match containerFor registry tree owner node with
    | none =>
      let (gathered, tree) := gatherRows registry owner rest tree
      (node :: gathered, tree)
    | some container =>
      let isMember (other : NodeId) : Bool :=
        containerFor registry tree owner other == some container
      let row := rowBehind isMember (isBlankNode tree) rest
      if row = [] then
        let (gathered, tree) := gatherRows registry owner rest tree
        (node :: gathered, tree)
      else
        match synthesize registry container (node :: row.filter isMember) (tree.position node) tree
        with
        | some (wrapper, tree) =>
          let (gathered, tree) := gatherRows registry owner (rest.drop row.length) tree
          (wrapper :: gathered, tree)
        | none =>
          let (gathered, tree) := gatherRows registry owner (rest.drop row.length) tree
          (node :: row ++ gathered, tree)
termination_by nodes => nodes.length
decreasing_by all_goals simp only [List.length_drop, List.length_cons]; omega

def gather (registry : Registry) (owner : String) (children : List NodeId) (tree : Tree) :
    List NodeId × Tree :=
  gatherRows registry owner
    (if registry.isContainer owner then children.filter (!isBlankNode tree ·) else children) tree

-- ----------------------------------------------------------------------------
-- Paragraphs
-- ----------------------------------------------------------------------------

/-- Text, a visible error, or a macro that may stand in a paragraph. -/
def isPhrasing (registry : Registry) (tree : Tree) (node : NodeId) : Bool :=
  match tree.kind? node with
  | some (.plaintext _) | some (.error _) => true
  | some (.call call) => registry.isPhrasing call.name
  | _ => false

/-- The children between the breaks. -/
def chunks (tree : Tree) : List NodeId → List (List NodeId)
  | [] => [[]]
  | node :: rest =>
    if tree.isParagraphBreak node then [] :: chunks tree rest
    else
      match chunks tree rest with
      | first :: others => (node :: first) :: others
      | [] => [[node]]

/-- Cuts a row of nodes at its front: texts that `cut` leaves empty go, and
the first one that is left is cut. -/
def trimFront (cut : List Char → List Char) : List NodeId → Tree → List NodeId × Tree
  | [], tree => ([], tree)
  | node :: rest, tree =>
    match tree.plaintext? node with
    | none => (node :: rest, tree)
    | some text =>
      match cut text.toList with
      | [] => trimFront cut rest tree
      | kept => (node :: rest, tree.setKind node (.plaintext (.ofList kept)))

def isNewline (c : Char) : Bool := c == '\n'

/-- Takes line ends off both edges of a chunk. -/
def trimChunk (chunk : List NodeId) (tree : Tree) : List NodeId × Tree :=
  let (chunk, tree) := trimFront (·.dropWhile isNewline) chunk tree
  let (backwards, tree) := trimFront (Text.dropEnd isNewline) chunk.reverse tree
  (backwards.reverse, tree)

def wrapChunk (registry : Registry) (chunk : List NodeId) (tree : Tree) : List NodeId × Tree :=
  match trimChunk chunk tree with
  | ([], tree) => ([], tree)
  | (first :: rest, tree) =>
    if isPhrasing registry tree first then
      match synthesize registry MacroName.paragraph (first :: rest) (tree.position first) tree with
      | some (paragraph, tree) => ([paragraph], tree)
      | none => (first :: rest, tree)
    else (first :: rest, tree)

def wrapChunks (registry : Registry) : List (List NodeId) → Tree → List NodeId × Tree
  | [], tree => ([], tree)
  | chunk :: others, tree =>
    let (wrapped, tree) := wrapChunk registry chunk tree
    let (rest, tree) := wrapChunks registry others tree
    (wrapped ++ rest, tree)

def insertParagraphs (registry : Registry) (children : List NodeId) (tree : Tree) :
    List NodeId × Tree :=
  wrapChunks registry (chunks tree children) tree

end Macromark
