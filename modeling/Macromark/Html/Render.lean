import Macromark.Assembly
import Macromark.Html
import Macromark.Outline.Contents
import Macromark.Record
import Macromark.Reference.Selection
import Macromark.Store

/-!
# From the document to HTML

Each macro is rendered by the kind that its definition names; there are the
kinds of the built-in macros and no others, so that a registry with a renderer
of the caller's own is outside of this. What cannot be rendered leaves a visible
mark; where the problem is not known from an earlier stage, the mark comes with
a diagnostic.
-/

namespace Macromark

structure Rendered where
  html : List Html
  diagnostics : List Diagnostic
deriving Repr

namespace Rendered

def empty : Rendered := ⟨[], []⟩

def append (first second : Rendered) : Rendered :=
  ⟨first.html ++ second.html, first.diagnostics ++ second.diagnostics⟩

instance : Append Rendered := ⟨append⟩

def join (pieces : List Rendered) : Rendered :=
  ⟨pieces.flatMap (·.html), pieces.flatMap (·.diagnostics)⟩

def within (r : Rendered) (f : List Html → List Html) : Rendered := { r with html := f r.html }

end Rendered

structure RenderContext where
  registry : Registry
  document : String
  tree : Tree
  index : Index
  headers : HeaderTree
  store : Option Store
  resolutions : OrderedMap NodeId Resolution
  /-- The file name extension of other documents. -/
  extension : String

namespace RenderContext

variable (ctx : RenderContext)

/-- The record of an identifier, in this document or else in another one. -/
def record? (id : String) : Option IdRecord :=
  (ctx.index.record? id).or
    (ctx.store.bind fun store => (store.lookup [id] [ctx.document]).head?)

def text (call : MacroCall) (argument : String) : String :=
  String.join ((call.children argument).map (ctx.tree.plainText ctx.registry))

def anchor (r : IdRecord) : String := "#" ++ escapeAttribute r.id

def page (r : IdRecord) : String := s!"{escapeAttribute r.document}.{ctx.extension}"

def href (r : IdRecord) : Html.Attribute :=
  ⟨"href",
    if r.document = ctx.document then anchor r
    else if r.isDocument then ctx.page r
    else ctx.page r ++ anchor r⟩

def fault (position : Position) (fault : LinkFault) : Rendered :=
  ⟨[.marker fault.message], [⟨.brokenLink fault, position, ctx.document⟩]⟩

end RenderContext

-- ----------------------------------------------------------------------------
-- Single macros
-- ----------------------------------------------------------------------------

structure Scene where
  id : NodeId
  node : Node
  call : MacroCall
  /-- How a child is rendered, in the title of a header or elsewhere. -/
  below : NodeId → Bool → Rendered
  inTitle : Bool

namespace Scene

variable (scene : Scene) (ctx : RenderContext)

def argument (name : String) (inTitle : Bool) : Rendered :=
  .join ((scene.call.children name).map (scene.below · inTitle))

def argumentPosition (name : String) : Position :=
  ((scene.call.argument? name).map (·.position)).getD scene.node.position

def idAttribute : List Html.Attribute := (scene.call.id.map (.of "id")).toList

/-- The number and the title of a macro that has an identifier. -/
def caption : Option (List Html) × List Diagnostic :=
  match scene.call.id.bind ctx.index.record? with
  | none => (none, [])
  | some record =>
    let title := scene.argument "title" scene.inTitle
    let words := Html.trim title.html
    let html := match record.numberedCaption?, words with
      | none, words => words
      | some number, [] => [.text number]
      | some number, words => .text number :: .text ". " :: words
    (if html.isEmpty then none else some html, title.diagnostics)

def header : Rendered :=
  if Text.isTruthy (ctx.text scene.call "synonym") then .empty
  else
    let level := min ((Level.parse? (ctx.text scene.call "level")).getD 1) 6
    (scene.argument "title" true).within fun title =>
      [.element s!"h{level}" scene.idAttribute title, .text "\n"]

def link : Rendered :=
  let target := ctx.text scene.call "href"
  (scene.argument "content" scene.inTitle).within fun content =>
    [.element "a" [.of "href" target]
      (if Html.isNothing content then [.text target] else content)]

/-- The target of a link. A link that was never resolved names it itself. -/
def linkTarget : Resolution :=
  (ctx.resolutions.get? scene.id).getD (.target (ctx.text scene.call "href"))

/-- The record that a link takes its words from. A synonym shows its own title
with the number of the header that it stands for. -/
def wordsFrom (record named : IdRecord) : IdRecord :=
  { record with count := named.count, caption := named.caption, linkStyle := named.linkStyle }

def crossReference : Rendered :=
  let here := scene.argumentPosition "href"
  match LinkStyle.parse (ctx.text scene.call "style") with
  | .error fault => ctx.fault (scene.argumentPosition "style") fault
  | .ok style =>
    match scene.linkTarget ctx with
    | .unknown target => ⟨[.marker (LinkFault.unknownTarget target).message], []⟩
    | .target target =>
      match ctx.record? target with
      | none => ctx.fault here (.unknownTarget target)
      | some record =>
        if scene.inTitle ∧ !record.isHeader then ctx.fault here (.titleTarget target)
        else
          let named := (record.synonymOf.bind ctx.record?).getD record
          let words := wordsFrom record named
          let content :=
            if scene.call.supplies "content" then scene.argument "content" scene.inTitle
            else .empty
          if Html.isNothing content.html then
            match linkText words (style.getD words.linkStyle) with
            | .ok text =>
              ⟨[.element "a" [ctx.href named] [.text text]], content.diagnostics⟩
            | .error fault => ⟨[], content.diagnostics⟩ ++ ctx.fault here fault
          else content.within fun html => [.element "a" [ctx.href named] html]

def code : Rendered :=
  let content := scene.argument "content" scene.inTitle
  let (caption, diagnostics) := scene.caption ctx
  let pre (attributes : List Html.Attribute) : Html :=
    .element "pre" attributes [.element "code" [] content.html]
  let html := match caption with
    | some words =>
      Html.element "figure" (scene.idAttribute ++ [.of "class" "code"])
        [.element "figcaption" [] words, pre []]
    | none => pre scene.idAttribute
  ⟨[html, .text "\n"], content.diagnostics ++ diagnostics⟩

def table : Rendered :=
  let (caption, diagnostics) := scene.caption ctx
  let rows := scene.argument "content" scene.inTitle
  let above := (caption.map (Html.element "caption" [])).toList
  ⟨[.element "table" scene.idAttribute (above ++ rows.html), .text "\n"],
    diagnostics ++ rows.diagnostics⟩

def image : Rendered :=
  let (caption, diagnostics) := scene.caption ctx
  let picture := Html.void "img"
    [.of "src" (ctx.text scene.call "src"), .of "alt" (ctx.text scene.call "title")]
  let below := (caption.map (Html.element "figcaption" [])).toList
  ⟨[.element "figure" scene.idAttribute (picture :: below), .text "\n"], diagnostics⟩

def inclusion : Rendered :=
  let target := Text.trim (ctx.text scene.call "href")
  match (ctx.record? target).filter (·.isDocument) with
  | some record =>
    let title := if record.title = "" then record.document else record.title
    ⟨[.element "p" [.of "class" "include"] [.element "a" [ctx.href record] [.text title]],
      .text "\n"], []⟩
  | none => ⟨[.marker (Problem.missingDocument target).message], []⟩

def render : Rendering → Rendered
  | .toplevel => scene.argument "content" scene.inTitle
  | .header => scene.header ctx
  | .block tag =>
    (scene.argument "content" scene.inTitle).within fun content =>
      [.element tag scene.idAttribute content, .text "\n"]
  | .inline tag =>
    (scene.argument "content" scene.inTitle).within fun content => [.element tag [] content]
  | .lineBreak => ⟨[.void "br" []], []⟩
  | .link => scene.link ctx
  | .crossReference => scene.crossReference ctx
  | .code => scene.code ctx
  | .table => scene.table ctx
  | .image => scene.image ctx
  | .contents => ⟨Contents.render (Contents.build ctx.registry ctx.tree ctx.headers), []⟩
  | .inclusion => scene.inclusion ctx

end Scene

-- ----------------------------------------------------------------------------
-- Whole documents
-- ----------------------------------------------------------------------------

namespace RenderContext

variable (ctx : RenderContext)

def renderNode (id : NodeId) (node : Node) (below : NodeId → Bool → Rendered)
    (inTitle : Bool) : Rendered :=
  match node.kind with
  | .plaintext text => ⟨[.text text], []⟩
  | .paragraphBreak => .empty
  | .error message => ⟨[.marker message], []⟩
  | .call call =>
    match ctx.registry.get? call.name with
    | some definition => Scene.render ⟨id, node, call, below, inTitle⟩ ctx definition.rendering
    | none => ⟨[.marker (Problem.unknownMacro call.name).message], []⟩

def render (id : NodeId) : Rendered :=
  ctx.tree.recurse ctx.renderNode (fun _ => .empty) id false

def body : Rendered := if ctx.tree.isEmpty then .empty else ctx.render ctx.tree.root

def wholePage (title body : String) : String :=
  "<!doctype html>\n<html lang=\"en\">\n<head>\n<meta charset=\"utf-8\">\n<title>" ++
    escapeText title ++ "</title>\n</head>\n<body>\n" ++ body ++ "</body>\n</html>\n"

def renderDocument (bodyOnly : Bool) : String × List Diagnostic :=
  let rendered := ctx.body
  let body := Html.writeAll rendered.html
  let title := Assembly.documentTitle ctx.registry ctx.tree ctx.headers
  (if bodyOnly then body else wholePage (Text.trim title) body, rendered.diagnostics)

end RenderContext
end Macromark
