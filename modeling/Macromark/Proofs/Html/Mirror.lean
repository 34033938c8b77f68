import Macromark.Proofs.Assembly.Lockstep
import Macromark.Proofs.Html.Recursion

/-!
# Two renderings of one document

The output of a macro depends on the numbers of the nodes and on positions only
in what is reported. Where two documents differ in nothing else, twins are
rendered as the same HTML (`RenderContext.Mirrors.html_eq`).
-/

namespace Macromark

variable {R : NodeId → NodeId → Prop} {x y : NodeId}

/-- What is rendered differs in the numbers of the nodes and in where they stand. -/
structure RenderContext.Mirrors (ctx ctx' : RenderContext) (R : NodeId → NodeId → Prop) : Prop where
  registry : ctx.registry = ctx'.registry
  document : ctx.document = ctx'.document
  store : ctx.store = ctx'.store
  extension : ctx.extension = ctx'.extension
  likeness : ctx.tree.Likeness ctx'.tree R
  acyclic : ctx.tree.Acyclic
  acyclic' : ctx'.tree.Acyclic
  labels : ∀ x y, R x y → ctx.tree.label x = ctx'.tree.label y
  index : ctx.index.Like R ctx'.index
  headers : ctx.headers.Like R ctx'.headers
  targets : ∀ x y, R x y → ctx.tree.name? x = some MacroName.crossReference →
    ctx.resolutions.get? x = ctx'.resolutions.get? y

theorem IdRecord.Like.cases {r r' : IdRecord} (h : r.Like r') :
    ∃ location, r' = { r with location } := ⟨_, h⟩

namespace RenderContext.Mirrors

variable {ctx ctx' : RenderContext} (h : ctx.Mirrors ctx' R)
include h

theorem record?_like (id : String) : Option.Rel IdRecord.Like (ctx.record? id) (ctx'.record? id) := by
  have hown := h.index.record? id
  unfold record?
  rw [h.store, h.document]
  generalize ctx.index.record? id = r at hown ⊢
  generalize ctx'.index.record? id = r' at hown ⊢
  cases hown with
  | some hsame => exact .some hsame
  | none =>
    simp only [Option.none_or]
    cases ctx'.store.bind fun store => (store.lookup [id] [ctx'.document]).head? with
    | none => exact .none
    | some r => exact .some rfl

/-- The record that a link shows the number of. -/
theorem named_like {r r' : IdRecord} (hr : r.Like r') :
    IdRecord.Like ((r.synonymOf.bind ctx.record?).getD r)
      ((r'.synonymOf.bind ctx'.record?).getD r') := by
  have hsynonym : r'.synonymOf = r.synonymOf := by
    obtain ⟨location, rfl⟩ := hr.cases
    rfl
  rw [hsynonym]
  cases r.synonymOf with
  | none => exact hr
  | some id =>
    have hother := h.record?_like id
    simp only [Option.bind_some]
    generalize ctx.record? id = other at hother ⊢
    generalize ctx'.record? id = other' at hother ⊢
    cases hother with
    | none => exact hr
    | some hother => exact hother

theorem text_eq {call call' : MacroCall} (hcall : call.Like R call') (argument : String) :
    ctx.text call argument = ctx'.text call' argument := by
  rw [text, text, h.registry]
  exact congrArg String.join
    (hcall.map_children argument fun x _ y hxy => h.likeness.plainText_eq h.acyclic h.acyclic' hxy)

theorem href_eq {r r' : IdRecord} (hr : r.Like r') : ctx.href r = ctx'.href r' := by
  obtain ⟨location, rfl⟩ := hr.cases
  rw [href, href, page, page, h.document, h.extension]
  rfl

end RenderContext.Mirrors

-- ----------------------------------------------------------------------------
-- Tables of contents
-- ----------------------------------------------------------------------------

theorem Contents.build_eq {registry : Registry} {t u : Tree} {headers headers' : HeaderTree}
    (hlike : t.Likeness u R) (ht : t.Acyclic) (hu : u.Acyclic)
    (hlabels : ∀ x y, R x y → t.label x = u.label y) (hheaders : headers.Like R headers') :
    build registry t headers = build registry u headers' := by
  have hentries : ∀ depth path parent,
      entriesUnder registry t headers depth path parent =
        entriesUnder registry u headers' depth path parent := by
    intro depth
    induction depth with
    | zero => exact fun _ _ => rfl
    | succ depth ih =>
      intro path parent
      have habove := hheaders.nodes parent
      unfold entriesUnder
      generalize headers.get? parent = above at habove
      generalize headers'.get? parent = above' at habove
      cases habove with
      | none => rfl
      | some habove =>
        simp only [habove.children]
        refine List.filterMap_congr fun place _ => ?_
        have hheader := hheaders.nodes place.1
        simp only [ih]
        generalize headers.get? place.1 = header at hheader
        generalize headers'.get? place.1 = header' at hheader
        cases hheader with
        | none => rfl
        | @some header header' hsame =>
          have hnode := hsame.node
          simp only [Option.map_some, hsame.level]
          generalize header.node = node at hnode
          generalize header'.node = node' at hnode
          cases hnode with
          | none => rfl
          | some hxy =>
            simp only [Option.bind_some, ← Tree.id?_eq, Tree.id?, hlabels _ _ hxy,
              hlike.argumentText_eq ht hu hxy]
  rw [build, build, hheaders.size, hentries]

-- ----------------------------------------------------------------------------
-- Single macros
-- ----------------------------------------------------------------------------

/-- Macros whose children are rendered as the same HTML. -/
structure Scene.Mirrors (scene scene' : Scene) (R : NodeId → NodeId → Prop) : Prop where
  id : R scene.id scene'.id
  call : scene.call.Like R scene'.call
  named : scene.call.id = scene'.call.id
  inTitle : scene.inTitle = scene'.inTitle
  below : ∀ child ∈ scene.call.allChildren, ∀ child', R child child' → ∀ title,
    (scene.below child title).html = (scene'.below child' title).html

namespace Scene.Mirrors

variable {ctx ctx' : RenderContext} {scene scene' : Scene} (h : scene.Mirrors scene' R)
include h

theorem argument_html (name : String) (title : Bool) :
    (scene.argument name title).html = (scene'.argument name title).html := by
  have hchildren := h.call.map_children name
    (f := fun child => (scene.below child title).html)
    (g := fun child => (scene'.below child title).html)
    fun child hchild child' hxy => h.below child (MacroCall.mem_allChildren hchild) child' hxy title
  simp only [argument, Rendered.join, List.flatMap_map]
  exact congrArg List.flatten hchildren

theorem content_html (name : String) :
    (scene.argument name scene.inTitle).html = (scene'.argument name scene'.inTitle).html := by
  rw [h.inTitle]
  exact h.argument_html name scene'.inTitle

theorem idAttribute_eq : scene.idAttribute = scene'.idAttribute := by
  rw [idAttribute, idAttribute, h.named]

theorem caption_eq (hctx : ctx.Mirrors ctx' R) :
    (scene.caption ctx).1 = (scene'.caption ctx').1 := by
  have hrecord : Option.Rel IdRecord.Like (scene.call.id.bind ctx.index.record?)
      (scene'.call.id.bind ctx'.index.record?) := by
    rw [h.named]
    cases scene'.call.id with
    | none => exact .none
    | some id => exact hctx.index.record? id
  unfold caption
  generalize scene.call.id.bind ctx.index.record? = r at hrecord ⊢
  generalize scene'.call.id.bind ctx'.index.record? = r' at hrecord ⊢
  cases hrecord with
  | none => rfl
  | some hsame =>
    obtain ⟨location, rfl⟩ := hsame.cases
    simp only [h.content_html "title"]
    rfl

theorem header_html (hctx : ctx.Mirrors ctx' R) :
    (scene.header ctx).html = (scene'.header ctx').html := by
  simp only [header, hctx.text_eq h.call]
  split
  · rfl
  · simp only [Rendered.within, h.argument_html, h.idAttribute_eq]

theorem linkTarget_eq (hctx : ctx.Mirrors ctx' R)
    (hname : ctx.tree.name? scene.id = some MacroName.crossReference) :
    scene.linkTarget ctx = scene'.linkTarget ctx' := by
  rw [linkTarget, linkTarget, hctx.targets _ _ h.id hname, hctx.text_eq h.call]

theorem ownWords_html :
    (if scene.call.supplies "content" then scene.argument "content" scene.inTitle
      else Rendered.empty).html =
    (if scene'.call.supplies "content" then scene'.argument "content" scene'.inTitle
      else Rendered.empty).html := by
  rw [h.call.supplies]
  split
  · exact h.content_html "content"
  · rfl

theorem crossReference_html (hctx : ctx.Mirrors ctx' R)
    (hname : ctx.tree.name? scene.id = some MacroName.crossReference) :
    (scene.crossReference ctx).html = (scene'.crossReference ctx').html := by
  have hcontent := h.ownWords_html
  simp only [crossReference, hctx.text_eq h.call, h.linkTarget_eq hctx hname]
  generalize (if scene.call.supplies "content" then
    scene.argument "content" scene.inTitle else Rendered.empty) = content at hcontent ⊢
  generalize (if scene'.call.supplies "content" then
    scene'.argument "content" scene'.inTitle else Rendered.empty) = content' at hcontent ⊢
  cases LinkStyle.parse (ctx'.text scene'.call "style") with
  | error fault => rfl
  | ok style =>
    simp only
    cases scene'.linkTarget ctx' with
    | unknown target => rfl
    | target target =>
      have hrecord := hctx.record?_like target
      simp only
      generalize ctx.record? target = r at hrecord
      generalize ctx'.record? target = r' at hrecord
      cases hrecord with
      | none => rfl
      | @some r r' hsame =>
        have hnamed := hctx.named_like hsame
        simp only
        generalize (r.synonymOf.bind ctx.record?).getD r = named at hnamed ⊢
        generalize (r'.synonymOf.bind ctx'.record?).getD r' = named' at hnamed ⊢
        have hhref := hctx.href_eq hnamed
        obtain ⟨location, rfl⟩ := hsame.cases
        obtain ⟨location', rfl⟩ := hnamed.cases
        simp only [h.inTitle, hcontent, hhref]
        split
        · rfl
        · split
          · have hwords : ∀ style, linkText (wordsFrom { r with location }
                { named with location := location' }) style = linkText (wordsFrom r named) style :=
              fun _ => rfl
            have hstyle : (wordsFrom { r with location }
                { named with location := location' }).linkStyle = (wordsFrom r named).linkStyle := rfl
            rw [hwords, hstyle]
            cases linkText (wordsFrom r named) (style.getD (wordsFrom r named).linkStyle) <;> rfl
          · simp only [Rendered.within, hcontent]

theorem inclusion_html (hctx : ctx.Mirrors ctx' R) :
    (scene.inclusion ctx).html = (scene'.inclusion ctx').html := by
  have hrecord := hctx.record?_like (Text.trim (ctx'.text scene'.call "href"))
  simp only [inclusion, hctx.text_eq h.call]
  generalize ctx.record? (Text.trim (ctx'.text scene'.call "href")) = r at hrecord
  generalize ctx'.record? (Text.trim (ctx'.text scene'.call "href")) = r' at hrecord
  cases hrecord with
  | none => rfl
  | @some r r' hsame =>
    have hhref := hctx.href_eq hsame
    obtain ⟨location, rfl⟩ := hsame.cases
    have hdocument : IdRecord.isDocument { r with location } = r.isDocument := rfl
    simp only [Option.filter_some, hdocument]
    cases r.isDocument with
    | false => rfl
    | true => simp only [if_true, hhref]

theorem render_html (hctx : ctx.Mirrors ctx' R) {rendering : Rendering}
    (hname : rendering = .crossReference →
      ctx.tree.name? scene.id = some MacroName.crossReference) :
    (scene.render ctx rendering).html = (scene'.render ctx' rendering).html := by
  cases rendering with
  | toplevel => exact h.content_html "content"
  | header => exact h.header_html hctx
  | block tag =>
    simp only [render, Rendered.within]
    rw [h.content_html "content", h.idAttribute_eq]
  | inline tag =>
    simp only [render, Rendered.within]
    rw [h.content_html "content"]
  | lineBreak => rfl
  | link =>
    simp only [render, link, Rendered.within, hctx.text_eq h.call]
    rw [h.content_html "content"]
  | crossReference =>
    simp only [render]
    exact h.crossReference_html hctx (hname rfl)
  | code =>
    simp only [render, code]
    rw [h.content_html "content", h.idAttribute_eq, h.caption_eq hctx]
  | table =>
    simp only [render, table]
    rw [h.content_html "content", h.idAttribute_eq, h.caption_eq hctx]
  | image =>
    simp only [render, image, hctx.text_eq h.call]
    rw [h.idAttribute_eq, h.caption_eq hctx]
  | contents =>
    simp only [render, hctx.registry,
      Contents.build_eq hctx.likeness hctx.acyclic hctx.acyclic' hctx.labels hctx.headers]
  | inclusion => exact h.inclusion_html hctx

end Scene.Mirrors

-- ----------------------------------------------------------------------------
-- Whole documents
-- ----------------------------------------------------------------------------

namespace RenderContext.Mirrors

variable {ctx ctx' : RenderContext} (h : ctx.Mirrors ctx' R)
include h

/-- Twins are rendered as the same HTML. -/
theorem html_eq (honly : ∀ name d, ctx.registry.get? name = some d →
      d.rendering = .crossReference → name = MacroName.crossReference) (hxy : R x y) (title : Bool) :
    (ctx.renderAt x title).html = (ctx'.renderAt y title).html := by
  refine h.likeness.induction h.acyclic (motive := fun x y => ∀ title,
    (ctx.renderAt x title).html = (ctx'.renderAt y title).html) (fun x y hxy ih title => ?_) hxy title
  obtain ⟨node, node', hnode, hnode', hkind⟩ := h.likeness.kinds hxy
  have hlabel := h.labels x y hxy
  rw [render_of_get? h.acyclic hnode, render_of_get? h.acyclic' hnode', renderNode, renderNode,
    h.registry]
  rw [Tree.below_of_get? hnode, Tree.below_node] at ih
  cases hcall : node.kind with
  | call call =>
    rw [hcall] at hkind ih
    cases hcall' : node'.kind with
    | call call' =>
      rw [hcall'] at hkind
      cases hkind with
      | call hcalls =>
        have hfound : ctx.tree.call? x = some call := by simp [Tree.call?, hnode, Node.call?, hcall]
        have hfound' : ctx'.tree.call? y = some call' := by
          simp [Tree.call?, hnode', Node.call?, hcall']
        rw [Tree.label_of_call? hfound, Tree.label_of_call? hfound'] at hlabel
        have hscenes : Scene.Mirrors ⟨x, node, call, ctx.renderAt, title⟩
            ⟨y, node', call', ctx'.renderAt, title⟩ R :=
          ⟨hxy, hcalls, congrArg Prod.fst hlabel, rfl, fun child hchild child' hlike title =>
            ih child hchild child' hlike title⟩
        simp only [hcalls.name]
        cases hdefinition : ctx'.registry.get? call'.name with
        | none => rfl
        | some definition =>
          refine hscenes.render_html h fun hrendering => ?_
          rw [← h.registry] at hdefinition
          rw [Tree.name?, hfound, Option.map_some, hcalls.name,
            honly call'.name definition hdefinition hrendering]
    | _ =>
      rw [hcall'] at hkind
      cases hkind
  | _ =>
    rw [hcall] at hkind
    generalize node'.kind = kind' at hkind
    cases hkind
    rfl

end RenderContext.Mirrors
end Macromark
