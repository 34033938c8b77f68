import Macromark.Html.Render
import Macromark.Proofs.Tree.Links

/-!
# What rendering reports and reads

Rendering comes to the macros below the root only (`RenderContext.Visits`), and
a fault of a link is all that it finds wrong there (`renderDocument_reports`).
Of a store it reads the records, and nothing else (`renderDocument_records`).
-/

namespace Macromark

/-- What is found at a node if it is found at all others below it, to any depth. -/
theorem Tree.recurse_induction {motive : NodeId → α → Prop} (t : Tree)
    {step : NodeId → Node → (NodeId → α) → α} {default : α} (hdefault : ∀ id, motive id default)
    (hstep : ∀ id node below, t.get? id = some node → (∀ child, motive child (below child)) →
      motive id (step id node below))
    (id : NodeId) : motive id (t.recurse step default id) := by
  unfold recurse
  generalize t.size = depth
  induction depth generalizing id with
  | zero => exact hdefault id
  | succ depth ih =>
    simp only [recurseTo]
    split
    · next node hnode => exact hstep id node _ hnode ih
    · exact hdefault id

theorem MacroCall.mem_allChildren {call : MacroCall} {name : String} {child : NodeId}
    (h : child ∈ call.children name) : child ∈ call.allChildren := by
  unfold children at h
  cases hargument : call.argument? name with
  | none => simp [hargument] at h
  | some argument =>
    rw [hargument, Option.map_some, Option.getD_some] at h
    exact List.mem_flatMap.mpr ⟨argument, List.mem_of_find?_eq_some hargument, h⟩

/-- A link of `document` cannot be written. -/
def Diagnostic.OfLink (document : String) (d : Diagnostic) : Prop :=
  (∃ fault, d.problem = .brokenLink fault) ∧ d.document = document

namespace Rendered

def Reports (kind : Diagnostic → Prop) (r : Rendered) : Prop := ∀ d ∈ r.diagnostics, kind d

variable {kind : Diagnostic → Prop} {r s : Rendered}

theorem Reports.silent (html : List Html) : Reports kind ⟨html, []⟩ := by simp [Reports]

theorem Reports.join {pieces : List Rendered} (h : ∀ r ∈ pieces, Reports kind r) :
    Reports kind (.join pieces) := by
  intro d hd
  obtain ⟨r, hr, hd⟩ := List.mem_flatMap.mp hd
  exact h r hr d hd

theorem Reports.within (h : Reports kind r) (f : List Html → List Html) :
    Reports kind (r.within f) := h

theorem Reports.append (hr : Reports kind r) (hs : Reports kind s) :
    ∀ d ∈ r.diagnostics ++ s.diagnostics, kind d := by
  intro d hd
  rcases List.mem_append.mp hd with hd | hd
  · exact hr d hd
  · exact hs d hd

end Rendered

open Rendered (Reports)

def RenderContext.Visits (ctx : RenderContext) (scene : Scene) : Prop :=
  ctx.tree.Reaches ctx.tree.root scene.id ∧ ctx.tree.call? scene.id = some scene.call

/-- A place at which a fault of a macro is found: that of one of its arguments, or its own. -/
def RenderContext.Shows (ctx : RenderContext) (position : Position) : Prop :=
  ∃ scene : Scene, ctx.tree.get? scene.id = some scene.node ∧ scene.node.kind = .call scene.call ∧
    ∃ name, position = scene.argumentPosition name

section
variable {ctx : RenderContext} {kind : Diagnostic → Prop}

-- All faults of a link but an unknown target may be found.
variable (hfault : ∀ position fault, ctx.Shows position →
  (∀ target, fault ≠ .unknownTarget target) → kind ⟨.brokenLink fault, position, ctx.document⟩)

include hfault in
theorem RenderContext.fault_reports {position : Position} (hshows : ctx.Shows position)
    {fault : LinkFault} (h : ∀ target, fault ≠ .unknownTarget target) :
    Reports kind (ctx.fault position fault) := by
  intro d hd
  obtain rfl := List.mem_singleton.mp hd
  exact hfault position fault hshows h

namespace Scene

variable {scene : Scene}
variable (hbelow : ∀ child ∈ scene.call.allChildren, ∀ title, Reports kind (scene.below child title))

include hbelow in
theorem argument_reports (name : String) (title : Bool) :
    Reports kind (scene.argument name title) := by
  apply Reports.join
  intro r hr
  obtain ⟨child, hchild, rfl⟩ := List.mem_map.mp hr
  exact hbelow child (MacroCall.mem_allChildren hchild) title

include hbelow in
theorem caption_reports (ctx : RenderContext) : ∀ d ∈ (scene.caption ctx).2, kind d := by
  unfold caption
  split
  · simp
  · exact argument_reports hbelow _ _

theorem parse_style_error {text : String} {fault : LinkFault} (h : LinkStyle.parse text = .error fault)
    (target : String) : fault ≠ .unknownTarget target := by
  unfold LinkStyle.parse at h
  simp only at h
  split at h
  · cases h
  · split at h
    · cases h
    · split at h <;> cases h
      simp

theorem linkText_error {record : IdRecord} {style : LinkStyle} {fault : LinkFault}
    (h : linkText record style = .error fault) (target : String) : fault ≠ .unknownTarget target := by
  unfold linkText at h
  simp only at h
  split at h
  · cases h
  · split at h <;> cases h
    simp

include hfault hbelow in
theorem crossReference_reports (hshows : ∀ name, ctx.Shows (scene.argumentPosition name))
    (hunknown : ∀ position target, ctx.Shows position → scene.linkTarget ctx = .target target →
      ctx.record? target = none → kind ⟨.brokenLink (.unknownTarget target), position, ctx.document⟩) :
    Reports kind (scene.crossReference ctx) := by
  unfold crossReference
  simp only
  split
  · next fault hstyle => exact RenderContext.fault_reports hfault (hshows _) (parse_style_error hstyle)
  · split
    · exact Reports.silent _
    · next target htarget =>
      split
      · next hnone =>
        intro d hd
        obtain rfl := List.mem_singleton.mp hd
        exact hunknown _ target (hshows _) htarget hnone
      · split
        · exact RenderContext.fault_reports hfault (hshows _) (by simp)
        · have hcontent : Reports kind
              (if scene.call.supplies "content" then scene.argument "content" scene.inTitle
              else .empty) := by
            split
            · exact argument_reports hbelow _ _
            · exact Reports.silent _
          generalize (if scene.call.supplies "content" then scene.argument "content" scene.inTitle
            else .empty) = content at hcontent ⊢
          split
          · split
            · exact hcontent
            · next fault htext =>
              exact Reports.append (r := ⟨[], _⟩) hcontent
                (RenderContext.fault_reports hfault (hshows _) (linkText_error htext))
          · exact hcontent.within _

include hbelow in
theorem render_reports (rendering : Rendering)
    (hlink : rendering = .crossReference → Reports kind (scene.crossReference ctx)) :
    Reports kind (scene.render ctx rendering) := by
  have hargument := argument_reports hbelow
  have hcaption := caption_reports hbelow ctx
  cases rendering with
  | toplevel => exact hargument _ _
  | header =>
    simp only [render, header]
    split
    · exact Reports.silent _
    · exact (hargument _ _).within _
  | block tag => exact (hargument _ _).within _
  | inline tag => exact (hargument _ _).within _
  | lineBreak => exact Reports.silent _
  | link => exact (hargument _ _).within _
  | crossReference => exact hlink rfl
  | code => exact (hargument "content" scene.inTitle).append (s := ⟨[], _⟩) hcaption
  | table => exact Reports.append (r := ⟨[], _⟩) hcaption (hargument "content" scene.inTitle)
  | image => exact hcaption
  | contents => exact Reports.silent _
  | inclusion =>
    simp only [render, inclusion]
    split <;> exact Reports.silent _

end Scene

namespace RenderContext

-- An unknown target is found only at a link that rendering comes to.
variable (hunknown : ∀ scene, ctx.Visits scene →
  (∃ d, ctx.registry.get? scene.call.name = some d ∧ d.rendering = .crossReference) →
  ∀ position target, ctx.Shows position → scene.linkTarget ctx = .target target →
    ctx.record? target = none → kind ⟨.brokenLink (.unknownTarget target), position, ctx.document⟩)
include hfault hunknown

theorem renderNode_reports (id : NodeId) (node : Node) (below : NodeId → Bool → Rendered)
    (hnode : ctx.tree.get? id = some node) (hreached : ctx.tree.Reaches ctx.tree.root id)
    (hbelow : ∀ child ∈ ctx.tree.below id, ∀ title, Reports kind (below child title)) (title : Bool) :
    Reports kind (ctx.renderNode id node below title) := by
  unfold renderNode
  split
  · exact Reports.silent _
  · exact Reports.silent _
  · exact Reports.silent _
  · next call hkind =>
    have hcall : ctx.tree.call? id = some call := by simp [Tree.call?, hnode, Node.call?, hkind]
    rw [Tree.below_of_call? hcall] at hbelow
    split
    · next definition hdefinition =>
      refine Scene.render_reports hbelow definition.rendering fun hrendering => ?_
      exact Scene.crossReference_reports hfault hbelow
        (fun name => ⟨⟨id, node, call, below, title⟩, hnode, hkind, name, rfl⟩)
        (hunknown _ ⟨hreached, hcall⟩ ⟨definition, hdefinition, hrendering⟩)
    · exact Reports.silent _

theorem render_reports (id : NodeId) (hreached : ctx.tree.Reaches ctx.tree.root id) :
    Reports kind (ctx.render id) := by
  refine ctx.tree.recurse_induction (motive := fun id (rendered : Bool → Rendered) =>
    ctx.tree.Reaches ctx.tree.root id → ∀ title, Reports kind (rendered title))
    (fun _ _ _ => Reports.silent _) ?_ id hreached false
  intro id node below hnode hbelow hreached title
  refine renderNode_reports hfault hunknown id node below hnode hreached ?_ title
  intro child hchild
  exact hbelow child (hreached.tail hchild)

theorem renderDocument_reports (bodyOnly : Bool) :
    ∀ d ∈ (ctx.renderDocument bodyOnly).2, kind d := by
  have hbody : Reports kind ctx.body := by
    unfold body
    split
    · exact Reports.silent _
    · exact render_reports hfault hunknown _ .refl
  exact hbody

end RenderContext
end

theorem RenderContext.renderDocument_faults (ctx : RenderContext) (bodyOnly : Bool) :
    ∀ d ∈ (ctx.renderDocument bodyOnly).2, d.OfLink ctx.document :=
  renderDocument_reports (fun _ fault _ _ => ⟨⟨fault, rfl⟩, rfl⟩)
    (fun _ _ _ _ target _ _ _ => ⟨⟨.unknownTarget target, rfl⟩, rfl⟩) bodyOnly

-- ----------------------------------------------------------------------------
-- The store
-- ----------------------------------------------------------------------------

section
variable {s t : Store} (h : s.records = t.records) (ctx : RenderContext)
include h

theorem RenderContext.record?_records :
    record? { ctx with store := some s } = record? { ctx with store := some t } := by
  obtain ⟨records, rows, nextRow⟩ := s
  cases h
  rfl

theorem Scene.render_records (scene : Scene) (rendering : Rendering) :
    scene.render { ctx with store := some s } rendering =
      scene.render { ctx with store := some t } rendering := by
  have hrecord := RenderContext.record?_records h ctx
  have htext : RenderContext.text { ctx with store := some s } =
      RenderContext.text { ctx with store := some t } := rfl
  have hhref : RenderContext.href { ctx with store := some s } =
      RenderContext.href { ctx with store := some t } := rfl
  have hfault : RenderContext.fault { ctx with store := some s } =
      RenderContext.fault { ctx with store := some t } := rfl
  cases rendering with
  | crossReference =>
    simp only [render, crossReference, linkTarget, hrecord, htext, hhref, hfault]
  | inclusion => simp only [render, inclusion, hrecord, htext, hhref]
  | _ => rfl

theorem RenderContext.renderDocument_records :
    renderDocument { ctx with store := some s } = renderDocument { ctx with store := some t } := by
  have hnode : renderNode { ctx with store := some s } =
      renderNode { ctx with store := some t } := by
    funext id node below title
    simp only [renderNode, Scene.render_records h]
  have hrender : render { ctx with store := some s } = render { ctx with store := some t } := by
    funext id
    simp only [render, hnode]
  have hbody : body { ctx with store := some s } = body { ctx with store := some t } := by
    simp only [body, hrender]
  funext bodyOnly
  simp only [renderDocument, hbody]

end
end Macromark
