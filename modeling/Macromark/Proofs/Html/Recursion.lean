import Macromark.Proofs.Html.Render
import Macromark.Proofs.Tree.Passage

/-!
# Rendering as a recursion

The output of a macro is made of the outputs of its children
(`renderNode_local`), so that where no path goes round in a circle the renderer
is a recursion without a bound (`render_of_get?`). What a node is read as decides
how it is unfolded: a text is written as it is (`render_of_text`), and a macro
by its definition (`render_of_call`).
-/

namespace Macromark

namespace Tree

variable {α : Type} {t : Tree} {id : NodeId} {label : NodeId → α} {mark : α}

/-- A text is read at a text. -/
theorem Acyclic.get?_of_text (h : t.Acyclic) (hid : id < t.size) {words : String}
    (hpassage : t.passage label id = .text mark words) :
    ∃ node, t.get? id = some node ∧ node.kind = .plaintext words := by
  obtain ⟨node, hnode⟩ := lt_size_iff.mp hid
  rw [h.passage_of_get? hnode] at hpassage
  refine ⟨node, hnode, ?_⟩
  cases hkind : node.kind <;> simp_all [NodeKind.passage]

/-- A macro is read at a macro. -/
theorem Acyclic.call?_of_passage (h : t.Acyclic) (hid : id < t.size) {name : String}
    {synthetic : Bool} {slots : List (Slot (Passage α))}
    (hpassage : t.passage label id = .call mark name synthetic slots) :
    ∃ call, t.call? id = some call ∧ call.name = name ∧
      call.arguments.map (·.slot (t.passage label)) = slots := by
  obtain ⟨node, hnode⟩ := lt_size_iff.mp hid
  rw [h.passage_of_get? hnode] at hpassage
  cases hkind : node.kind with
  | call call =>
    rw [hkind, NodeKind.passage] at hpassage
    injection hpassage with _ hname _ hslots
    exact ⟨call, by simp [call?, hnode, Node.call?, hkind], hname, hslots⟩
  | _ => simp [hkind, NodeKind.passage] at hpassage

end Tree

variable {ctx : RenderContext} {id : NodeId} {node : Node} {call : MacroCall} {title : Bool}

-- ----------------------------------------------------------------------------
-- One macro
-- ----------------------------------------------------------------------------

variable {scene : Scene} {below : NodeId → Bool → Rendered} {rendering : Rendering} {name : String}

theorem Scene.argument_congr
    (h : ∀ child ∈ scene.call.children name, scene.below child title = below child title) :
    { scene with below }.argument name title = scene.argument name title :=
  congrArg Rendered.join (List.map_congr_left fun child hchild => (h child hchild).symm)

/-- Of a header only the title is rendered, as such. All else is rendered as the macro is. -/
theorem Scene.render_congr
    (htitle : rendering = .header → ∀ child ∈ scene.call.children "title",
      scene.below child true = below child true)
    (hbelow : rendering ≠ .header → ∀ child ∈ scene.call.allChildren,
      scene.below child scene.inTitle = below child scene.inTitle) :
    { scene with below }.render ctx rendering = scene.render ctx rendering := by
  have hid : { scene with below }.idAttribute = scene.idAttribute := rfl
  by_cases hheader : rendering = .header
  · subst hheader
    simp only [render, header, hid, Scene.argument_congr (htitle rfl)]
  have hargument : ∀ name,
      { scene with below }.argument name scene.inTitle = scene.argument name scene.inTitle :=
    fun name => Scene.argument_congr fun child hchild =>
      hbelow hheader child (MacroCall.mem_allChildren hchild)
  have hcaption : { scene with below }.caption ctx = scene.caption ctx := by
    simp only [caption, hargument]
  have hposition : ∀ name,
      { scene with below }.argumentPosition name = scene.argumentPosition name := fun _ => rfl
  have htarget : { scene with below }.linkTarget ctx = scene.linkTarget ctx := rfl
  cases rendering with
  | header => exact absurd rfl hheader
  | _ =>
    simp only [render, link, crossReference, code, table, image, inclusion, hargument, hcaption, hid,
      hposition, htarget]

theorem RenderContext.renderNode_congr {f g : NodeId → Bool → Rendered}
    (h : ∀ call definition, node.call? = some call → ctx.registry.get? call.name = some definition →
      (definition.rendering = .header →
        ∀ child ∈ call.children "title", f child true = g child true) ∧
      (definition.rendering ≠ .header →
        ∀ child ∈ call.allChildren, f child title = g child title)) :
    ctx.renderNode id node f title = ctx.renderNode id node g title := by
  unfold renderNode
  cases hkind : node.kind with
  | call call =>
    simp only
    cases hdefinition : ctx.registry.get? call.name with
    | none => rfl
    | some definition =>
      obtain ⟨htitle, hbelow⟩ := h call definition (by rw [Node.call?, hkind]) hdefinition
      exact (@Scene.render_congr ctx ⟨id, node, call, f, title⟩ g _ htitle hbelow).symm
  | _ => rfl

/-- The output of a macro is made of the outputs of its children. -/
theorem RenderContext.renderNode_local (ctx : RenderContext) : Tree.LocalStep ctx.renderNode := by
  intro id node f g h
  funext title
  refine renderNode_congr fun call definition hcall _ => ?_
  have hbelow : ∀ child ∈ call.allChildren, f child = g child := fun child hchild =>
    h child (by simpa [Node.below, hcall] using hchild)
  exact ⟨fun _ child hchild => by rw [hbelow child (MacroCall.mem_allChildren hchild)],
    fun _ child hchild => by rw [hbelow child hchild]⟩

-- ----------------------------------------------------------------------------
-- All macros
-- ----------------------------------------------------------------------------

def RenderContext.renderAt (ctx : RenderContext) : NodeId → Bool → Rendered :=
  ctx.tree.recurse ctx.renderNode fun _ => .empty

theorem RenderContext.render_of_get? (h : ctx.tree.Acyclic) (hnode : ctx.tree.get? id = some node) :
    ctx.renderAt id = ctx.renderNode id node ctx.renderAt :=
  h.recurse_eq ctx.renderNode_local hnode

theorem RenderContext.render_of_text {α : Type} {label : NodeId → α} {mark : α} {words : String}
    (h : ctx.tree.Acyclic) (hid : id < ctx.tree.size)
    (hpassage : ctx.tree.passage label id = .text mark words) (title : Bool) :
    ctx.renderAt id title = ⟨[.text words], []⟩ := by
  obtain ⟨node, hnode, hkind⟩ := h.get?_of_text hid hpassage
  rw [render_of_get? h hnode, renderNode, hkind]

theorem RenderContext.render_of_call {definition : MacroDef} (h : ctx.tree.Acyclic)
    (hcall : ctx.tree.call? id = some call)
    (hdefinition : ctx.registry.get? call.name = some definition) (title : Bool) : ∃ node,
      ctx.renderAt id title =
        Scene.render ⟨id, node, call, ctx.renderAt, title⟩ ctx definition.rendering := by
  obtain ⟨node, hnode, hkind⟩ := Option.bind_eq_some_iff.mp hcall
  refine ⟨node, ?_⟩
  rw [render_of_get? h hnode, renderNode]
  cases hshape : node.kind <;> simp [Node.call?, hshape] at hkind
  rw [hkind]
  simp only [hdefinition]

end Macromark
