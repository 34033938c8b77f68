import Macromark.Proofs.Assembly.Titling
import Macromark.Proofs.Html.Recursion

/-!
# Links in titles, as they are noted and as they are rendered

A link in the title of a header has to lead to a header. Rendering says of every node that
it comes to whether it stands in a title (`RenderContext.Runs`); the assembly says it by
noting the references of the link once more. The two agree, and the references that are
noted once more come to the same end as the others (`title_links_agree`).
-/

namespace Macromark

-- ----------------------------------------------------------------------------
-- Where rendering comes to
-- ----------------------------------------------------------------------------

/-- Rendering comes to a node, in the title of a header (`true`) or elsewhere. Of a header only
the title is rendered, and that as one; what stands in another macro is rendered, if it is, as the
macro itself. -/
inductive RenderContext.Runs (ctx : RenderContext) : NodeId → Bool → Prop
  | root : Runs ctx ctx.tree.root false
  | title {id child : NodeId} {title : Bool} {call : MacroCall} {definition : MacroDef} :
      Runs ctx id title → ctx.tree.call? id = some call →
      ctx.registry.get? call.name = some definition → definition.rendering = .header →
      child ∈ call.children "title" → Runs ctx child true
  | inside {id child : NodeId} {title : Bool} {call : MacroCall} {definition : MacroDef} :
      Runs ctx id title → ctx.tree.call? id = some call →
      ctx.registry.get? call.name = some definition → definition.rendering ≠ .header →
      child ∈ call.allChildren → Runs ctx child title

/-- Whatever were done elsewhere, the output of the document would be the same. -/
def RenderContext.ComesOnlyTo (ctx : RenderContext) (P : NodeId → Bool → Prop) : Prop :=
  ∀ other : NodeId → Node → (NodeId → Bool → Rendered) → Bool → Rendered,
    (∀ id node below title, P id title →
      other id node below title = ctx.renderNode id node below title) →
    ctx.tree.recurse other (fun _ => .empty) ctx.tree.root false = ctx.render ctx.tree.root

theorem RenderContext.comesOnlyTo_runs (ctx : RenderContext) : ctx.ComesOnlyTo ctx.Runs := by
  intro other h
  suffices hdepth : ∀ depth id title, ctx.Runs id title →
      ctx.tree.recurseTo other (fun _ => .empty) depth id title =
        ctx.tree.recurseTo ctx.renderNode (fun _ => .empty) depth id title from
    hdepth ctx.tree.size ctx.tree.root false .root
  intro depth
  induction depth with
  | zero => exact fun _ _ _ => rfl
  | succ depth ih =>
    intro id title hruns
    simp only [Tree.recurseTo]
    cases hnode : ctx.tree.get? id with
    | none => rfl
    | some node =>
      simp only
      rw [h id node _ title hruns]
      refine renderNode_congr fun call definition hcall hdefinition => ?_
      have hcall : ctx.tree.call? id = some call := by
        rw [Tree.call?, hnode, Option.bind_some, hcall]
      exact ⟨fun hheader child hchild =>
          ih child true (.title hruns hcall hdefinition hheader hchild),
        fun hheader child hchild => ih child title (.inside hruns hcall hdefinition hheader hchild)⟩

theorem RenderContext.Runs.reaches {ctx : RenderContext} {x : NodeId} {title : Bool}
    (h : ctx.Runs x title) : ctx.tree.Reaches ctx.tree.root x := by
  induction h with
  | root => exact .refl
  | title _ hcall _ _ hchild ih =>
    exact ih.tail (by
      rw [Tree.below_of_call? hcall]
      exact MacroCall.mem_allChildren hchild)
  | inside _ hcall _ _ hchild ih =>
    exact ih.tail (by rwa [Tree.below_of_call? hcall])

/-- Rendering agrees with the tree about what stands in a title. -/
theorem Tree.Titling.runs {ctx : RenderContext} {inTitle : NodeId → Bool}
    (h : ctx.tree.Titling inTitle)
    (hheader : ∀ name d, ctx.registry.get? name = some d →
      (d.rendering = .header ↔ name = MacroName.header))
    {x : NodeId} {title : Bool} (hruns : ctx.Runs x title) : inTitle x = title := by
  induction hruns with
  | root => exact h.root
  | @title id child title call definition hid hcall hdefinition hrendering hchild ih =>
    obtain ⟨argument, hargument, hchild⟩ : ∃ argument, call.argument? "title" = some argument ∧
        child ∈ argument.children := by
      unfold MacroCall.children at hchild
      cases hargument : call.argument? "title" with
      | none => simp [hargument] at hchild
      | some argument => exact ⟨argument, rfl, by simpa [hargument] using hchild⟩
    have hname : argument.name = "title" :=
      beq_iff_eq.mp
        (List.find?_some (p := fun argument : Argument => argument.name == "title") hargument)
    have htitle := h.below id call hid.reaches hcall argument
      (List.mem_of_find?_eq_some hargument) child hchild
    rw [htitle, (hheader _ _ hdefinition).mp hrendering, hname, beq_self_eq_true, beq_self_eq_true,
      Bool.and_self, Bool.or_true]
  | @inside id child title call definition hid hcall hdefinition hrendering hchild ih =>
    obtain ⟨argument, hargument, hchild⟩ := List.mem_flatMap.mp hchild
    have hother : call.name ≠ MacroName.header := fun hname =>
      hrendering ((hheader _ _ hdefinition).mpr hname)
    rw [h.below id call hid.reaches hcall argument hargument child hchild, ih,
      beq_false_of_ne hother, Bool.false_and, Bool.or_false]

theorem Registry.rendering_header_builtin (name : String) (d : MacroDef)
    (hd : Registry.builtin.get? name = some d) :
    d.rendering = .header ↔ name = MacroName.header := by
  have hheader : ∀ d ∈ builtinMacros, d.rendering = .header ↔ d.name = MacroName.header := by decide
  rw [← name_of_get? hd]
  exact hheader d (List.mem_of_find?_eq_some hd)

-- ----------------------------------------------------------------------------
-- What is kept
-- ----------------------------------------------------------------------------

namespace Selection

variable {resolves : Reference → Bool} {references : List Reference} {titleKey linkKey : GroupKey}

/-- References that are noted once more come to the same end. -/
theorem winner?_inTitle (hresolves : ∀ r : Reference, resolves r.inTitle = resolves r)
    (hgroup : references.filter (·.groupKey = titleKey) =
      (references.filter (·.groupKey = linkKey)).map Reference.inTitle) :
    (winner? resolves (members references titleKey)).map (·.1) =
      (winner? resolves (members references linkKey)).map (·.1.inTitle) := by
  let before (r r' : Reference) : Bool := triedBefore (r, 0) (r', 0)
  have htitles : (winner? resolves (members references titleKey)).map (·.1) =
      (((members references titleKey).map (·.1)).mergeSort before).find? resolves :=
    winner?_map _ (fun _ _ => rfl) fun _ _ => rfl
  have hlinks : (winner? resolves (members references linkKey)).map (·.1.inTitle) =
      (((members references linkKey).map (·.1.inTitle)).mergeSort before).find? resolves :=
    winner?_map _ (fun _ _ => rfl) fun placed _ => (hresolves placed.1).symm
  have hmembers : (members references titleKey).map (·.1) =
      (members references linkKey).map (·.1.inTitle) := by
    rw [map_fst_members, hgroup, ← map_fst_members, List.map_map]
    rfl
  rw [htitles, hmembers, hlinks]

end Selection

namespace Analysis

variable {a : Analysis} {store : Option Store} {key titleKey linkKey : GroupKey} {r : Reference}

/-- A reference that is kept of a link. -/
def Survives (a : Analysis) (store : Option Store) (key : GroupKey) (r : Reference) : Prop :=
  ∃ place ∈ (a.links store).selected, a.contribution.references[place]? = some r ∧ r.groupKey = key

theorem survives_iff : a.Survives store key r ↔
    (Selection.winner? (a.resolves store) (Selection.members a.contribution.references key)).map
      (·.1) = some r := by
  rw [Survives, links, Selection.exists_selected, Option.map_eq_some_iff]
  simp

/-- Where references are noted once more, one of both is kept and they lead to the same target, or
none of either. -/
theorem survives_alike (hgroup : a.group titleKey = (a.group linkKey).map Reference.inTitle) :
    (∃ t l, (∀ r, a.Survives store titleKey r ↔ r = t) ∧ (∀ r, a.Survives store linkKey r ↔ r = l) ∧
      t.target = l.target) ∨
    (∀ r, ¬ a.Survives store titleKey r) ∧ ∀ r, ¬ a.Survives store linkKey r := by
  have hwinner := @Selection.winner?_inTitle (a.resolves store) _ _ _ (fun _ => rfl) hgroup
  simp only [survives_iff, hwinner]
  cases Selection.winner? (a.resolves store)
      (Selection.members a.contribution.references linkKey) with
  | none => exact .inr ⟨by simp, by simp⟩
  | some winner =>
    exact .inl ⟨winner.1.inTitle, winner.1, by simp [eq_comm], by simp [eq_comm], rfl⟩

/-- The references of a link are noted as those of a link in a title. -/
def NotedInTitle (a : Analysis) (x : NodeId) : Prop :=
  ∃ position, a.tree.href? x = some position ∧
    a.group ⟨a.document, position, .titleInTitle⟩ ≠ []

end Analysis

/-- Links in titles are treated alike. Whenever the renderer of links runs, it is told that the link
stands in a title if and only if the references of the link were noted once more; and those lead to
what the others lead to. -/
theorem title_links_agree (store : Option Store) (options : CompileOptions) (source : String) :
    let a := analyze .builtin options.document source
    let ctx := a.context .builtin store options.extension
    (a.aborted = none → ∃ c, compile (some .builtin) store options source = .ok c ∧
      c.output = (ctx.renderDocument options.bodyOnly).1 ∧ c.contribution = a.contribution) ∧
    ctx.ComesOnlyTo ctx.Runs ∧
    (∀ x title call d, ctx.Runs x title → a.tree.call? x = some call →
      Registry.builtin.get? call.name = some d → d.rendering = .crossReference →
      (title = true ↔ a.NotedInTitle x)) ∧
    ∀ x, a.tree.IsLink x → a.NotedInTitle x → ∃ position, a.tree.href? x = some position ∧
      let titleKey : GroupKey := ⟨options.document, position, .titleInTitle⟩
      let linkKey : GroupKey := ⟨options.document, position, .crossReference⟩
      a.group titleKey = (a.group linkKey).map Reference.inTitle ∧
      ((∃ t l, (∀ r, a.Survives store titleKey r ↔ r = t) ∧
          (∀ r, a.Survives store linkKey r ↔ r = l) ∧ t.target = l.target) ∨
        (∀ r, ¬ a.Survives store titleKey r) ∧ ∀ r, ¬ a.Survives store linkKey r) := by
  intro a ctx
  have hlinkable := Registry.linkable_builtin
  obtain ⟨inTitle, htitling, hgroups⟩ := analyze_titling hlinkable options.document source
  have hlinked : a.Linked := analyze_linked hlinkable options.document source
  -- the assembly tells of a link what the tree does
  have hnoted : ∀ x, a.tree.IsLink x → (inTitle x = true ↔ a.NotedInTitle x) := by
    intro x hlink
    obtain ⟨position, hhref, -, r, hr, hkey⟩ := hlinked.site x hlink
    have hcross : a.group ⟨options.document, position, .crossReference⟩ ≠ [] :=
      List.ne_nil_of_mem (List.mem_filter.mpr ⟨hr, decide_eq_true hkey⟩)
    have hgroup := hgroups x position hlink hhref
    constructor
    · intro htitle
      refine ⟨position, hhref, fun hnone => hcross ?_⟩
      rw [if_pos htitle] at hgroup
      exact List.map_eq_nil_iff.mp (hgroup.symm.trans hnone)
    · rintro ⟨other, hother, hnoted⟩
      obtain rfl := Option.some.inj (hhref.symm.trans hother)
      by_contra htitle
      exact hnoted (hgroup.trans (if_neg htitle))
  refine ⟨fun hdone => ⟨_, compile_ok Registry.check_builtin store _ hdone, rfl, rfl⟩,
    ctx.comesOnlyTo_runs, ?_, ?_⟩
  · intro x title call d hruns hcall hd hrendering
    have hname : a.tree.name? x = some MacroName.crossReference := by
      rw [Tree.name?, hcall, Option.map_some, hlinkable.only _ d hd hrendering]
    have hstands : ctx.tree.Titling inTitle := htitling
    rw [← hnoted x ⟨hruns.reaches, hname⟩, hstands.runs Registry.rendering_header_builtin hruns]
  · intro x hlink hx
    obtain ⟨position, hhref, -⟩ := hlinked.site x hlink
    have htwice := hgroups x position hlink hhref
    rw [if_pos ((hnoted x hlink).mpr hx)] at htwice
    exact ⟨position, hhref, htwice, Analysis.survives_alike htwice⟩

theorem title_links_agree_zoo :
    let a := analyze .builtin "zoo" "\\h[1][\\x[zoo]]"
    let ctx := a.context .builtin none "html"
    let titleKey : GroupKey := ⟨"zoo", ⟨1, 9⟩, .titleInTitle⟩
    let linkKey : GroupKey := ⟨"zoo", ⟨1, 9⟩, .crossReference⟩
    ctx.Runs 5 true ∧ a.tree.IsLink 5 ∧ a.NotedInTitle 5 ∧
      a.group titleKey = (a.group linkKey).map Reference.inTitle ∧
      ∃ t l, (∀ r, a.Survives none titleKey r ↔ r = t) ∧ (∀ r, a.Survives none linkKey r ↔ r = l) ∧
        t.target = l.target := by
  intro a ctx titleKey linkKey
  have hfacts :
      (a.tree.call? a.tree.root).any (fun call => call.allChildren.contains 9 &&
          (Registry.builtin.get? call.name).any (·.rendering != .header)) = true ∧
        (a.tree.call? 9).any (fun call => (call.children "title").contains 5 &&
          (Registry.builtin.get? call.name).any (·.rendering == .header)) = true ∧
        (a.tree.call? 5).any (fun call => call.name == MacroName.crossReference &&
          (Registry.builtin.get? call.name).any (·.rendering == .crossReference)) = true ∧
        a.tree.href? 5 = some ⟨1, 9⟩ ∧
        ∃ placed ∈ Selection.members a.contribution.references linkKey,
          a.resolves none placed.1 = true := by
    decide +kernel
  simp only [Option.any_eq_true, Bool.and_eq_true, List.contains_iff_mem, bne_iff_ne, beq_iff_eq]
    at hfacts
  obtain ⟨⟨top, htop, hbelow, d, hd, hother⟩, ⟨header, hheader, htitle, d', hd', hrendering⟩,
    ⟨link, hlink, hname, d'', hd'', hcross⟩, hhref, placed, hplaced, hresolves⟩ := hfacts
  obtain ⟨-, -, hruns, hkept⟩ := title_links_agree none { document := "zoo" } "\\h[1][\\x[zoo]]"
  have hrun : ctx.Runs 5 true :=
    .title (.inside .root htop hd hother hbelow) hheader hd' hrendering htitle
  have hisLink : a.tree.IsLink 5 :=
    ⟨hrun.reaches, by rw [Tree.name?, hlink, Option.map_some, hname]⟩
  have hnoted : a.NotedInTitle 5 := (hruns 5 true link d'' hrun hlink hd'' hcross).mp rfl
  obtain ⟨position, hposition, htwice, hend⟩ := hkept 5 hisLink hnoted
  obtain rfl := Option.some.inj (hhref.symm.trans hposition)
  refine ⟨hrun, hisLink, hnoted, htwice, hend.resolve_right fun hnone => ?_⟩
  -- one of the references leads somewhere
  cases hwinner : Selection.winner? (a.resolves none)
      (Selection.members a.contribution.references linkKey) with
  | none => simp [Selection.winner?_eq_none_iff.mp hwinner placed hplaced] at hresolves
  | some winner => exact hnone.2 winner.1 (Analysis.survives_iff.mpr (by rw [hwinner]; rfl))

end Macromark
