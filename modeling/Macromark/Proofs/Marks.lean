import Macromark.Proofs.Assembly.Content
import Macromark.Proofs.Assembly.Inclusions
import Macromark.Proofs.Html.Marks
import Macromark.Proofs.Links

/-!
# Marks and reports

What leaves a mark in the output is reported as an error, but for one case: an
inclusion is resolved like a reference to any identifier, and rendering looks
for a document. Where the two part (`Analysis.Astray`), the mark is all there
is to see.
-/

namespace Macromark

/-- An inclusion whose reference leads somewhere, but to no document. -/
structure Analysis.Astray (a : Analysis) (store : Option Store) (ctx : RenderContext)
    (scene : Scene) : Prop where
  visits : ctx.Visits scene
  inclusion : scene.call.name = MacroName.inclusion
  resolves : ∃ r ∈ a.contribution.references, r.kind = .structuralParent ∧
    a.tree.href? scene.id = some r.site.position ∧ a.resolves store r = true
  nowhere : ∀ r, ctx.record? (Text.trim (ctx.text scene.call "href")) = some r → r.isDocument = false

-- ----------------------------------------------------------------------------
-- What is no error
-- ----------------------------------------------------------------------------

/-- Only one problem is none of a document. -/
theorem Problem.isError_of_ne {problem : Problem} (h : problem ≠ .unreachableDocument) :
    problem.isError = true := by
  cases problem <;> first | rfl | exact absurd rfl h

@[simp] theorem Diagnostic.isError_within (document : String) (d : Diagnostic) :
    (d.within document).isError = d.isError := by
  rw [Diagnostic.isError, Diagnostic.problem_within, Diagnostic.isError]

theorem Problem.Local.isError {problem : Problem} {document : String} (h : problem.Local document) :
    problem.isError = true := by
  refine Problem.isError_of_ne ?_
  rintro rfl
  exact h

theorem Diagnostic.OfLink.isError {d : Diagnostic} {document : String} (h : d.OfLink document) :
    d.isError = true := by
  obtain ⟨⟨fault, hfault⟩, -⟩ := h
  rw [Diagnostic.isError, hfault]
  rfl

theorem Selection.isError_of_mem {s : Selection} {d : Diagnostic} (hd : d ∈ s.diagnostics) :
    d.isError = true := by
  obtain ⟨lost, -, hlost⟩ := List.mem_filterMap.mp hd
  obtain ⟨problem, hproblem, rfl⟩ := Option.map_eq_some_iff.mp hlost
  unfold Selection.problem? at hproblem
  split at hproblem <;> cases hproblem <;> rfl

/-- An inclusion none of whose references leads anywhere is reported. -/
theorem Selection.diagnostics_ne_nil {resolves : Reference → Bool} {references : List Reference}
    {key : GroupKey} (hkind : key.kind = .structuralParent) (hmembers : members references key ≠ [])
    (hlost : ∀ placed ∈ members references key, resolves placed.1 = false) :
    (select resolves references).diagnostics ≠ [] := by
  have hunresolved : ⟨key, closest (ranked (members references key))⟩ ∈
      (select resolves references).unresolved := mem_unresolved.mpr ⟨hmembers, hlost, rfl⟩
  intro hnone
  have hreport := List.filterMap_eq_nil_iff.mp hnone _ hunresolved
  simp [problem?, hkind] at hreport

theorem RenderContext.Visits.name?_eq {ctx : RenderContext} {scene : Scene} (h : ctx.Visits scene) :
    ctx.tree.name? scene.id = some scene.call.name := by
  rw [Tree.name?, h.2, Option.map_some]

-- ----------------------------------------------------------------------------
-- One document
-- ----------------------------------------------------------------------------

section
variable (document source : String) (store : Option Store) (extension : String)

theorem Registry.inclusion_builtin : ∀ d ∈ Registry.builtin.macros, d.rendering = .inclusion →
    d.name = MacroName.inclusion ∧ "href" ∈ d.argumentNames := by
  show ∀ d ∈ Registry.builtinMacros, _
  decide

/-- Rendering has all that it looks for, unless something was reported or an inclusion is astray. -/
theorem analyze_complete :
    let a := analyze .builtin document source
    let ctx := a.context .builtin store extension
    a.diagnostics = [] → (a.links store).diagnostics = [] → (∀ scene, ¬ a.Astray store ctx scene) →
    ctx.Complete := by
  intro a ctx hsilent hlinks hastray
  have hlinked : a.Linked := analyze_linked Registry.linkable_builtin document source
  have hsound : a.Sound document := analyze_sound .builtin document source
  obtain ⟨nodes, s, -, hdeclared, htree, -, -, -⟩ :=
    analyze_noted Registry.coherent_builtin Registry.linkable_builtin.author document source
  have hdeclared : a.tree.Declared .builtin := htree ▸ hdeclared
  refine ⟨fun id hid message => ?_, fun scene hscene => ?_, ?_, ?_⟩
  · exact analyze_clean Registry.coherent_builtin document source hsilent hid message
  · obtain ⟨d, hd, -⟩ := hdeclared scene.id scene.call hscene.2
    exact ⟨d, hd⟩
  · intro scene d hscene hd hrendering target htarget
    have hname := Registry.linkable_builtin.only _ d hd hrendering
    exact hlinked.known store extension hsound hlinks hscene hname target htarget
  · intro scene d hscene hd hrendering
    obtain ⟨hname, hargument⟩ :=
      Registry.inclusion_builtin d (List.mem_of_find?_eq_some hd) hrendering
    have hname : scene.call.name = MacroName.inclusion := (Registry.name_of_get? hd).symm.trans hname
    obtain ⟨position, hhref⟩ := hdeclared.exists_href? hscene.2 fun e he =>
      Option.some.inj (hd.symm.trans he) ▸ hargument
    obtain ⟨r, hr, hkey⟩ := analyze_included Registry.coherent_builtin document source hscene.1
      (hname ▸ hscene.name?_eq) hhref
    obtain ⟨place, hplace⟩ := List.mem_iff_getElem?.mp hr
    have hmembers : Selection.members a.contribution.references
        ⟨document, position, .structuralParent⟩ ≠ [] :=
      List.ne_nil_of_mem (Selection.mem_members.mpr ⟨hplace, hkey⟩)
    by_contra hnowhere
    refine Selection.diagnostics_ne_nil rfl hmembers ?_ hlinks
    rintro ⟨other, place⟩ hother
    obtain ⟨hother, hkey⟩ := Selection.mem_members.mp hother
    -- a reference that leads somewhere would lead astray
    by_contra hresolves
    refine hastray scene ⟨hscene, hname, ⟨other, List.mem_of_getElem? hother,
      congrArg (·.kind) hkey, ?_, by simpa using hresolves⟩, fun found hfound => ?_⟩
    · rw [hhref]
      exact congrArg (some ·.position) hkey.symm
    · simpa [hfound] using hnowhere

/-- All that is reported of a document is an error. -/
theorem analyze_silent (registry : Registry) (bodyOnly : Bool) {early : List Diagnostic}
    (hearly : ∀ d ∈ early, d.isError = true) :
    let a := analyze registry document source
    let page := (a.context registry store extension).renderDocument bodyOnly
    ((a.diagnostics ++ early ++ ((a.links store).diagnostics ++ page.2)).map
      (·.within a.document)).any (·.isError) = false →
    a.diagnostics = [] ∧ (a.links store).diagnostics = [] ∧ page.2 = [] := by
  intro a page hsilent
  have herrors : ∀ d ∈ a.diagnostics ++ early ++ ((a.links store).diagnostics ++ page.2),
      d.isError = true := by
    intro d hd
    simp only [List.mem_append] at hd
    rcases hd with (hd | hd) | hd | hd
    · exact ((analyze_sound registry document source).diagnostics d hd).isError
    · exact hearly d hd
    · exact Selection.isError_of_mem hd
    · exact (RenderContext.renderDocument_faults _ bodyOnly d hd).isError
  have hnone : a.diagnostics ++ early ++ ((a.links store).diagnostics ++ page.2) = [] := by
    refine List.eq_nil_iff_forall_not_mem.mpr fun d hd => ?_
    rw [List.any_map, List.any_eq_false] at hsilent
    exact hsilent d hd (by simpa using herrors d hd)
  simp only [List.append_eq_nil_iff] at hnone
  exact ⟨hnone.1.1, hnone.2⟩

/-- A mark means that something was reported, or that an inclusion is astray. -/
theorem analyze_marked {registry : Registry} (hregistry : registry = .builtin)
    (hextension : '<' ∉ extension.toList) (bodyOnly : Bool) {early : List Diagnostic}
    (hearly : ∀ d ∈ early, d.isError = true) :
    let a := analyze registry document source
    let ctx := a.context registry store extension
    let page := ctx.renderDocument bodyOnly
    Html.Marked page.1 →
      ((a.diagnostics ++ early ++ ((a.links store).diagnostics ++ page.2)).map
        (·.within a.document)).any (·.isError) = true ∨ ∃ scene, a.Astray store ctx scene := by
  intro a ctx page hmarked
  subst hregistry
  by_contra hneither
  obtain ⟨hsilent, hastray⟩ := not_or.mp hneither
  obtain ⟨hown, hlinks, hlate⟩ := analyze_silent document source store extension .builtin bodyOnly
    hearly (Bool.not_eq_true _ ▸ hsilent)
  have hcomplete : ctx.Complete :=
    analyze_complete document source store extension hown hlinks (not_exists.mp hastray)
  exact RenderContext.not_marked_renderDocument hextension Registry.other_builtin hcomplete bodyOnly
    hlate hmarked

end

-- ----------------------------------------------------------------------------
-- Compilation
-- ----------------------------------------------------------------------------

/-- A mark in the output comes with an error, unless an inclusion is astray, in
a document that is compiled alone and in each document of a project. -/
theorem marked_has_errors (options : CompileOptions) (hextension : '<' ∉ options.extension.toList) :
    (∀ (store : Option Store) (source : String),
      let a := analyze .builtin options.document source
      let ctx := a.context .builtin store options.extension
      a.aborted = none → ∃ c, compile (some .builtin) store options source = .ok c ∧
        (Html.Marked c.output → c.hasErrors = true ∨ ∃ scene, a.Astray store ctx scene)) ∧
    ∀ p : Project, p.Reachable → p.registry = .builtin → p.Completes →
      ∃ out q, p.compile options = .ok (out, q) ∧ ∀ d ∈ p.documents,
        let ctx := p.context d options.extension
        ∃ c, out.document? d.name = some c ∧
          (Html.Marked c.output → c.hasErrors = true ∨
            ∃ scene, (p.analysis d).Astray (some q.store) ctx scene) := by
  refine ⟨?_, ?_⟩
  · intro store source a ctx hdone
    refine ⟨_, compile_ok Registry.check_builtin store _ hdone, fun hmarked => ?_⟩
    have hreported := analyze_marked options.document source store options.extension rfl hextension
      options.bodyOnly (List.forall_mem_nil _) hmarked
    rwa [List.append_nil] at hreported
  · intro p hp hregistry hdone
    have hkeyed := hp.sound.1
    refine ⟨_, _, hkeyed.compile_ok (hregistry ▸ Registry.check_builtin) hdone options, ?_⟩
    intro d hd
    have hearly : ∀ x ∈ Project.takenReports p.merged (p.analysis d), x.isError = true := by
      intro x hx
      obtain ⟨entry, -, previous, -, rfl⟩ := Project.mem_takenReports.mp hx
      rfl
    simp only [hkeyed.context_eq hd]
    refine ⟨_, hkeyed.document?_output hd options, ?_⟩
    exact analyze_marked d.name d.source (some p.finished) options.extension hregistry hextension
      options.bodyOnly hearly

theorem marked_has_errors_geese :
    '<' ∉ "html".toList ∧
    (∃ c, compile (some .builtin) none { document := "zoo" } "\\Include[geese]" = .ok c ∧
      Html.Marked c.output ∧ (c.hasErrors = true ∨ ∃ scene,
        (analyze .builtin "zoo" "\\Include[geese]").Astray none
          ((analyze .builtin "zoo" "\\Include[geese]").context .builtin none "html") scene)) ∧
    Project.birds.Reachable ∧ Project.birds.registry = .builtin ∧
    ∃ out q, Project.birds.compile {} = .ok (out, q) ∧ ∀ d ∈ Project.birds.documents,
      ∃ c, out.document? d.name = some c ∧ (Html.Marked c.output → c.hasErrors = true ∨
        ∃ scene, (Project.birds.analysis d).Astray (some q.store)
          (Project.birds.context d "html") scene) := by
  have hplain : '<' ∉ "html".toList := by decide
  obtain ⟨c, hcompile, hreported⟩ :=
    (marked_has_errors { document := "zoo" } hplain).1 none "\\Include[geese]" (by decide +kernel)
  have hmarked : Html.Marked c.output := by
    obtain ⟨-, rfl⟩ := (compile_eq_ok_iff Registry.check_builtin).mp hcompile
    decide +kernel
  exact ⟨hplain, ⟨c, hcompile, hmarked, hreported hmarked⟩, Project.birds_reachable, rfl,
    (marked_has_errors {} hplain).2 Project.birds Project.birds_reachable rfl
      Project.birds_completes⟩

/-- An inclusion that is astray leaves its mark, and nothing is reported: a
header of the document is taken for the target. -/
theorem inclusion_marked_silently :
    ∃ c, compile (some .builtin) none { bodyOnly := true, document := "zoo" }
        "\\h[1][Geese]\n\n\\Include[geese]" = .ok c ∧
      Html.Marked c.output ∧ c.hasErrors = false := by
  refine ⟨_, compile_ok Registry.check_builtin none _ (by decide +kernel), ?_⟩
  decide +kernel

end Macromark
