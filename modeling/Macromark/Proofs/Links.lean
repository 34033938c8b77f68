import Macromark.Proofs.Assembly.Notes
import Macromark.Proofs.Compile
import Macromark.Proofs.Project.Integrity

/-!
# What becomes of every link

Each link of a document has a position for its target that no other link has
(`Analysis.Linked`), so that it gets one resolution: a target that rendering
finds, or one that is reported at that position (`Linked.settled`). Rendering
never has to look for a target that was not resolved.
-/

namespace Macromark

def Tree.IsLink (t : Tree) (id : NodeId) : Prop :=
  t.Reaches t.root id ∧ t.name? id = some MacroName.crossReference

/-- A reference that leads nowhere is reported at `position`. -/
def Diagnostic.unresolvedAt (position : Position) (d : Diagnostic) : Bool :=
  d.position == position && d.problem.code? == some "unresolved-reference"

/-- Every link has its place and one resolution. Of the resolutions to a target
rendering finds the record, and every other one has been reported once. -/
structure RenderContext.Settled (ctx : RenderContext) (diagnostics : List Diagnostic) : Prop where
  placed : ∀ id, ctx.tree.IsLink id → ∃ position, ctx.tree.href? id = some position
  apart : ∀ a b position, ctx.tree.IsLink a → ctx.tree.IsLink b →
    ctx.tree.href? a = some position → ctx.tree.href? b = some position → a = b
  once : ∀ id, ctx.tree.IsLink id → ctx.resolutions.countP (·.1 == id) = 1
  known : ∀ id target, ctx.tree.IsLink id → ctx.resolutions.get? id = some (.target target) →
    ∃ r, ctx.record? target = some r
  reported : ∀ id target position, ctx.tree.IsLink id →
    ctx.resolutions.get? id = some (.unknown target) → ctx.tree.href? id = some position →
    diagnostics.countP (·.unresolvedAt position) = 1
  /-- Rendering comes to no link that was never resolved. -/
  resolved : ∀ scene, ctx.Visits scene → scene.call.name = MacroName.crossReference →
    ctx.resolutions.get? scene.id = some (scene.linkTarget ctx)
  silent : ∀ d ∈ diagnostics, ∀ target, d.problem ≠ .brokenLink (.unknownTarget target)

-- ----------------------------------------------------------------------------
-- What an analysis says of its links
-- ----------------------------------------------------------------------------

/-- What links need of a registry. -/
structure Registry.Linkable (registry : Registry) : Prop where
  coherent : registry.Coherent
  author : Assembly.AuthorOnly registry
  declares : ∀ d, registry.get? MacroName.crossReference = some d → "href" ∈ d.argumentNames
  only : ∀ name d, registry.get? name = some d → d.rendering = .crossReference →
    name = MacroName.crossReference

theorem Registry.linkable_builtin : Registry.builtin.Linkable := by
  refine ⟨coherent_builtin, ?_, ?_, ?_⟩
  · rintro name hname (rfl | ⟨d, hd, gathering, hgathering, rfl⟩)
    · exact absurd hname (by decide)
    · have hcontainers : ∀ d ∈ builtinMacros, ∀ gathering ∈ d.gathering,
          gathering.container ∉
            [MacroName.header, MacroName.crossReference, MacroName.inclusion] := by decide
      exact hcontainers d hd gathering hgathering hname
  · intro d hd
    have hhref : ∀ d ∈ builtinMacros, d.name = MacroName.crossReference →
        "href" ∈ d.argumentNames := by decide
    exact hhref d (List.mem_of_find?_eq_some hd) (name_of_get? hd)
  · intro name d hd hrendering
    have hlink : ∀ d ∈ builtinMacros, d.rendering = .crossReference →
        d.name = MacroName.crossReference := by decide
    exact (name_of_get? hd).symm.trans (hlink d (List.mem_of_find?_eq_some hd) hrendering)

/-- The links of a document are told apart by their positions, and something is
noted of each of them. -/
structure Analysis.Linked (a : Analysis) : Prop where
  site : ∀ id, a.tree.IsLink id → ∃ position, a.tree.href? id = some position ∧
    a.linkSites.get? position = some id ∧
    ∃ r ∈ a.contribution.references, r.groupKey = ⟨a.document, position, .crossReference⟩
  back : ∀ position id, a.linkSites.get? position = some id → a.tree.href? id = some position
  /-- Only links give references at the position of a link. -/
  alone : ∀ position id, a.linkSites.get? position = some id →
    ∀ r ∈ a.contribution.references, r.site.position = position →
      r.kind = .crossReference ∨ r.kind = .titleInTitle

/-- A macro has every argument of its definition. -/
theorem Tree.Declared.exists_href? {registry : Registry} {t : Tree} {id : NodeId} {call : MacroCall}
    (h : t.Declared registry) (hcall : t.call? id = some call)
    (hhref : ∀ d, registry.get? call.name = some d → "href" ∈ d.argumentNames) :
    ∃ position, t.href? id = some position := by
  obtain ⟨d, hd, harguments⟩ := h id call hcall
  have hhref : "href" ∈ call.arguments.map (·.name) := harguments ▸ hhref d hd
  obtain ⟨argument, hargument, hhref⟩ := List.mem_map.mp hhref
  have hfound : (call.argument? "href").isSome :=
    List.find?_isSome.mpr ⟨argument, hargument, beq_iff_eq.mpr hhref⟩
  obtain ⟨href, hhref⟩ := Option.isSome_iff_exists.mp hfound
  exact ⟨href.position, by rw [Tree.href?, hcall, Option.bind_some, hhref, Option.map_some]⟩

theorem Tree.Declared.href? {registry : Registry} {t : Tree} {id : NodeId}
    (h : t.Declared registry) (hregistry : registry.Linkable)
    (hname : t.name? id = some MacroName.crossReference) :
    ∃ position, t.href? id = some position := by
  obtain ⟨call, hcall, hlink⟩ := Option.map_eq_some_iff.mp hname
  exact h.exists_href? hcall fun d hd => hregistry.declares d (hlink ▸ hd)

theorem analyze_linked {registry : Registry} (hregistry : registry.Linkable)
    (document source : String) : (analyze registry document source).Linked := by
  obtain ⟨nodes, s, hnoted, hdeclared, htree, hreferences, hsites, hreached⟩ :=
    analyze_noted hregistry.coherent hregistry.author document source
  have hdocument : (analyze registry document source).document = document := rfl
  have hwritten : ∀ id name, s.tree.name? id = some name →
      name ∈ [MacroName.header, MacroName.crossReference, MacroName.inclusion] →
      s.tree.Written registry id :=
    fun id name hname hmem => ⟨name, hname, hregistry.author name hmem⟩
  generalize analyze registry document source = a at htree hreferences hsites hdocument
  refine ⟨?_, ?_, ?_⟩
  · rintro id ⟨hid, hname⟩
    rw [htree] at hid hname
    obtain ⟨position, hhref⟩ := hdeclared.href? hregistry hname
    obtain ⟨hsite, hrow⟩ := hnoted.links id (hreached id hid) hname position hhref
    rw [htree, hsites, hreferences, hdocument]
    exact ⟨position, hhref, hsite, hrow⟩
  · intro position id hsite
    rw [hsites] at hsite
    rw [htree]
    exact (hnoted.sites position id hsite).2.2
  · intro position id hsite r hr hposition
    rw [hsites] at hsite
    rw [hreferences] at hr
    obtain ⟨-, hname, hhref⟩ := hnoted.sites position id hsite
    rcases hnoted.rows r hr with hkind | ⟨other, -, name, hother, hnames, hfoot⟩
    · exact hkind
    · -- the macro that noted it would have the position of the link
      have heq : other = id := by
        refine hnoted.apart other id position (hwritten other name hother ?_)
          (hwritten id _ hname (by simp)) (hposition ▸ hfoot)
          (Tree.mem_footprint_of_href? hname (by decide) hhref)
        rcases hnames with rfl | rfl <;> simp
      rw [heq, hname] at hother
      obtain rfl := Option.some.inj hother
      exact absurd hnames (by decide)

-- ----------------------------------------------------------------------------
-- What is reported
-- ----------------------------------------------------------------------------

/-- Not about the target of a link. -/
def Diagnostic.OffTarget (d : Diagnostic) : Prop :=
  d.problem.code? ≠ some "unresolved-reference" ∧
    ∀ target, d.problem ≠ .brokenLink (.unknownTarget target)

theorem Problem.Local.offTarget {document : String} {d : Diagnostic}
    (h : d.problem.Local document) : d.OffTarget := by
  obtain ⟨problem, position, owner⟩ := d
  cases problem <;> first | exact h.elim | exact ⟨by simp [Problem.code?], by simp⟩

theorem Diagnostic.OffTarget.unresolvedAt {d : Diagnostic} (h : d.OffTarget) (position : Position) :
    d.unresolvedAt position = false := by
  simp [Diagnostic.unresolvedAt, h.1]

theorem Project.offTarget_takenReports {s : Store} {a : Analysis} (hd : d ∈ takenReports s a) :
    d.OffTarget := by
  obtain ⟨entry, -, previous, -, rfl⟩ := mem_takenReports.mp hd
  exact ⟨by simp [Problem.code?], by simp⟩

@[simp] theorem Diagnostic.unresolvedAt_within (document : String) (position : Position)
    (d : Diagnostic) : (d.within document).unresolvedAt position = d.unresolvedAt position := by
  unfold Diagnostic.within
  split <;> rfl

theorem Selection.problem_diagnostics {s : Selection} (hd : d ∈ s.diagnostics) (fault : LinkFault) :
    d.problem ≠ .brokenLink fault := by
  obtain ⟨lost, -, hlost⟩ := List.mem_filterMap.mp hd
  obtain ⟨problem, hproblem, rfl⟩ := Option.map_eq_some_iff.mp hlost
  unfold Selection.problem? at hproblem
  split at hproblem <;> cases hproblem <;> simp

/-- Where only links stand, a lost link is all that is reported as unresolved. -/
theorem Selection.countP_unresolvedAt {resolves : Reference → Bool} {references : List Reference}
    {key : GroupKey} (hsites : ∀ r ∈ references, r.site.document = key.document)
    (hkind : key.kind = .crossReference)
    (halone : ∀ r ∈ references, r.site.position = key.position →
      r.kind = .crossReference ∨ r.kind = .titleInTitle)
    (hmembers : members references key ≠ [])
    (hlost : ∀ placed ∈ members references key, resolves placed.1 = false) :
    (select resolves references).diagnostics.countP (·.unresolvedAt key.position) = 1 := by
  rw [← Selection.countP_unresolved hsites (.inl hkind) hmembers hlost]
  refine List.countP_congr ?_
  intro d hd
  obtain ⟨lost, hunresolved, hreport⟩ := List.mem_filterMap.mp hd
  obtain ⟨problem, hproblem, rfl⟩ := Option.map_eq_some_iff.mp hreport
  obtain ⟨⟨r, place⟩, hmember⟩ := List.exists_mem_of_ne_nil _ (mem_unresolved.mp hunresolved).1
  obtain ⟨hr, hkey⟩ := mem_members.mp hmember
  have hlink : lost.key.position = key.position → problem = .unresolvedLink lost.target := by
    intro hposition
    have hkinds := halone r (List.mem_of_getElem? hr) ((congrArg (·.position) hkey).trans hposition)
    rw [show r.kind = lost.key.kind from congrArg (·.kind) hkey] at hkinds
    unfold problem? at hproblem
    rcases hkinds with hcross | htitle
    · rw [hcross] at hproblem
      exact (Option.some.inj hproblem).symm
    · rw [htitle] at hproblem
      cases hproblem
  by_cases hposition : lost.key.position = key.position
  · simp [Diagnostic.unresolvedAt, Diagnostic.reportsUnresolved, hkind, hlink hposition]
  · simp [Diagnostic.unresolvedAt, Diagnostic.reportsUnresolved, hposition]

-- ----------------------------------------------------------------------------
-- What becomes of the links of an analysis
-- ----------------------------------------------------------------------------

namespace Analysis

variable {a : Analysis} {registry : Registry} {id : NodeId} {target : String}

theorem exists_record (registry : Registry) (store : Option Store) (extension : String)
    (h : a.knows store target = true) :
    ∃ r, (a.context registry store extension).record? target = some r := by
  rw [knows, Bool.or_eq_true] at h
  change ∃ r, (a.index.record? target).or
    (store.bind fun store => (store.lookup [target] [a.document]).head?) = some r
  rcases h with hown | hother
  · obtain ⟨r, hr⟩ := Index.contains_iff.mp hown
    exact ⟨r, by rw [hr, Option.some_or]⟩
  · rw [← Option.isSome_iff_exists, Option.isSome_or, Bool.or_eq_true]
    right
    cases store with
    | none => simp at hother
    | some store =>
      obtain ⟨r, hr, hdocument⟩ := (Store.knows_iff store target [a.document]).mp hother
      rw [Option.bind_some, Store.lookup_one, hr]
      simpa using hdocument

variable (h : a.Linked) (store : Option Store) (extension : String)
include h

theorem Linked.exists_resolution (registry : Registry) (hid : a.tree.IsLink id) :
    ∃ resolution, (a.context registry store extension).resolutions.get? id = some resolution := by
  obtain ⟨position, -, hsite, r, hr, hkey⟩ := h.site id hid
  obtain ⟨place, hplace⟩ := List.mem_iff_getElem?.mp hr
  have hmembers : Selection.members a.contribution.references
      ⟨a.document, position, .crossReference⟩ ≠ [] :=
    List.ne_nil_of_mem (Selection.mem_members.mpr ⟨hplace, hkey⟩)
  exact Selection.exists_resolution hmembers rfl rfl hsite

omit h in
theorem exists_record_of_resolution
    (hresolution : (a.context registry store extension).resolutions.get? id =
      some (.target target)) :
    ∃ r, (a.context registry store extension).record? target = some r := by
  rcases Selection.mem_of_get?_resolutions hresolution with hkept | hlost
  · obtain ⟨place, hplace, r, hr, -, -, htarget⟩ := Selection.mem_targets.mp hkept
    obtain ⟨won, hwon, hwinner⟩ := Selection.mem_selected.mp hplace
    obtain rfl := Option.some.inj (hr.symm.trans hwon)
    obtain rfl := Resolution.target.inj htarget
    have hresolves := (Selection.winner?_eq_some hwinner).2
    simp only [resolves, Bool.and_eq_true] at hresolves
    exact exists_record registry store extension hresolves.2
  · obtain ⟨lost, -, -, -, htarget⟩ := Selection.mem_unknowns.mp hlost
    cases htarget

/-- A link that leads nowhere is reported where its target is written. -/
theorem Linked.countP_unresolvedAt (hsound : a.Sound a.document) {position : Position}
    (hresolution : (a.context registry store extension).resolutions.get? id =
      some (.unknown target)) (hhref : a.tree.href? id = some position) :
    (a.links store).diagnostics.countP (·.unresolvedAt position) = 1 := by
  rcases Selection.mem_of_get?_resolutions hresolution with hkept | hlost
  · obtain ⟨place, -, r, -, -, -, htarget⟩ := Selection.mem_targets.mp hkept
    cases htarget
  · obtain ⟨lost, hunresolved, ⟨hkind, hdocument⟩, hsite, -⟩ := Selection.mem_unknowns.mp hlost
    obtain rfl := Option.some.inj ((h.back _ id hsite).symm.trans hhref)
    obtain ⟨hmembers, hnone, -⟩ := Selection.mem_unresolved.mp hunresolved
    refine Selection.countP_unresolvedAt ?_ hkind (h.alone _ id hsite) hmembers hnone
    intro r hr
    exact (hsound.references r hr).1.trans hdocument.symm

theorem Linked.apart {b c : NodeId} {position : Position} (hb : a.tree.IsLink b)
    (hc : a.tree.IsLink c) (hhrefb : a.tree.href? b = some position)
    (hhrefc : a.tree.href? c = some position) : b = c := by
  obtain ⟨_, hposition, hsiteb, -⟩ := h.site b hb
  obtain rfl := Option.some.inj (hposition.symm.trans hhrefb)
  obtain ⟨_, hposition, hsitec, -⟩ := h.site c hc
  obtain rfl := Option.some.inj (hposition.symm.trans hhrefc)
  exact Option.some.inj (hsiteb.symm.trans hsitec)

theorem Linked.countP_resolutions (registry : Registry) (hid : a.tree.IsLink id) :
    (a.context registry store extension).resolutions.countP (·.1 == id) = 1 := by
  have hsorted : (a.context registry store extension).resolutions.Sorted :=
    Selection.resolutions_sorted _ _ _ _
  have hcontains : (a.context registry store extension).resolutions.contains id = true :=
    Option.isSome_iff_exists.mpr (h.exists_resolution store extension registry hid)
  rw [hsorted.countP_key, if_pos hcontains]

/-- Rendering never takes a target from the text of a link. -/
theorem Linked.resolved {scene : Scene}
    (hscene : (a.context registry store extension).Visits scene)
    (hname : scene.call.name = MacroName.crossReference) :
    (a.context registry store extension).resolutions.get? scene.id =
      some (scene.linkTarget (a.context registry store extension)) := by
  obtain ⟨hreached, hcall⟩ := hscene
  have hlink : a.tree.name? scene.id = some MacroName.crossReference := by
    rw [← hname]
    exact congrArg (Option.map (·.name)) hcall
  obtain ⟨resolution, hfound⟩ := h.exists_resolution store extension registry ⟨hreached, hlink⟩
  rw [Scene.linkTarget, hfound, Option.getD_some]

/-- The target of a link that rendering comes to has a record. -/
theorem Linked.rendered (hregistry : registry.Linkable) (bodyOnly : Bool) :
    ∀ d ∈ ((a.context registry store extension).renderDocument bodyOnly).2, d.OffTarget := by
  refine RenderContext.renderDocument_reports ?_ ?_ bodyOnly
  · intro position fault _ hfault
    refine ⟨by simp [Problem.code?], fun target htarget => hfault target ?_⟩
    exact Problem.brokenLink.inj htarget
  · rintro scene hscene ⟨d, hd, hrendering⟩ position target _ htarget hnone
    have hfound := h.resolved store extension hscene (hregistry.only _ d hd hrendering)
    rw [htarget] at hfound
    obtain ⟨r, hr⟩ := exists_record_of_resolution store extension hfound
    rw [hnone] at hr
    cases hr

/-- Where no link is reported, all of them lead somewhere. -/
theorem Linked.known (hsound : a.Sound a.document) (hsilent : (a.links store).diagnostics = [])
    {scene : Scene} (hscene : (a.context registry store extension).Visits scene)
    (hname : scene.call.name = MacroName.crossReference) (target : String) :
    scene.linkTarget (a.context registry store extension) ≠ .unknown target := by
  intro hunknown
  have hlink : a.tree.IsLink scene.id :=
    ⟨hscene.1, by rw [← hname]; exact congrArg (Option.map (·.name)) hscene.2⟩
  have hfound := h.resolved store extension hscene hname
  rw [hunknown] at hfound
  obtain ⟨position, hhref, -⟩ := h.site scene.id hlink
  have hreported := h.countP_unresolvedAt store extension hsound hfound hhref
  rw [hsilent] at hreported
  simp at hreported

/-- Whatever is known before the links are looked at, they are settled. -/
theorem Linked.settled (hsound : a.Sound a.document) (hregistry : registry.Linkable)
    (bodyOnly : Bool) {early : List Diagnostic} (hearly : ∀ d ∈ early, d.OffTarget) :
    (a.context registry store extension).Settled
      ((early ++ ((a.links store).diagnostics ++
        ((a.context registry store extension).renderDocument bodyOnly).2)).map
          (·.within a.document)) := by
  have hrendered := h.rendered store extension hregistry bodyOnly
  generalize ((a.context registry store extension).renderDocument bodyOnly).2 = late at hrendered
  refine ⟨?_, fun _ _ _ => h.apart, fun _ => h.countP_resolutions store extension registry,
    fun _ _ _ => exists_record_of_resolution store extension, ?_,
    fun _ => h.resolved store extension, ?_⟩
  · intro id hid
    obtain ⟨position, hhref, -⟩ := h.site id hid
    exact ⟨position, hhref⟩
  · intro id target position _ hfound hhref
    have hnone : ∀ diagnostics : List Diagnostic, (∀ d ∈ diagnostics, d.OffTarget) →
        diagnostics.countP (·.unresolvedAt position) = 0 := by
      intro diagnostics hoff
      refine List.countP_eq_zero.mpr fun d hd => ?_
      simp [(hoff d hd).unresolvedAt]
    have hwithin : Diagnostic.unresolvedAt position ∘ Diagnostic.within a.document =
        Diagnostic.unresolvedAt position :=
      funext (Diagnostic.unresolvedAt_within a.document position)
    rw [List.countP_map, hwithin, List.countP_append, List.countP_append, hnone early hearly,
      hnone late hrendered, Nat.zero_add, Nat.add_zero]
    exact h.countP_unresolvedAt store extension hsound hfound hhref
  · intro x hx target
    obtain ⟨d, hd, rfl⟩ := List.mem_map.mp hx
    rw [Diagnostic.problem_within]
    simp only [List.mem_append] at hd
    rcases hd with hd | hd | hd
    · exact (hearly d hd).2 target
    · exact Selection.problem_diagnostics hd _
    · exact (hrendered d hd).2 target

end Analysis

-- ----------------------------------------------------------------------------
-- One document and a project
-- ----------------------------------------------------------------------------

/-- What the rendering of a document of a project depends on. -/
def Project.context (p : Project) (d : Document) (extension : String) : RenderContext :=
  { registry := p.registry, document := d.name, tree := (p.analysis d).tree
    index := (p.analysis d).index, headers := (p.analysis d).headers
    store := some p.finished, extension
    resolutions := p.selection.resolutions d.name (p.analysis d).linkSites p.references }

theorem Project.Keyed.context_eq {p : Project} (h : p.Keyed) (hd : d ∈ p.documents)
    (extension : String) :
    p.context d extension =
      (p.analysis d).context p.registry (some p.finished) extension := by
  rw [context, (h.links_merged hd).1]
  rfl

/-- Every link is resolved exactly once, in a document that is compiled alone
and in each document of a project. -/
theorem links_resolved_once :
    (∀ (store : Option Store) (options : CompileOptions) (source : String),
      let a := analyze .builtin options.document source
      let ctx := a.context .builtin store options.extension
      a.aborted = none → ∃ c, compile (some .builtin) store options source = .ok c ∧
        c.output = (ctx.renderDocument options.bodyOnly).1 ∧ c.tree = ctx.tree ∧
        ctx.Settled c.diagnostics) ∧
    ∀ p : Project, p.Reachable → p.registry = .builtin → p.Completes → ∀ options : CompileOptions,
      ∃ out q, p.compile options = .ok (out, q) ∧ ∀ d ∈ p.documents,
        let ctx := p.context d options.extension
        ∃ c, out.document? d.name = some c ∧
          c.output = (ctx.renderDocument options.bodyOnly).1 ∧ c.tree = ctx.tree ∧
          ctx.store = some q.store ∧ ctx.Settled c.diagnostics := by
  refine ⟨?_, ?_⟩
  · intro store options source a ctx hdone
    have hsound := analyze_sound .builtin options.document source
    have hlinked := analyze_linked Registry.linkable_builtin options.document source
    refine ⟨_, compile_ok Registry.check_builtin store _ hdone, rfl, rfl, ?_⟩
    exact hlinked.settled store options.extension hsound Registry.linkable_builtin
      options.bodyOnly fun d hd => (hsound.diagnostics d hd).offTarget
  · intro p hp hregistry hdone options
    have hkeyed := hp.sound.1
    have hlinkable : p.registry.Linkable := hregistry ▸ Registry.linkable_builtin
    refine ⟨_, _, hkeyed.compile_ok (hregistry ▸ Registry.check_builtin) hdone options, ?_⟩
    intro d hd
    have hsound := p.analysis_sound d
    have hlinked : (p.analysis d).Linked := analyze_linked hlinkable d.name d.source
    have hearly : ∀ x ∈ (p.analysis d).diagnostics ++
        Project.takenReports p.merged (p.analysis d), x.OffTarget := by
      intro x hx
      rcases List.mem_append.mp hx with hx | hx
      · exact (hsound.diagnostics x hx).offTarget
      · exact Project.offTarget_takenReports hx
    have hsettled := hlinked.settled (some p.finished) options.extension hsound hlinkable
      options.bodyOnly hearly
    simp only [hkeyed.context_eq hd]
    exact ⟨_, hkeyed.document?_output hd options, rfl, rfl, rfl, hsettled⟩

theorem links_resolved_once_birds :
    Project.birds.Reachable ∧ Project.birds.registry = .builtin ∧
    ∃ out q, Project.birds.compile {} = .ok (out, q) ∧
      ∀ d ∈ Project.birds.documents, ∃ c, out.document? d.name = some c ∧
        (Project.birds.context d "html").Settled c.diagnostics := by
  obtain ⟨out, q, hcompile, hdocuments⟩ :=
    links_resolved_once.2 Project.birds Project.birds_reachable rfl Project.birds_completes {}
  refine ⟨Project.birds_reachable, rfl, out, q, hcompile, ?_⟩
  intro d hd
  obtain ⟨c, hc, -, -, -, hsettled⟩ := hdocuments d hd
  exact ⟨c, hc, hsettled⟩

end Macromark
