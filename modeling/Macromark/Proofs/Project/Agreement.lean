import Macromark.Proofs.Html.Render
import Macromark.Proofs.Project.Compile

/-!
# A project and its documents

What a document of a project is compiled to can be had from the document alone
and the finished store. Two different questions decide which references of the
document lead somewhere; they have the same answers (`Keyed.resolves_merged`),
since an identifier that a document does not get is always held by another one.
-/

namespace Macromark.Project

variable {p : Project} {d : Document} {id : String} {options : CompileOptions}

def links (p : Project) (d : Document) : Selection :=
  select ((p.analysis d).resolves (some p.finished)) (p.analysis d).contribution.references

def page (p : Project) (options : CompileOptions) (d : Document) : String × List Diagnostic :=
  (p.analysis d).render p.registry (some p.finished)
    ((p.links d).resolutions d.name (p.analysis d).linkSites
      (p.analysis d).contribution.references) options

def later (p : Project) (options : CompileOptions) (d : Document) : List Diagnostic :=
  (p.links d).diagnostics ++ (p.page options d).2

theorem page_faults (p : Project) (options : CompileOptions) (d : Document) :
    ∀ x ∈ (p.page options d).2, x.OfLink d.name :=
  RenderContext.renderDocument_faults _ _

theorem compile_alone (hcheck : p.registry.check = .ok ()) (options : CompileOptions)
    (hdone : (p.analysis d).aborted = none) :
    Macromark.compile (some p.registry) (some p.finished) { options with document := d.name }
      d.source =
        .ok ((p.analysis d).finish (p.page options d).1 (p.later options d)
          { options with document := d.name }) := by
  exact Macromark.compile_ok hcheck (some p.finished) { options with document := d.name } hdone

section
variable (h : p.Keyed) (hd : d ∈ p.documents)
include h

theorem Keyed.document_eq {e : Document} (hd : d ∈ p.documents) (he : e ∈ p.documents)
    (hname : d.name = e.name) : d = e := List.inj_on_of_nodup_map h.names hd he hname

include hd

/-- What the store gives to a document stands in its contribution. -/
theorem Keyed.get?_own (hr : p.merged.records.get? id = some r) (hdocument : r.document = d.name) :
    (p.analysis d).contribution.ids.get? id = some r := by
  rcases Option.or_eq_some_iff.mp ((get?_mergeAll h.mergeable id).symm.trans hr) with
    hr | ⟨-, hr⟩
  · have hfree := (p.store.clear_freeOf p.names).records _ (OrderedMap.mem_of_get? hr)
    exact absurd (List.mem_map_of_mem hd) (hdocument ▸ hfree)
  · obtain ⟨a, ha, hr⟩ := List.exists_of_findSome?_eq_some hr
    obtain ⟨e, he, rfl, hsound⟩ := mem_analyses ha
    have howned := (hsound.contribution.records _ (OrderedMap.mem_of_get? hr)).owned
    obtain rfl := h.document_eq hd he (hdocument.symm.trans (howned.trans hsound.owner))
    exact hr

/-- What a document defines is held by somebody. -/
theorem Keyed.get?_defined (hown : (p.analysis d).contribution.ids.get? id = some own) :
    ∃ r, p.merged.records.get? id = some r := by
  rw [← Option.isSome_iff_exists, merged, get?_mergeAll h.mergeable, Option.isSome_or,
    Bool.or_eq_true, List.findSome?_isSome_iff]
  exact .inr ⟨p.analysis d, List.mem_map_of_mem hd, Option.isSome_iff_exists.mpr ⟨own, hown⟩⟩

theorem Keyed.knows_merged (id : String) :
    p.merged.knows id [] = (p.analysis d).knows (some p.finished) id := by
  have hids := p.get?_defines d id
  rw [Bool.eq_iff_iff, Store.knows_iff, Analysis.knows, Bool.or_eq_true, Index.contains_iff]
  simp only [Option.any_some, Store.knows_iff, List.mem_singleton]
  constructor
  · rintro ⟨r, hr, -⟩
    by_cases hdocument : r.document = d.name
    · exact .inl ⟨r, hids ▸ h.get?_own hd hr hdocument⟩
    · exact .inr ⟨r, hr, hdocument⟩
  · rintro (⟨r, hr⟩ | ⟨r, hr, -⟩)
    · obtain ⟨held, hheld⟩ := h.get?_defined hd (hids ▸ hr)
      exact ⟨held, hheld, List.not_mem_nil⟩
    · exact ⟨r, hr, List.not_mem_nil⟩

theorem Keyed.resolves_merged (r : Reference) :
    resolves p.merged r = (p.analysis d).resolves (some p.finished) r := by
  rw [resolves, Analysis.resolves, h.knows_merged hd, h.knows_merged hd]

/-- The references of a document stand together, and no others stand in it. -/
theorem Keyed.references_split : ∃ first later,
    p.references = first ++ (p.analysis d).contribution.references ++ later ∧
      (∀ r ∈ first, r.site.document ≠ d.name) ∧ ∀ r ∈ later, r.site.document ≠ d.name := by
  obtain ⟨before, after, hsplit⟩ := List.append_of_mem hd
  have hnames := h.names
  rw [Project.names, hsplit, List.map_append, List.map_cons] at hnames
  have hother : ∀ documents : List Document, d.name ∉ documents.map (·.name) →
      ∀ r ∈ (documents.map p.analysis).flatMap (·.contribution.references),
        r.site.document ≠ d.name := by
    intro documents hnew r hr heq
    obtain ⟨a, ha, hr⟩ := List.mem_flatMap.mp hr
    obtain ⟨e, he, rfl⟩ := List.mem_map.mp ha
    have hsite := ((p.analysis_sound e).references r hr).1
    exact hnew (List.mem_map.mpr ⟨e, he, hsite.symm.trans heq⟩)
  refine ⟨_, _, ?_, hother before ?_, hother after ?_⟩
  · simp [references, analyses, hsplit]
  · exact fun hmem => (List.nodup_append.mp hnames).2.2 d.name hmem d.name List.mem_cons_self rfl
  · exact (List.nodup_cons.mp (List.nodup_append.mp hnames).2.1).1

/-- The links of a document are resolved as if it were alone. -/
theorem Keyed.links_merged :
    p.selection.resolutions d.name (p.analysis d).linkSites p.references =
      (p.links d).resolutions d.name (p.analysis d).linkSites
        (p.analysis d).contribution.references ∧
    p.selection.diagnostics.filter (·.document == d.name) = (p.links d).diagnostics := by
  obtain ⟨first, after, hsplit, hfirst, hlater⟩ := h.references_split hd
  have hown : ∀ r ∈ (p.analysis d).contribution.references, r.site.document = d.name :=
    fun r hr => ((p.analysis_sound d).references r hr).1
  have hresolves : ∀ r ∈ (p.analysis d).contribution.references,
      resolves p.merged r = (p.analysis d).resolves (some p.finished) r :=
    fun r _ => h.resolves_merged hd r
  rw [selection, hsplit]
  exact ⟨Selection.resolutions_own hfirst hown hlater hresolves _,
    Selection.diagnostics_own hfirst hown hlater hresolves⟩

theorem Keyed.compiled_eq (options : CompileOptions) :
    p.compiled options (p.analysis d) =
      ⟨d.name, (yielded p.merged (p.analysis d)).finish (p.page options d).1 (p.later options d)
        { options with document := d.name }⟩ := by
  obtain ⟨hresolutions, hdiagnostics⟩ := h.links_merged hd
  have hpage : (yielded p.merged (p.analysis d)).render p.registry (some p.finished)
      (p.selection.resolutions d.name (p.analysis d).linkSites p.references) options =
        p.page options d := by
    rw [hresolutions]
    rfl
  rw [later, ← hdiagnostics, ← hpage]
  rfl

theorem Keyed.document?_output (options : CompileOptions) :
    (p.output options).document? d.name =
      some ((yielded p.merged (p.analysis d)).finish (p.page options d).1 (p.later options d)
        { options with document := d.name }) := by
  have hfind : p.analyses.find? (·.document == d.name) = some (p.analysis d) := by
    cases hfound : p.analyses.find? (·.document == d.name) with
    | none =>
      have hnone := List.find?_eq_none.mp hfound (p.analysis d) (List.mem_map_of_mem hd)
      exact absurd (beq_self_eq_true d.name) hnone
    | some a =>
      obtain ⟨e, he, rfl, hsound⟩ := mem_analyses (List.mem_of_find?_eq_some hfound)
      have hname : e.name = d.name := by simpa [hsound.name] using List.find?_some hfound
      rw [h.document_eq he hd hname]
  have hcompiled : (p.output options).documents.find? (·.name == d.name) =
      some (p.compiled options (p.analysis d)) := by
    rw [output, List.find?_map]
    exact congrArg (Option.map (p.compiled options)) hfind
  rw [CompiledProject.document?, hcompiled, h.compiled_eq hd]
  rfl

/-- Where the diagnostics of a document come from. -/
theorem Keyed.countP_diagnostics (hc : (p.output options).document? d.name = some c)
    {count : Diagnostic → Bool} (hcount : ∀ x, count (x.within d.name) = count x) :
    c.diagnostics.countP count =
      (p.analysis d).diagnostics.countP count +
        (takenReports p.finished (p.analysis d)).countP count +
        ((p.links d).diagnostics.countP count + (p.page options d).2.countP count) := by
  obtain rfl := Option.some.inj ((h.document?_output hd options).symm.trans hc)
  have hwithin : count ∘ (·.within d.name) = count := funext hcount
  change ((((p.analysis d).diagnostics ++ takenReports p.finished (p.analysis d)) ++
    ((p.links d).diagnostics ++ (p.page options d).2)).map (·.within d.name)).countP count = _
  rw [List.countP_map, hwithin, List.countP_append, List.countP_append, List.countP_append]

end

theorem Keyed.names_output (h : p.Keyed) (options : CompileOptions) :
    (p.output options).documents.map (·.name) = p.names := by
  simp only [output, analyses, List.map_map]
  refine List.map_congr_left fun d hd => ?_
  exact congrArg CompiledDocument.name (h.compiled_eq hd options)

-- ----------------------------------------------------------------------------
-- The two compilations
-- ----------------------------------------------------------------------------

theorem within_own {x : Diagnostic} (h : x.document = document) : x.within document = x := by
  unfold Diagnostic.within
  split
  · next hempty => rw [← h.trans rfl]
  · rfl

/-- A document of a project is compiled as it would be alone against the
finished store. Only the reports of identifiers that other documents hold come
to it, behind what the analysis reports. -/
theorem compile_document_alone (h : p.Reachable) (hcheck : p.registry.check = .ok ())
    (hdone : p.Completes) (options : CompileOptions) :
    ∃ out q, p.compile options = .ok (out, q) ∧
      out.documents.map (·.name) = p.names ∧
      ∀ d ∈ p.documents, ∃ inProject alone later,
        out.document? d.name = some inProject ∧
        Macromark.compile (some p.registry) (some q.store) { options with document := d.name }
          d.source = .ok alone ∧
        inProject.output = alone.output ∧ inProject.ids = alone.ids ∧
        inProject.tokens = alone.tokens ∧ inProject.tree = alone.tree ∧
        inProject.headers = alone.headers ∧ inProject.listings = alone.listings ∧
        alone.diagnostics = (p.analysis d).diagnostics.map (·.within d.name) ++ later ∧
        inProject.diagnostics = (p.analysis d).diagnostics.map (·.within d.name) ++
          takenReports q.store (p.analysis d) ++ later ∧
        ∀ x ∈ takenReports q.store (p.analysis d), ∃ id, x.reportsTaken d.name id = true := by
  obtain ⟨hkeyed, hsound⟩ := h.sound
  refine ⟨_, _, hkeyed.compile_ok hcheck hdone options, ?_, ?_⟩
  · simp only [output, List.map_map, ← documents_analyses]
    rfl
  intro d hd
  have hreports : ∀ x ∈ takenReports p.finished (p.analysis d),
      x.document = d.name ∧ ∃ id, x.reportsTaken d.name id = true :=
    fun x hx => reportsTaken_of_mem (hkeyed.sound_finished hsound) hx
  have hwithin : (takenReports p.finished (p.analysis d)).map (·.within d.name) =
      takenReports p.finished (p.analysis d) :=
    (List.map_congr_left fun x hx => within_own (hreports x hx).1).trans (List.map_id _)
  refine ⟨_, _, (p.later options d).map (·.within d.name), hkeyed.document?_output hd options,
    compile_alone hcheck options (hdone d hd), rfl, rfl, rfl, rfl, rfl, rfl, ?_, ?_,
    fun x hx => (hreports x hx).2⟩
  · exact List.map_append
  · change (((p.analysis d).diagnostics ++ takenReports p.finished (p.analysis d)) ++
      p.later options d).map (·.within d.name) = _
    rw [List.map_append, List.map_append, hwithin]

theorem compile_document_alone_birds : ∃ out q inProject alone,
    birds.compile { showTree := true } = .ok (out, q) ∧
      out.document? "ducks" = some inProject ∧
      Macromark.compile (some .builtin) (some q.store) { showTree := true, document := "ducks" }
        "\\h[1][Geese]\n\n\\h[1][Swans]\n\n\\x[ducks]" = .ok alone ∧
      inProject.output = alone.output ∧ inProject.listings = alone.listings := by
  obtain ⟨out, q, hcompile, -, hdocuments⟩ :=
    compile_document_alone birds_reachable Registry.check_builtin birds_completes
      { showTree := true }
  obtain ⟨inProject, alone, -, hin, halone, houtput, -, -, -, -, hlistings, -⟩ :=
    hdocuments _ (List.mem_cons_self)
  exact ⟨out, q, inProject, alone, hcompile, hin, halone, houtput, hlistings⟩

end Macromark.Project
