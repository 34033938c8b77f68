import Macromark.Proofs.Assembly.Inclusions
import Macromark.Proofs.Links
import Macromark.Proofs.Project.Ownership
import Macromark.Proofs.Project.Search

/-!
# Which documents are reached

The inclusions of a project are read from the references that are left after
links have been disambiguated, and headers leave references of the same kind.
If no identifier is defined twice, no header is taken for a document and no
inclusion of a document is lost (`Keyed.mem_edges_iff`), so that the search finds
what chains of inclusions lead to (`compile_reports_unreachable`). An inclusion
counts as it was written: where a paragraph break stands in it, it looks
different in the finished document (`compile_reports_unreachable_torn`), and
where a macro takes one argument twice, it is read twice (`reached_doubled`).
-/

namespace Macromark

theorem Diagnostic.isDuplicateId_of_taken {x : Diagnostic} {document id : String}
    (h : x.reportsTaken document id = true) : x.problem.isDuplicateId = true := by
  unfold reportsTaken at h
  split at h
  · next hproblem => rw [hproblem]; rfl
  · cases h

namespace Project

variable {p q : Project} {d e : Document} {options : CompileOptions} {out : CompiledProject}
variable {source target name id : String} {x : NodeId}

def writtenTarget (p : Project) (d : Document) (x : NodeId) : String :=
  (parse p.registry (tokenize d.source).tokens).tree.inclusionTarget p.registry x

def finishedTarget (p : Project) (d : Document) (x : NodeId) : String :=
  (p.analysis d).tree.inclusionTarget p.registry x

def Includes (p : Project) (text : Document → NodeId → String) (source target : String) : Prop :=
  target ∈ p.names ∧ ∃ d ∈ p.documents, d.name = source ∧
    ∃ x, (p.analysis d).tree.IsInclusion x ∧ text d x = target

def Chain (p : Project) (text : Document → NodeId → String) (name : String) : Prop :=
  ∃ start, p.indexDocument = some start ∧ Relation.ReflTransGen (p.Includes text) start name

/-- No identifier is defined by two documents. -/
def OneDefinition (p : Project) : Prop :=
  ∀ d ∈ p.documents, ∀ e ∈ p.documents, ∀ id, (p.analysis d).index.contains id = true →
    (p.analysis e).index.contains id = true → d = e

-- ----------------------------------------------------------------------------
-- Identifiers
-- ----------------------------------------------------------------------------

theorem mem_allDiagnostics {c : Compiled} (hc : out.document? name = some c) {y : Diagnostic}
    (hy : y ∈ c.diagnostics) : y ∈ out.allDiagnostics := by
  obtain ⟨compiled, hfound, rfl⟩ := Option.map_eq_some_iff.mp hc
  exact List.mem_append_left _ (List.mem_flatMap.mpr ⟨compiled, List.mem_of_find?_eq_some hfound, hy⟩)

/-- What nobody is told of has been defined once. -/
theorem Keyed.oneDefinition (h : p.Keyed) (hstore : p.store.Sound)
    (hnone : ∀ x ∈ (p.output options).allDiagnostics, x.problem.isDuplicateId = false) :
    p.OneDefinition := by
  have hheld : ∀ d ∈ p.documents, ∀ id, (p.analysis d).index.contains id = true →
      ∃ r, p.finished.records.get? id = some r ∧ r.document = d.name := by
    intro d hd id hid
    obtain ⟨r, hr, -⟩ := h.settles_finished hd hid
    have hc := h.document?_output hd options
    have hcount := h.countP_taken hstore hd hc id
    rw [List.countP_eq_zero.mpr, hid, hr] at hcount
    · refine ⟨r, hr, ?_⟩
      by_contra hother
      simp [hother] at hcount
    · intro x hx htaken
      have hduplicate := Diagnostic.isDuplicateId_of_taken htaken
      rw [hnone x (mem_allDiagnostics hc hx)] at hduplicate
      cases hduplicate
  intro d hd e he id hid hid'
  obtain ⟨r, hr, hdocument⟩ := hheld d hd id hid
  obtain ⟨r', hr', hdocument'⟩ := hheld e he id hid'
  obtain rfl := Option.some.inj (hr.symm.trans hr')
  exact h.document_eq hd he (hdocument.symm.trans hdocument')

theorem analysis_document (hr : p.registry.Coherent) (hcheck : p.registry.check = .ok ())
    (hname : d.name ≠ "") :
    ∃ record, (p.analysis d).index.entries.get? d.name = some ((p.analysis d).tree.root, record) :=
  analyze_document hr d.name d.source hcheck hname

theorem contains_of_entry {entry : NodeId × IdRecord}
    (h : (p.analysis d).index.entries.get? id = some entry) :
    (p.analysis d).index.contains id = true := by
  rw [Index.contains_iff]
  exact ⟨entry.2, by rw [Index.record?, h]; rfl⟩

-- ----------------------------------------------------------------------------
-- Inclusions
-- ----------------------------------------------------------------------------

theorem documents_eq_nil (h : p.indexDocument = none) : p.documents = [] := by
  unfold indexDocument at h
  simp only at h
  split at h
  · cases h
  · exact List.map_eq_nil_iff.mp (List.head?_eq_none_iff.mp h)

theorem mem_edges : (source, target) ∈ edges p.finished p.names ↔
    ∃ row ∈ p.finished.rowsIn p.names, row.reference.kind = .structuralParent ∧
      row.reference.site.document = source ∧ row.reference.target = target ∧ target ∈ p.names := by
  simp only [edges, List.mem_filterMap]
  refine exists_congr fun row => and_congr_right fun _ => ?_
  simp only [List.contains_iff_mem]
  grind

section
variable (h : p.Keyed) (hr : p.registry.Coherent) (hcheck : p.registry.check = .ok ())
variable (hnames : "" ∉ p.names)
include h hr hcheck hnames

/-- A row that is taken for an inclusion comes from one: a header would have the name of a document. -/
theorem Keyed.includes_of_mem_edges (hone : p.OneDefinition)
    (hedge : (source, target) ∈ edges p.finished p.names) :
    p.Includes p.writtenTarget source target := by
  obtain ⟨row, hrow, hkind, rfl, rfl, hmem⟩ := mem_edges.mp hedge
  obtain ⟨a, ha, hown⟩ := List.mem_flatMap.mp (h.known_of_mem_rowsIn hrow).1
  obtain ⟨d, hd, rfl, hsound⟩ := mem_analyses ha
  refine ⟨hmem, d, hd, (hsound.references _ hown).1.symm, ?_⟩
  rcases (analyze_parents hr d.name d.source hcheck).1 _ hown hkind with
    ⟨x, hinclusion, htarget⟩ | ⟨x, hroot, record, hentry⟩
  · exact ⟨x, hinclusion, htarget.symm⟩
  · obtain ⟨e, he, hname⟩ := List.mem_map.mp hmem
    obtain ⟨named, hnamed⟩ := analysis_document hr hcheck fun heq =>
      hnames (heq ▸ List.mem_map_of_mem he)
    rw [hname] at hnamed
    obtain rfl := hone d hd e he _ (contains_of_entry hentry) (contains_of_entry hnamed)
    exact absurd (Prod.mk.inj (Option.some.inj (hentry.symm.trans hnamed))).1 hroot

/-- An inclusion of a document wins its place. -/
theorem Keyed.mem_edges_of_includes (hincludes : p.Includes p.writtenTarget source target) :
    (source, target) ∈ edges p.finished p.names := by
  obtain ⟨hmem, d, hd, rfl, x, hinclusion, rfl⟩ := hincludes
  have hwritten : p.writtenTarget d x ≠ "" := fun heq => hnames (heq ▸ hmem)
  obtain ⟨r, hown, hkind, (htarget : r.target = p.writtenTarget d x), halone⟩ :=
    (analyze_parents hr d.name d.source hcheck).2 x hinclusion hwritten
  have hknown : p.finished.knows r.target [] = true := by
    obtain ⟨e, he, hname⟩ := List.mem_map.mp hmem
    obtain ⟨record, hentry⟩ := analysis_document (p := p) (d := e) hr hcheck (hname ▸ hwritten)
    obtain ⟨held, hheld, -⟩ := h.settles_finished he (contains_of_entry hentry)
    exact (Store.knows_iff ..).mpr ⟨held, by rw [htarget, ← hname, hheld], List.not_mem_nil⟩
  have hsite : r.groupKey.document = d.name := ((p.analysis_sound d).references r hown).1
  obtain ⟨row, hrows, hrow⟩ := h.rows_of_known hd hown hknown
  have hkept : row ∈ p.finished.rows.filter (·.reference.groupKey = r.groupKey) :=
    hrows ▸ List.mem_singleton_self row
  obtain ⟨hkept, hkey⟩ := (mem_rows_iff (hsite ▸ List.mem_map_of_mem hd)).mp hkept
  refine mem_edges.mpr ⟨row, hkept, (congrArg (·.kind) hkey).trans hkind,
    (congrArg (·.document) hkey).trans hsite, ?_, hmem⟩
  rcases halone _ hrow hkey with hsame | hempty
  · exact hsame.trans htarget
  · -- the empty target is shorter
    obtain ⟨won, -, hwinner⟩ := h.mem_rowsIn_winner.mp hkept
    have hall : r ∈ p.references := List.mem_flatMap.mpr ⟨p.analysis d, List.mem_map_of_mem hd, hown⟩
    obtain ⟨place, hplace⟩ := List.mem_iff_getElem?.mp hall
    have hlongest := Selection.winner?_longest hwinner
      (Selection.mem_members.mpr ⟨hplace, hkey.symm⟩) ((h.resolves_eq hall).trans hknown)
    simp only [Reference.targetLength, hempty, String.length_empty, Nat.le_zero,
      String.length_eq_zero_iff] at hlongest
    exact absurd (htarget.symm.trans hlongest) hwritten

variable (hone : p.OneDefinition)
include hone

theorem Keyed.mem_edges_iff :
    (source, target) ∈ edges p.finished p.names ↔ p.Includes p.writtenTarget source target :=
  ⟨h.includes_of_mem_edges hr hcheck hnames hone, h.mem_edges_of_includes hr hcheck hnames⟩

theorem Keyed.mem_unreachable_iff {y : Diagnostic} :
    y ∈ p.unreachable p.finished ↔ ∃ d ∈ p.documents,
      y = ⟨.unreachableDocument, .origin, d.name⟩ ∧ ¬ p.Chain p.writtenTarget d.name := by
  have hleads : Leads (edges p.finished p.names) =
      Relation.ReflTransGen (p.Includes p.writtenTarget) := by
    unfold Leads
    congr
    funext source target
    exact propext (h.mem_edges_iff hr hcheck hnames hone)
  unfold unreachable Chain
  cases hstart : p.indexDocument with
  | none => simp [documents_eq_nil hstart]
  | some start =>
    simp only [List.mem_map, List.mem_filter, Bool.not_eq_true', ← Bool.not_eq_true,
      List.contains_iff_mem, mem_reach_iff, hleads, Option.some.injEq, exists_eq_left']
    constructor
    · rintro ⟨name, ⟨hname, hout⟩, rfl⟩
      obtain ⟨d, hd, rfl⟩ := List.mem_map.mp hname
      exact ⟨d, hd, rfl, hout⟩
    · rintro ⟨d, hd, rfl, hout⟩
      exact ⟨d.name, ⟨List.mem_map_of_mem hd, hout⟩, rfl⟩

end

/-- What is reported of the documents themselves is never that one is not reached. -/
theorem Keyed.mem_unreachable (h : p.Keyed) {y : Diagnostic}
    (hy : y ∈ (p.output options).allDiagnostics) (hproblem : y.problem = .unreachableDocument) :
    y ∈ p.unreachable p.finished := by
  refine (List.mem_append.mp hy).resolve_left fun hy => ?_
  obtain ⟨compiled, hcompiled, hy⟩ := List.mem_flatMap.mp hy
  obtain ⟨a, ha, rfl⟩ := List.mem_map.mp hcompiled
  obtain ⟨d, hd, rfl, hsound⟩ := mem_analyses ha
  rw [h.compiled_eq hd] at hy
  obtain ⟨z, hz, rfl⟩ := List.mem_map.mp hy
  have hsame : z.problem = .unreachableDocument := (z.problem_within _).symm.trans hproblem
  rcases List.mem_append.mp hz with hz | hz
  · rcases List.mem_append.mp hz with hz | hz
    · have hlocal := hsound.diagnostics z hz
      rw [hsame] at hlocal
      exact hlocal
    · obtain ⟨entry, -, previous, -, rfl⟩ := mem_takenReports.mp hz
      cases hsame
  · rcases List.mem_append.mp hz with hz | hz
    · obtain ⟨lost, -, hz⟩ := List.mem_filterMap.mp hz
      obtain ⟨problem, hlost, rfl⟩ := Option.map_eq_some_iff.mp hz
      unfold Selection.problem? at hlost
      split at hlost <;> cases hlost <;> cases hsame
    · obtain ⟨⟨fault, hfault⟩, -⟩ := p.page_faults options d z hz
      cases hfault.symm.trans hsame

theorem isInclusion_iff (hr : p.registry.Coherent) :
    (p.analysis d).tree.IsInclusion x ↔
      x ∈ (p.analysis d).tree.preorder (p.analysis d).tree.root ∧
        (p.analysis d).tree.name? x = some MacroName.inclusion := by
  have hsettles := analyze_settlesTo hr d.name d.source
  exact ⟨fun h => ⟨hsettles.acyclic.mem_preorder hsettles.root_inside h.reaches, h.name⟩,
    fun h => ⟨hsettles.acyclic.reaches_of_mem_preorder hsettles.root_inside h.1, h.2⟩⟩

/-- If nobody is told of an identifier that is taken, exactly those documents are reported to which
no chain of inclusions leads from the index document. Each inclusion counts as it was written; the
finished document says the same in it if no white space goes there. -/
theorem compile_reports_unreachable (h : p.Reachable) (hr : p.registry.Coherent)
    (hnames : "" ∉ p.names) (hcompile : p.compile options = .ok (out, q))
    (hnone : ∀ y ∈ out.allDiagnostics, y.problem.isDuplicateId = false) :
    (∀ y, (y ∈ out.allDiagnostics ∧ y.problem = .unreachableDocument) ↔
      ∃ d ∈ p.documents, y = ⟨.unreachableDocument, .origin, d.name⟩ ∧
        ¬ p.Chain p.writtenTarget d.name) ∧
    ∀ d ∈ p.documents, ∃ c, out.document? d.name = some c ∧ c.tree = (p.analysis d).tree ∧
      (p.registry.Showing → ∀ x, c.tree.IsInclusion x →
        (parse p.registry (tokenize d.source).tokens).tree.InArgument x "href"
          (Passage.Tight p.registry) → p.finishedTarget d x = p.writtenTarget d x) := by
  obtain ⟨hkeyed, hsound⟩ := h.sound
  have hcheck := (hkeyed.ready_of_compile hcompile).1
  obtain ⟨rfl, -⟩ := hkeyed.eq_of_compile hcompile
  have hone := hkeyed.oneDefinition hsound hnone
  refine ⟨fun y => ?_, fun d hd => ⟨_, hkeyed.document?_output hd options, rfl, ?_⟩⟩
  · rw [← hkeyed.mem_unreachable_iff hr hcheck hnames hone]
    constructor
    · rintro ⟨hy, hproblem⟩
      exact hkeyed.mem_unreachable hy hproblem
    · intro hy
      refine ⟨List.mem_append_right _ hy, ?_⟩
      obtain ⟨d, -, rfl, -⟩ := (hkeyed.mem_unreachable_iff hr hcheck hnames hone).mp hy
      rfl
  · intro hshow x hinclusion htight
    exact analyze_inclusionTarget hr d.name d.source hshow hinclusion htight

/-- Its documents include each other, a foreign one and themselves, and nothing else includes the
ducks. -/
def ponds : Project :=
  { registry := .builtin
    store := (Store.empty.update (analyze .builtin "zoo" "").contribution).2
    documents := [⟨"ducks", "\\Include[ducks]"⟩, ⟨"index", "\\h[1][\\Include[ swans ]]"⟩,
      ⟨"swans", "\\Include[index]\\Include[zoo]\\Include[owls]"⟩, ⟨"owls", ""⟩] }

theorem ponds_reachable : ponds.Reachable :=
  reachable_of_nodup (.update .empty .builtin "zoo" "") .builtin none (by decide)

theorem compile_reports_unreachable_ponds :
    let swans : Document := ⟨"index", "\\h[1][\\Include[ swans ]]"⟩
    ∃ out q, ponds.compile {} = .ok (out, q) ∧
      (∀ y ∈ out.allDiagnostics, y.problem.isDuplicateId = false) ∧
      ponds.Chain ponds.writtenTarget "owls" ∧ ¬ ponds.Chain ponds.writtenTarget "ducks" ∧
      ∃ x, (ponds.analysis swans).tree.IsInclusion x ∧ ponds.writtenTarget swans x = "swans" ∧
        ponds.finishedTarget swans x = ponds.writtenTarget swans x := by
  intro swans
  obtain ⟨hkeyed, -⟩ := ponds_reachable.sound
  have hcompile := hkeyed.compile_ok Registry.check_builtin (by decide +kernel) {}
  have hall : (ponds.output {}).allDiagnostics = [⟨.unreachableDocument, .origin, "ducks"⟩] := by
    decide +kernel
  have hnone : ∀ y ∈ (ponds.output {}).allDiagnostics, y.problem.isDuplicateId = false := by
    rw [hall]
    decide
  obtain ⟨hreports, htexts⟩ := compile_reports_unreachable ponds_reachable
    Registry.coherent_builtin (by decide) hcompile hnone
  have hinclusion : (ponds.analysis swans).tree.IsInclusion 2 :=
    (isInclusion_iff Registry.coherent_builtin).mpr (by decide +kernel)
  refine ⟨_, _, hcompile, hnone, ?_, ?_, 2, hinclusion, by decide +kernel, ?_⟩
  · by_contra hchain
    have hreported := (hreports _).mpr ⟨⟨"owls", ""⟩, by decide, rfl, hchain⟩
    rw [hall] at hreported
    exact absurd hreported.1 (by decide)
  · have hreported : (⟨.unreachableDocument, .origin, "ducks"⟩ : Diagnostic) ∈
        (ponds.output {}).allDiagnostics := by
      rw [hall]
      decide
    obtain ⟨d, -, heq, hchain⟩ := (hreports _).mp ⟨hreported, rfl⟩
    have hname : d.name = "ducks" := (congrArg (·.document) heq).symm
    exact hname ▸ hchain
  · let t := (parse .builtin (tokenize swans.source).tokens).tree
    have ht : t.Acyclic := (analyze_settlesTo Registry.coherent_builtin "" swans.source).before
    have hlt : 2 < t.size := by decide +kernel
    have hnodes : ∀ y ∈ t.preorder 2, t.isParagraphBreak y = false ∧
        ∀ words ∈ t.plaintext? y, Text.isBlank words = true → words = "" := by
      decide +kernel
    have hreached : ∀ y, t.Reaches 2 y → y ∈ t.preorder 2 := fun y hy => ht.mem_preorder hlt hy
    obtain ⟨c, -, htree, htext⟩ := htexts swans (by decide)
    exact htext Registry.showing_builtin 2 (htree ▸ hinclusion)
      (ht.tight hlt (fun y hy => (hnodes y (hreached y hy)).1)
        fun y hy => (hnodes y (hreached y hy)).2)

/-- A document that is included by `b`, a blank line and `c`. -/
def torn : Project :=
  { registry := .builtin, store := .empty
    documents := [⟨"index", "\\Include[b\n\nc]"⟩, ⟨"bc", "x"⟩] }

theorem torn_reachable : torn.Reachable := reachable_of_nodup .empty .builtin none (by decide)

/-- The finished document says `bc`, but nothing is included. -/
theorem compile_reports_unreachable_torn : ¬ ∀ (p : Project) options out q, p.Reachable →
    p.registry.Coherent → "" ∉ p.names → p.compile options = .ok (out, q) →
    (∀ y ∈ out.allDiagnostics, y.problem.isDuplicateId = false) → ∀ d ∈ p.documents,
      ((⟨.unreachableDocument, .origin, d.name⟩ : Diagnostic) ∈ out.allDiagnostics ↔
        ¬ p.Chain p.finishedTarget d.name) := by
  intro hall
  have hcompile := torn_reachable.sound.1.compile_ok Registry.check_builtin (by decide +kernel) {}
  have hreported : (torn.output {}).allDiagnostics.filter (·.problem = .unreachableDocument) =
      [⟨.unreachableDocument, .origin, "bc"⟩] := by decide +kernel
  have hnone : ∀ y ∈ (torn.output {}).allDiagnostics, y.problem.isDuplicateId = false := by
    decide +kernel
  have hexact := hall torn {} _ _ torn_reachable Registry.coherent_builtin (by decide) hcompile hnone
    ⟨"bc", "x"⟩ (by decide)
  refine hexact.mp (List.mem_filter.mp (hreported ▸ List.mem_cons_self)).1 ⟨"index", by decide, ?_⟩
  refine .single ⟨by decide, ⟨"index", "\\Include[b\n\nc]"⟩, by decide, rfl, 3, ?_, ?_⟩
  · exact (isInclusion_iff Registry.coherent_builtin).mpr (by decide +kernel)
  · decide +kernel

/-- Its macro `q` declares one argument twice. What stands in the second one is put into the first one
as well, and so it is visited twice. -/
def doubled : Project :=
  { registry := Registry.builtin.register
      { name := "q", rendering := .inline "q", positional := ["content", "content"], phrasing := true }
    store := .empty
    documents := [⟨"index", "\\q[x][\\Include[b\n\nc]\n\ny]"⟩, ⟨"bc", "x"⟩] }

theorem selection_doubled : doubled.selection = ⟨[1], [0], []⟩ := by
  let row (target : String) : Reference :=
    { source := "index", target, kind := .structuralParent, site := ⟨"index", ⟨1, 15⟩⟩ }
  let group : List Selection.Placed := [(row "b\n\nc", 0), (row "bc", 1)]
  have hgroups : Selection.groups doubled.references =
      [(⟨"index", ⟨1, 15⟩, .structuralParent⟩, group)] := by decide +kernel
  have hranked : Selection.ranked group = group := List.mergeSort_of_pairwise (by decide)
  have hwinner : Selection.winner? (resolves doubled.merged) group = some (row "bc", 1) := by
    rw [Selection.winner?, hranked]
    decide +kernel
  rw [selection, select, hgroups]
  simp only [List.map_cons, List.map_nil, Selection.selectGroup, hwinner]
  decide +kernel

theorem allDiagnostics_doubled : (doubled.output {}).allDiagnostics = [] := by
  have hcompiled : doubled.compiled {} = fun a =>
      compileDocument doubled.registry (doubled.merged.delete [doubled.store.nextRow]) {}
        doubled.references ⟨[1], [0], []⟩ (yielded doubled.merged a) := by
    funext a
    rw [compiled, finished, selection_doubled]
    rfl
  rw [output, finished, hcompiled, selection_doubled]
  decide +kernel

/-- The second visit finds `bc`, which nothing was written to include. -/
theorem reached_doubled : ¬ ∀ (p : Project) options out q, p.Reachable → "" ∉ p.names →
    p.compile options = .ok (out, q) →
    (∀ y ∈ out.allDiagnostics, y.problem.isDuplicateId = false) → ∀ d ∈ p.documents,
      ((⟨.unreachableDocument, .origin, d.name⟩ : Diagnostic) ∈ out.allDiagnostics ↔
        ¬ p.Chain p.writtenTarget d.name) := by
  intro hall
  have hreachable : doubled.Reachable := reachable_of_nodup .empty _ none (by decide)
  have hcompile := hreachable.sound.1.compile_ok (by decide +kernel) (by decide +kernel) {}
  have hexact := hall doubled {} _ _ hreachable (by decide) hcompile
    (by simp [allDiagnostics_doubled]) ⟨"bc", "x"⟩ (by decide)
  rw [allDiagnostics_doubled] at hexact
  refine absurd (hexact.mpr ?_) List.not_mem_nil
  have hwritten : ∀ d ∈ doubled.documents,
      ∀ x < (parse doubled.registry (tokenize d.source).tokens).tree.size,
        doubled.writtenTarget d x ≠ "bc" := by decide +kernel
  rintro ⟨start, hstart, hchain⟩
  rcases hchain.cases_tail with heq | ⟨source, -, -, d, hd, -, x, -, htext⟩
  · rw [← heq] at hstart
    exact absurd hstart (by decide)
  · have hsays : doubled.writtenTarget d x ≠ "" := by
      rw [htext]
      decide
    exact hwritten d hd x (Tree.href?_of_inclusionTarget hsays).1 htext

end Project
end Macromark
