import Macromark.Proofs.Project.History
import Macromark.Proofs.Project.Integrity
import Macromark.Proofs.Project.Search

/-!
# The order of the documents

If the documents of a project define different identifiers, their order does not
matter. The records of the finished store are those of all documents
(`Keyed.records_reorder`), a document is rendered from them and its own links
(`Keyed.compiled_reorder`), and the references that are kept are those that win
among the references of their own document (`Keyed.mem_kept_iff`).
-/

namespace Macromark.Project

variable {p : Project} {d : Document} {s t : Store} {documents : List Document}
variable {options : CompileOptions}

def identifiers (p : Project) : List String := p.analyses.flatMap (·.contribution.ids.keys)

-- ----------------------------------------------------------------------------
-- Looking in any order
-- ----------------------------------------------------------------------------

/-- What is found does not depend on the order if only one place has something. -/
theorem findSome?_perm {f : α → Option β} {places places' : List α} (h : places.Perm places')
    (hone : places.Pairwise fun a b => f a = none ∨ f b = none) :
    places.findSome? f = places'.findSome? f := by
  induction h with
  | nil => rfl
  | cons a _ ih =>
    rw [List.findSome?_cons, List.findSome?_cons, ih (List.pairwise_cons.mp hone).2]
  | swap a b rest =>
    have hab := (List.pairwise_cons.mp hone).1 a List.mem_cons_self
    simp only [List.findSome?_cons]
    rcases hab with h | h <;> simp only [h]
  | trans h₁ _ ih₁ ih₂ =>
    exact (ih₁ hone).trans (ih₂ (h₁.pairwise hone Or.symm))

theorem one_definition (h : p.identifiers.Nodup) (id : String) :
    p.analyses.Pairwise fun a b =>
      a.contribution.ids.get? id = none ∨ b.contribution.ids.get? id = none := by
  refine (List.nodup_flatMap.mp h).2.imp ?_
  intro a b hdisjoint
  by_cases hid : id ∈ a.contribution.ids.keys
  · exact .inr (OrderedMap.get?_eq_none_iff.mpr fun hother => hdisjoint hid hother)
  · exact .inl (OrderedMap.get?_eq_none_iff.mpr hid)

-- ----------------------------------------------------------------------------
-- What is kept of one document
-- ----------------------------------------------------------------------------

/-- A link has the same winner among all references as among those of its document. -/
theorem Keyed.winner?_own (h : p.Keyed) (hd : d ∈ p.documents) (key : GroupKey)
    (hkey : key.document = d.name) : ∃ offset,
      Selection.winner? (resolves p.merged) (Selection.members p.references key) =
        (Selection.winner? ((p.analysis d).resolves (some p.finished))
          (Selection.members (p.analysis d).contribution.references key)).map
            (Selection.moved offset) := by
  obtain ⟨first, later, hsplit, hfirst, hlater⟩ := h.references_split hd
  refine ⟨first.length, ?_⟩
  rw [hsplit, Selection.members_own hfirst hlater hkey]
  exact Selection.winner?_moved _
    (Selection.resolves_members fun r _ => h.resolves_merged hd r)

theorem Keyed.mem_kept_iff (h : p.Keyed) {r : Reference} :
    r ∈ (p.finished.rowsIn p.names).map (·.reference) ↔
      ∃ d ∈ p.documents, r.site.document = d.name ∧ ∃ place,
        Selection.winner? ((p.analysis d).resolves (some p.finished))
          (Selection.members (p.analysis d).contribution.references r.groupKey) =
            some (r, place) := by
  constructor
  · intro hr
    obtain ⟨row, hrow, rfl⟩ := List.mem_map.mp hr
    obtain ⟨place, -, hwinner⟩ := h.mem_rowsIn_winner.mp hrow
    obtain ⟨d, hd, hname⟩ := List.mem_map.mp (site_mem_names (h.known_of_mem_rowsIn hrow).1)
    obtain ⟨offset, hown⟩ := h.winner?_own hd row.reference.groupKey hname.symm
    rw [hown, Option.map_eq_some_iff] at hwinner
    obtain ⟨⟨won, place'⟩, hwinner, heq⟩ := hwinner
    obtain ⟨rfl, -⟩ := Prod.mk.inj heq
    exact ⟨d, hd, hname.symm, place', hwinner⟩
  · rintro ⟨d, hd, hname, place, hwinner⟩
    obtain ⟨offset, hown⟩ := h.winner?_own hd r.groupKey hname
    rw [hwinner] at hown
    exact List.mem_map.mpr ⟨⟨p.store.nextRow + (offset + place), r⟩,
      h.mem_rowsIn_winner.mpr ⟨offset + place, rfl, hown⟩, rfl⟩

theorem Keyed.nodup_kept (h : p.Keyed) :
    ((p.finished.rowsIn p.names).map (·.reference)).Nodup := by
  refine List.Nodup.of_map (·.groupKey) ?_
  rw [List.map_map]
  exact h.nodup_keys

-- ----------------------------------------------------------------------------
-- What a document depends on
-- ----------------------------------------------------------------------------

theorem resolves_store_records (h : s.records = t.records) (a : Analysis) :
    a.resolves (some s) = a.resolves (some t) := by
  obtain ⟨records, rows, nextRow⟩ := s
  cases h
  rfl

section
variable (h : p.Keyed) (hperm : documents.Perm p.documents) (hids : p.identifiers.Nodup)
include h hperm

theorem Keyed.reorder : ({ p with documents } : Project).Keyed :=
  ⟨(hperm.map _).nodup_iff.mpr h.names, h.store⟩

omit h in
theorem contains_reorder (name : String) :
    ({ p with documents } : Project).names.contains name = p.names.contains name :=
  (hperm.map _).contains_eq

omit h in
theorem ground_reorder : ({ p with documents } : Project).ground = p.ground := by
  have hcontains := contains_reorder hperm
  simp only [ground, Store.clear, hcontains]

include hids

theorem Keyed.records_reorder :
    ({ p with documents } : Project).finished.records = p.finished.records := by
  have h' := h.reorder hperm
  refine OrderedMap.ext_sorted h'.keyed_finished.sorted h.keyed_finished.sorted ?_
  intro id
  rw [h'.get?_finished, h.get?_finished, ground_reorder hperm]
  exact congrArg _ (findSome?_perm (hperm.map p.analysis).symm (one_definition hids id)).symm

theorem Keyed.compiled_reorder (hd : d ∈ p.documents) :
    ({ p with documents } : Project).compiled options (p.analysis d) =
      p.compiled options (p.analysis d) := by
  have hrecords := h.records_reorder hperm hids
  have hlinks : ({ p with documents } : Project).links d = p.links d :=
    congrArg (select · _) (resolves_store_records hrecords _)
  have hpage : ({ p with documents } : Project).page options d = p.page options d := by
    simp only [page, hlinks]
    exact congrFun (congrFun (render_records hrecords _) _) _
  have hlater : ({ p with documents } : Project).later options d = p.later options d := by
    rw [later, later, hlinks, hpage]
  have hyielded : yielded ({ p with documents } : Project).merged (p.analysis d) =
      yielded p.merged (p.analysis d) := yielded_records hrecords _
  have hd' : d ∈ ({ p with documents } : Project).documents := hperm.mem_iff.mpr hd
  refine ((h.reorder hperm).compiled_eq hd' options).trans ?_
  rw [h.compiled_eq hd, hpage, hlater]
  exact congrArg (fun a : Analysis => (⟨d.name, a.finish _ _ _⟩ : CompiledDocument)) hyielded

theorem Keyed.kept_reorder :
    ((({ p with documents } : Project).finished.rowsIn
        ({ p with documents } : Project).names).map (·.reference)).Perm
      ((p.finished.rowsIn p.names).map (·.reference)) := by
  have h' := h.reorder hperm
  refine (List.perm_ext_iff_of_nodup h'.nodup_kept h.nodup_kept).mpr fun r => ?_
  rw [h'.mem_kept_iff, h.mem_kept_iff]
  refine exists_congr fun d => and_congr hperm.mem_iff (and_congr_right fun _ => ?_)
  rw [← resolves_store_records (h.records_reorder hperm hids) (p.analysis d)]
  rfl

theorem Keyed.rows_reorder :
    (({ p with documents } : Project).finished.rows.map (·.reference)).Perm
      (p.finished.rows.map (·.reference)) := by
  have h' := h.reorder hperm
  have hsplit := h.rows_finished
  have hsplit' := h'.rows_finished
  rw [← h.rowsIn_finished] at hsplit
  rw [← h'.rowsIn_finished, ground_reorder hperm] at hsplit'
  rw [hsplit, hsplit', List.map_append, List.map_append]
  exact (h.kept_reorder hperm hids).append_left _

theorem Keyed.edges_reorder (edge : Edge) :
    edge ∈ edges ({ p with documents } : Project).finished ({ p with documents } : Project).names ↔
      edge ∈ edges p.finished p.names := by
  have hkept := fun r => (h.kept_reorder hperm hids).mem_iff (a := r)
  simp only [List.mem_map] at hkept
  have hcontains := contains_reorder hperm
  simp only [edges, List.mem_filterMap, hcontains]
  constructor
  · rintro ⟨row, hrow, hedge⟩
    obtain ⟨other, hother, heq⟩ := (hkept row.reference).mp ⟨row, hrow, rfl⟩
    exact ⟨other, hother, heq ▸ hedge⟩
  · rintro ⟨row, hrow, hedge⟩
    obtain ⟨other, hother, heq⟩ := (hkept row.reference).mpr ⟨row, hrow, rfl⟩
    exact ⟨other, hother, heq ▸ hedge⟩

/-- The index document has to be there: otherwise the first document takes its place. -/
theorem Keyed.unreachable_reorder (hindex : p.indexName.getD defaultIndexName ∈ p.names) :
    (({ p with documents } : Project).unreachable ({ p with documents } : Project).finished).Perm
      (p.unreachable p.finished) := by
  have hnames : ({ p with documents } : Project).names.Perm p.names := hperm.map _
  have hstart : p.indexDocument = some (p.indexName.getD defaultIndexName) := by
    simp only [indexDocument, List.contains_iff_mem, if_pos hindex]
  have hstart' : ({ p with documents } : Project).indexDocument =
      some (p.indexName.getD defaultIndexName) := by
    simp only [indexDocument, List.contains_iff_mem, if_pos (hnames.mem_iff.mpr hindex)]
  simp only [unreachable, hstart, hstart']
  refine List.Perm.map _ ?_
  have hreached := mem_reach_congr (h.edges_reorder hperm hids)
    (p.indexName.getD defaultIndexName)
  refine (hnames.filter _).trans (List.Perm.of_eq (List.filter_congr fun name _ => ?_))
  rw [Bool.eq_iff_iff, Bool.not_eq_true', Bool.not_eq_true', ← Bool.not_eq_true, ← Bool.not_eq_true,
    List.contains_iff_mem, List.contains_iff_mem, hreached]

theorem Keyed.documents_reorder (options : CompileOptions) :
    (({ p with documents } : Project).output options).documents.Perm
      (p.output options).documents := by
  have hsame : (({ p with documents } : Project).output options).documents =
      (documents.map p.analysis).map (p.compiled options) := by
    rw [List.map_map]
    refine List.map_map.trans (List.map_congr_left fun d hd => ?_)
    exact h.compiled_reorder hperm hids (hperm.mem_iff.mp hd)
  rw [hsame]
  exact (hperm.map _).map _

theorem Keyed.document?_reorder (hd : d ∈ p.documents) (options : CompileOptions) :
    ∃ c, (p.output options).document? d.name = some c ∧
      (({ p with documents } : Project).output options).document? d.name = some c := by
  have hd' : d ∈ ({ p with documents } : Project).documents := hperm.mem_iff.mpr hd
  have hcompiled : ({ p with documents } : Project).compiled options (p.analysis d) =
      p.compiled options (p.analysis d) := h.compiled_reorder hperm hids hd
  rw [h.compiled_eq hd] at hcompiled
  refine ⟨_, h.document?_output hd options, ?_⟩
  rw [(h.reorder hperm).document?_output hd', Option.some.injEq]
  exact congrArg CompiledDocument.output
    (((h.reorder hperm).compiled_eq hd' options).symm.trans hcompiled)

end

/-- Documents that define different identifiers may be added in any order, as
long as the index document is among them. Each is compiled to the same, the same
documents are reported, and the store gets the same records and, under other
numbers, the same rows. Identifiers that the store holds for documents outside
of the project may be among those of the documents. -/
theorem compile_in_any_order {store : Store} (hstore : store.Keyed) (registry : Registry)
    (indexName : Option String) {documents documents' : List Document}
    (hnames : (documents.map (·.name)).Nodup)
    (hids : (documents.flatMap fun d =>
      (analyze registry d.name d.source).contribution.ids.keys).Nodup)
    (hindex : indexName.getD defaultIndexName ∈ documents.map (·.name))
    (hperm : documents'.Perm documents) (hcheck : registry.check = .ok ())
    (hdone : ∀ d ∈ documents, (analyze registry d.name d.source).aborted = none)
    (options : CompileOptions) :
    let added (documents : List Document) : Project :=
      addAll { registry, store, indexName } documents
    ∃ out q out' q',
      (added documents).compile options = .ok (out, q) ∧
      (added documents').compile options = .ok (out', q') ∧
      out'.documents.Perm out.documents ∧
      (∀ d ∈ documents, ∃ c, out.document? d.name = some c ∧ out'.document? d.name = some c) ∧
      out'.diagnostics.Perm out.diagnostics ∧
      q'.store.records = q.store.records ∧
      (q'.store.rows.map (·.reference)).Perm (q.store.rows.map (·.reference)) := by
  intro added
  have hadded : ∀ {documents : List Document}, (documents.map (·.name)).Nodup →
      added documents = { registry, store, documents, indexName } := by
    intro documents hnames
    exact addAll_new (p := { registry, store, indexName }) hnames
  have hkeyed : ({ registry, store, documents, indexName } : Project).Keyed := ⟨hnames, hstore⟩
  have hids' : ({ registry, store, documents, indexName } : Project).identifiers.Nodup := by
    rw [identifiers, analyses, List.flatMap_map]
    exact hids
  rw [hadded hnames, hadded ((hperm.map _).nodup_iff.mpr hnames)]
  refine ⟨_, _, _, _, hkeyed.compile_ok hcheck hdone options,
    (hkeyed.reorder hperm).compile_ok hcheck (fun d hd => hdone d (hperm.mem_iff.mp hd)) options,
    ?_, ?_, ?_, ?_, ?_⟩
  · exact hkeyed.documents_reorder hperm hids' options
  · exact fun d hd => hkeyed.document?_reorder hperm hids' hd options
  · exact hkeyed.unreachable_reorder hperm hids' hindex
  · exact hkeyed.records_reorder hperm hids'
  · exact hkeyed.rows_reorder hperm hids'

/-- `swans` is linked to before it is added, and nothing includes it. -/
theorem compile_in_any_order_birds :
    let ducks : Document := ⟨"ducks", "\\h[1][Teal]\n\n\\x[swans]"⟩
    let index : Document := ⟨"index", "\\h[1][Birds]\n\n\\Include[ducks]"⟩
    let swans : Document := ⟨"swans", "\\h[1][Mute]\n\n\\x[geese] \\x[owl]{magic=1}"⟩
    let added (documents : List Document) : Project :=
      addAll { registry := .builtin, store := birds.store } documents
    ∃ out q out' q',
      (added [ducks, index, swans]).compile {} = .ok (out, q) ∧
      (added [swans, ducks, index]).compile {} = .ok (out', q') ∧
      (∃ c, out.document? "ducks" = some c ∧ out'.document? "ducks" = some c) ∧
      out'.diagnostics.Perm out.diagnostics ∧ q'.store.records = q.store.records := by
  intro ducks index swans added
  have hnames : ([ducks, index, swans].map (·.name)).Nodup := by decide
  have hids : ([ducks, index, swans].flatMap fun d =>
      (analyze .builtin d.name d.source).contribution.ids.keys).Nodup := by decide +kernel
  have hdone : ∀ d ∈ [ducks, index, swans], (analyze .builtin d.name d.source).aborted = none := by
    decide +kernel
  have hindex : defaultIndexName ∈ [ducks, index, swans].map (·.name) := by decide
  have hperm : [swans, ducks, index].Perm [ducks, index, swans] := by decide
  obtain ⟨out, q, out', q', hcompile, hcompile', -, hdocuments, hdiagnostics, hrecords, -⟩ :=
    compile_in_any_order birds_reachable.sound.1.store .builtin none hnames hids hindex hperm
      Registry.check_builtin hdone {}
  exact ⟨out, q, out', q', hcompile, hcompile', hdocuments ducks List.mem_cons_self,
    hdiagnostics, hrecords⟩

end Macromark.Project
