import Macromark.Proofs.Project.Agreement

/-!
# The references that are left

Of the references of a project the store keeps those that won
(`Keyed.mem_rowsIn_winner`), so at most one of each link. What a reference
comes from is always known (`Keyed.resolves_eq`): a link wins nothing only if
none of its targets is known, and then it is reported once
(`Keyed.countP_unresolved`).
-/

namespace Macromark

/-- Whether a link or an inclusion that leads nowhere is reported. -/
def Diagnostic.reportsUnresolved (key : GroupKey) (x : Diagnostic) : Bool :=
  x.position == key.position && x.problem.code? == some "unresolved-reference" &&
    match key.kind, x.problem with
    | .crossReference, .unresolvedLink _ => true
    | .structuralParent, .missingDocument _ => true
    | _, _ => false

theorem Problem.Local.not_unresolved {x : Diagnostic} {document : String}
    (h : x.problem.Local document) (key : GroupKey) : x.reportsUnresolved key = false := by
  obtain ⟨problem, position, owner⟩ := x
  obtain ⟨document, place, kind⟩ := key
  cases problem <;> first | exact h.elim | (cases kind <;> simp [Diagnostic.reportsUnresolved])

theorem Diagnostic.OfLink.not_unresolved {x : Diagnostic} {document : String}
    (h : x.OfLink document) (key : GroupKey) : x.reportsUnresolved key = false := by
  obtain ⟨⟨fault, hproblem⟩, -⟩ := h
  obtain ⟨document, place, kind⟩ := key
  cases kind <;> simp [reportsUnresolved, hproblem]

theorem Selection.countP_unresolved {resolves : Reference → Bool} {references : List Reference}
    (hsites : ∀ r ∈ references, r.site.document = key.document)
    (hkind : key.kind = .crossReference ∨ key.kind = .structuralParent)
    (hmembers : members references key ≠ [])
    (hlost : ∀ placed ∈ members references key, resolves placed.1 = false) :
    (select resolves references).diagnostics.countP (·.reportsUnresolved key) = 1 := by
  have hreport : ∀ lost ∈ (select resolves references).unresolved,
      (((problem? lost).map fun problem =>
        (⟨problem, lost.key.position, lost.key.document⟩ : Diagnostic)).map
          (·.reportsUnresolved key)).getD false = (lost.key == key) := by
    intro lost hunresolved
    obtain ⟨⟨r, place⟩, hmember⟩ := List.exists_mem_of_ne_nil _ (mem_unresolved.mp hunresolved).1
    obtain ⟨hr, hkey⟩ := mem_members.mp hmember
    have hdocument : lost.key.document = key.document :=
      hkey ▸ hsites r (List.mem_of_getElem? hr)
    clear hmember hkey hunresolved hmembers hlost hsites
    obtain ⟨⟨document, position, kind⟩, target⟩ := lost
    obtain ⟨document', position', kind'⟩ := key
    obtain rfl : document = document' := hdocument
    rcases hkind with hkind | hkind <;> obtain rfl := hkind <;> cases kind <;>
      simp [problem?, Diagnostic.reportsUnresolved, Problem.code?]
  have hmem : key ∈ (select resolves references).unresolved.map (·.key) :=
    List.mem_map.mpr ⟨⟨key, closest (ranked (members references key))⟩,
      mem_unresolved.mpr ⟨hmembers, hlost, rfl⟩, rfl⟩
  have hnodup : ((select resolves references).unresolved.map (·.key)).Nodup := by
    refine List.pairwise_map.mpr ((unresolved_ascending _ _).imp ?_)
    intro a b hlt heq
    exact Std.Irrefl.irrefl _ (heq ▸ hlt)
  have hcount := hnodup.count (a := key)
  rw [if_pos hmem, List.count, List.countP_map] at hcount
  rw [diagnostics, List.countP_filterMap,
    List.countP_congr fun lost hunresolved => by rw [hreport lost hunresolved]]
  exact hcount

namespace Project

variable {p : Project} {d : Document} {r : Reference} {row : Store.Row}
variable {options : CompileOptions}

theorem takenReports_not_unresolved {s : Store} {a : Analysis} (hx : x ∈ takenReports s a)
    (key : GroupKey) : x.reportsUnresolved key = false := by
  obtain ⟨entry, -, previous, -, rfl⟩ := mem_takenReports.mp hx
  obtain ⟨document, place, kind⟩ := key
  cases kind <;> simp [Diagnostic.reportsUnresolved]

/-- Rows of the project are known by their keys. -/
theorem mem_rows_iff {key : GroupKey} (hkey : key.document ∈ p.names) :
    row ∈ p.finished.rows.filter (·.reference.groupKey = key) ↔
      row ∈ p.finished.rowsIn p.names ∧ row.reference.groupKey = key := by
  simp only [Store.rowsIn, List.mem_filter, decide_eq_true_eq, List.contains_iff_mem]
  constructor
  · rintro ⟨hrow, rfl⟩
    exact ⟨⟨hrow, hkey⟩, rfl⟩
  · rintro ⟨⟨hrow, -⟩, hrowKey⟩
    exact ⟨hrow, hrowKey⟩

section
variable (h : p.Keyed)
include h

/-- Whether a reference leads somewhere depends on its target alone. -/
theorem Keyed.resolves_eq (hr : r ∈ p.references) :
    resolves p.merged r = p.finished.knows r.target [] := by
  obtain ⟨a, ha, hr⟩ := List.mem_flatMap.mp hr
  obtain ⟨d, hd, rfl, hsound⟩ := mem_analyses ha
  have hsource : (r.source == "" || p.merged.knows r.source []) = true := by
    rcases (hsound.references r hr).2 with hempty | hdefined
    · simp [hempty]
    · rw [h.knows_merged hd, Analysis.knows, hdefined]
      simp
  rw [resolves, hsource, Bool.true_and]
  rfl

theorem Keyed.mem_references_of_site (hd : d ∈ p.documents) (hr : r ∈ p.references)
    (hsite : r.site.document = d.name) : r ∈ (p.analysis d).contribution.references := by
  obtain ⟨a, ha, hr⟩ := List.mem_flatMap.mp hr
  obtain ⟨e, he, rfl, hsound⟩ := mem_analyses ha
  obtain rfl := h.document_eq hd he (hsite.symm.trans (hsound.references r hr).1)
  exact hr

theorem Keyed.mem_rowsIn_winner :
    row ∈ p.finished.rowsIn p.names ↔ ∃ place, row.id = p.store.nextRow + place ∧
      Selection.winner? (resolves p.merged)
        (Selection.members p.references row.reference.groupKey) = some (row.reference, place) := by
  rw [h.mem_rowsIn_finished]
  constructor
  · rintro ⟨place, hplace, hid, hr⟩
    obtain ⟨r, hr', hwinner⟩ := Selection.mem_selected.mp hplace
    obtain rfl : r = row.reference := Option.some.inj (hr'.symm.trans hr)
    exact ⟨place, hid, hwinner⟩
  · rintro ⟨place, hid, hwinner⟩
    have hr := (Selection.mem_members.mp (Selection.winner?_eq_some hwinner).1).1
    exact ⟨place, Selection.mem_selected.mpr ⟨_, hr, hwinner⟩, hid, hr⟩

theorem Keyed.nodup_keys :
    ((p.finished.rowsIn p.names).map (·.reference.groupKey)).Nodup := by
  have hascending := h.keyed_finished.ascending.filter
    fun row => p.names.contains row.reference.site.document
  refine List.pairwise_map.mpr (hascending.imp_of_mem ?_)
  intro row other hrow hother hlt hkey
  obtain ⟨place, hid, hwinner⟩ := h.mem_rowsIn_winner.mp hrow
  obtain ⟨place', hid', hwinner'⟩ := h.mem_rowsIn_winner.mp hother
  rw [← hkey, hwinner] at hwinner'
  have hplace : place = place' := congrArg Prod.snd (Option.some.inj hwinner')
  rw [hid, hid', hplace] at hlt
  exact Nat.lt_irrefl _ hlt

/-- A link of which some target is known keeps one reference. -/
theorem Keyed.rows_of_known (hd : d ∈ p.documents)
    (hr : r ∈ (p.analysis d).contribution.references)
    (hknown : p.finished.knows r.target [] = true) :
    ∃ row, p.finished.rows.filter (·.reference.groupKey = r.groupKey) = [row] ∧
      row.reference ∈ (p.analysis d).contribution.references := by
  have hmem : r ∈ p.references :=
    List.mem_flatMap.mpr ⟨p.analysis d, List.mem_map_of_mem hd, hr⟩
  have hkey : r.groupKey.document = d.name := ((p.analysis_sound d).references r hr).1
  have hnames : r.groupKey.document ∈ p.names := hkey ▸ List.mem_map_of_mem hd
  obtain ⟨place, hplace⟩ := List.mem_iff_getElem?.mp hmem
  cases hwinner : Selection.winner? (resolves p.merged)
      (Selection.members p.references r.groupKey) with
  | none =>
    have hlost := Selection.winner?_eq_none_iff.mp hwinner (r, place)
      (Selection.mem_members.mpr ⟨hplace, rfl⟩)
    rw [h.resolves_eq hmem, hknown] at hlost
    cases hlost
  | some winner =>
    obtain ⟨won, place⟩ := winner
    obtain ⟨hwon, hwonKey⟩ := Selection.mem_members.mp (Selection.winner?_eq_some hwinner).1
    have hkept : (⟨p.store.nextRow + place, won⟩ : Store.Row) ∈ p.finished.rowsIn p.names :=
      h.mem_rowsIn_winner.mpr ⟨place, rfl, by rw [hwonKey]; exact hwinner⟩
    refine ⟨⟨p.store.nextRow + place, won⟩, ?_, ?_⟩
    · have hnodup : p.finished.rows.Nodup := by
        refine h.keyed_finished.ascending.imp ?_
        rintro row _ hlt rfl
        exact Nat.lt_irrefl _ hlt
      refine List.perm_singleton.mp
        ((List.perm_ext_iff_of_nodup (hnodup.filter _) (List.nodup_singleton _)).mpr ?_)
      intro row
      rw [mem_rows_iff hnames, List.mem_singleton]
      constructor
      · rintro ⟨hrow, hrowKey⟩
        exact List.inj_on_of_nodup_map h.nodup_keys hrow hkept (hrowKey.trans hwonKey.symm)
      · rintro rfl
        exact ⟨hkept, hwonKey⟩
    · refine h.mem_references_of_site hd (List.mem_of_getElem? hwon) ?_
      exact (congrArg GroupKey.document hwonKey).trans hkey

theorem Keyed.known_of_mem_rowsIn (hrow : row ∈ p.finished.rowsIn p.names) :
    row.reference ∈ p.references ∧ p.finished.knows row.reference.target [] = true ∧
      (row.reference.source = "" ∨ p.finished.knows row.reference.source [] = true) := by
  obtain ⟨place, -, hwinner⟩ := h.mem_rowsIn_winner.mp hrow
  obtain ⟨hmember, hresolves⟩ := Selection.winner?_eq_some hwinner
  have hr := List.mem_of_getElem? (Selection.mem_members.mp hmember).1
  simp only [resolves, Bool.and_eq_true, Bool.or_eq_true, beq_iff_eq] at hresolves
  exact ⟨hr, hresolves.2, hresolves.1⟩

/-- A link of which no target is known keeps nothing. -/
theorem Keyed.rows_of_unknown (hd : d ∈ p.documents)
    (hr : r ∈ (p.analysis d).contribution.references)
    (hunknown : ∀ other ∈ (p.analysis d).contribution.references,
      other.groupKey = r.groupKey → p.finished.knows other.target [] = false) :
    p.finished.rows.filter (·.reference.groupKey = r.groupKey) = [] := by
  have hkey : r.groupKey.document = d.name := ((p.analysis_sound d).references r hr).1
  refine List.eq_nil_iff_forall_not_mem.mpr ?_
  intro row hrow
  obtain ⟨hrow, hrowKey⟩ := (mem_rows_iff (hkey ▸ List.mem_map_of_mem hd)).mp hrow
  obtain ⟨hmem, hknown, -⟩ := h.known_of_mem_rowsIn hrow
  have hown := h.mem_references_of_site hd hmem ((congrArg GroupKey.document hrowKey).trans hkey)
  rw [hunknown _ hown hrowKey] at hknown
  cases hknown

/-- It is reported once, if the author wrote it. -/
theorem Keyed.countP_unresolved (hd : d ∈ p.documents)
    (hc : (p.output options).document? d.name = some c)
    (hr : r ∈ (p.analysis d).contribution.references)
    (hkind : r.kind = .crossReference ∨ r.kind = .structuralParent)
    (hunknown : ∀ other ∈ (p.analysis d).contribution.references,
      other.groupKey = r.groupKey → p.finished.knows other.target [] = false) :
    c.diagnostics.countP (·.reportsUnresolved r.groupKey) = 1 := by
  have hsound := p.analysis_sound d
  have hkey : r.groupKey.document = d.name := (hsound.references r hr).1
  have hwithin : ∀ x : Diagnostic,
      (x.within d.name).reportsUnresolved r.groupKey = x.reportsUnresolved r.groupKey := by
    intro x
    unfold Diagnostic.within
    split <;> rfl
  have hanalysis : (p.analysis d).diagnostics.countP (·.reportsUnresolved r.groupKey) = 0 :=
    List.countP_eq_zero.mpr fun x hx => by simp [(hsound.diagnostics x hx).not_unresolved]
  have htaken : (takenReports p.finished (p.analysis d)).countP
      (·.reportsUnresolved r.groupKey) = 0 :=
    List.countP_eq_zero.mpr fun x hx => by simp [takenReports_not_unresolved hx]
  have hpage : (p.page options d).2.countP (·.reportsUnresolved r.groupKey) = 0 :=
    List.countP_eq_zero.mpr fun x hx => by simp [(p.page_faults options d x hx).not_unresolved]
  have hlinks : (p.links d).diagnostics.countP (·.reportsUnresolved r.groupKey) = 1 := by
    obtain ⟨place, hplace⟩ := List.mem_iff_getElem?.mp hr
    refine Selection.countP_unresolved ?_ hkind ?_ ?_
    · exact fun other hother => (hsound.references other hother).1.trans hkey.symm
    · exact List.ne_nil_of_mem (Selection.mem_members.mpr ⟨hplace, rfl⟩)
    · rintro ⟨other, otherPlace⟩ hother
      obtain ⟨hotherPlace, hotherKey⟩ := Selection.mem_members.mp hother
      have hown := List.mem_of_getElem? hotherPlace
      rw [← h.resolves_merged hd, h.resolves_eq]
      · exact hunknown other hown hotherKey
      · exact List.mem_flatMap.mpr ⟨p.analysis d, List.mem_map_of_mem hd, hown⟩
  rw [h.countP_diagnostics hd hc hwithin, hanalysis, htaken, hlinks, hpage]

end

/-- The rows that a compilation leaves of the documents of the project belong to
different links and lead from nothing or something known to something known. A
link keeps a row as soon as one of its targets is known; otherwise it keeps
none, and if the author wrote it, that is reported once. -/
theorem compile_keeps_references_sound (h : p.Reachable) (hcheck : p.registry.check = .ok ())
    (hdone : p.Completes) (options : CompileOptions) :
    ∃ out q, p.compile options = .ok (out, q) ∧
      ((q.store.rowsIn p.names).map (·.reference.groupKey)).Nodup ∧
      (∀ row ∈ q.store.rowsIn p.names, q.store.knows row.reference.target [] = true ∧
        (row.reference.source = "" ∨ q.store.knows row.reference.source [] = true)) ∧
      ∀ d ∈ p.documents, ∃ c, out.document? d.name = some c ∧
        ∀ r ∈ (p.analysis d).contribution.references,
          ((∃ other ∈ (p.analysis d).contribution.references,
              other.groupKey = r.groupKey ∧ q.store.knows other.target [] = true) →
            ∃ row, q.store.rows.filter (·.reference.groupKey = r.groupKey) = [row] ∧
              row.reference ∈ (p.analysis d).contribution.references) ∧
          ((∀ other ∈ (p.analysis d).contribution.references,
              other.groupKey = r.groupKey → q.store.knows other.target [] = false) →
            q.store.rows.filter (·.reference.groupKey = r.groupKey) = [] ∧
              (r.kind = .crossReference ∨ r.kind = .structuralParent →
                c.diagnostics.countP (·.reportsUnresolved r.groupKey) = 1)) := by
  obtain ⟨hkeyed, -⟩ := h.sound
  refine ⟨_, _, hkeyed.compile_ok hcheck hdone options, hkeyed.nodup_keys,
    fun row hrow => (hkeyed.known_of_mem_rowsIn hrow).2, ?_⟩
  intro d hd
  have hc := hkeyed.document?_output hd options
  refine ⟨_, hc, ?_⟩
  intro r hr
  refine ⟨?_, ?_⟩
  · rintro ⟨other, hother, hkey, hknown⟩
    exact hkey ▸ hkeyed.rows_of_known hd hother hknown
  · intro hunknown
    exact ⟨hkeyed.rows_of_unknown hd hr hunknown,
      fun hkind => hkeyed.countP_unresolved hd hc hr hkind hunknown⟩

theorem compile_keeps_references_sound_birds : ∃ out q, birds.compile {} = .ok (out, q) ∧
    ((q.store.rowsIn ["ducks", "index"]).map (·.reference.groupKey)).Nodup ∧
    ∀ row ∈ q.store.rowsIn ["ducks", "index"], q.store.knows row.reference.target [] = true := by
  obtain ⟨out, q, hcompile, hnodup, hknown, -⟩ :=
    compile_keeps_references_sound birds_reachable Registry.check_builtin birds_completes {}
  exact ⟨out, q, hcompile, hnodup, fun row hrow => (hknown row hrow).1⟩

end Project
end Macromark
