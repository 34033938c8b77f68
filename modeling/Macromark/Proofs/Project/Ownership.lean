import Macromark.Proofs.Project.Agreement
import Macromark.Proofs.Project.History

/-!
# Who holds an identifier

After a compilation an identifier belongs to the document outside of the
project that held it before, and otherwise to the first document of the project
that defines it (`Keyed.get?_finished_index`). A document is told once of each
of its identifiers that it does not get, and of no other one
(`Keyed.countP_taken`).
-/

namespace Macromark

theorem Problem.Local.not_taken {x : Diagnostic} (h : x.problem.Local document) (id : String) :
    x.reportsTaken document id = false := by
  obtain ⟨problem, position, owner⟩ := x
  cases problem with
  | duplicateId taken previous =>
    have hprevious : previous.document = document := h
    simp [Diagnostic.reportsTaken, hprevious]
  | _ => rfl

theorem Diagnostic.OfLink.not_taken {x : Diagnostic} {document : String}
    (h : x.OfLink document) (id : String) : x.reportsTaken document id = false := by
  obtain ⟨⟨fault, hproblem⟩, -⟩ := h
  simp [Diagnostic.reportsTaken, hproblem]

theorem Selection.not_taken {s : Selection} (hx : x ∈ s.diagnostics) (document id : String) :
    x.reportsTaken document id = false := by
  obtain ⟨lost, -, hx⟩ := List.mem_filterMap.mp hx
  obtain ⟨problem, hproblem, rfl⟩ := Option.map_eq_some_iff.mp hx
  unfold problem? at hproblem
  split at hproblem <;> cases hproblem <;> rfl

namespace Project

variable {p : Project} {d : Document} {s : Store} {a : Analysis} {options : CompileOptions}

theorem countP_takenReports (hs : s.Sound) (hids : a.contribution.ids.Sorted) (id : String) :
    (takenReports s a).countP (·.reportsTaken a.document id) =
      if a.contribution.ids.contains id && (holder? s a.document id).isSome then 1 else 0 := by
  have hentry : ∀ entry ∈ a.contribution.ids,
      (((holder? s a.document entry.1).map fun previous =>
        (⟨.duplicateId entry.1 previous.location, entry.2.location.position, a.document⟩ :
          Diagnostic)).map (·.reportsTaken a.document id)).getD false =
        (entry.1 == id && (holder? s a.document id).isSome) := by
    intro entry _
    by_cases hid : entry.1 = id
    · subst hid
      cases hprevious : holder? s a.document entry.1 with
      | none => simp
      | some previous =>
        obtain ⟨hr, hne⟩ := holder?_eq_some.mp hprevious
        have hplaced : previous.location.document ≠ a.document := hs.location_eq hr ▸ hne
        simp [Diagnostic.reportsTaken, hplaced]
    · have hother : (entry.1 == id) = false := beq_false_of_ne hid
      cases holder? s a.document entry.1 <;> simp [Diagnostic.reportsTaken, hother]
  rw [takenReports, List.countP_filterMap,
    List.countP_congr fun entry he => by rw [hentry entry he]]
  cases (holder? s a.document id).isSome
  · simp
  · simpa using hids.countP_key id

theorem Keyed.countP_taken (h : p.Keyed) (hstore : p.store.Sound) (hd : d ∈ p.documents)
    (hc : (p.output options).document? d.name = some c) (id : String) :
    c.diagnostics.countP (·.reportsTaken d.name id) =
      if (p.analysis d).index.contains id &&
        (p.finished.records.get? id).any (·.document ≠ d.name) then 1 else 0 := by
  have hsound := p.analysis_sound d
  have hwithin : ∀ x : Diagnostic,
      (x.within d.name).reportsTaken d.name id = x.reportsTaken d.name id := by
    intro x
    unfold Diagnostic.within
    split <;> rfl
  have hanalysis : (p.analysis d).diagnostics.countP (·.reportsTaken d.name id) = 0 :=
    List.countP_eq_zero.mpr fun x hx => by simp [(hsound.diagnostics x hx).not_taken]
  have hlinks : (p.links d).diagnostics.countP (·.reportsTaken d.name id) = 0 :=
    List.countP_eq_zero.mpr fun x hx => by simp [Selection.not_taken hx]
  have hpage : (p.page options d).2.countP (·.reportsTaken d.name id) = 0 :=
    List.countP_eq_zero.mpr fun x hx => by simp [(p.page_faults options d x hx).not_taken]
  have hcontains : (p.analysis d).contribution.ids.contains id =
      (p.analysis d).index.contains id := by
    rw [OrderedMap.contains, get?_defines, Index.record?, Option.isSome_map]
    rfl
  have hholder : (holder? p.finished d.name id).isSome =
      (p.finished.records.get? id).any (·.document ≠ d.name) := Option.isSome_filter
  have htaken := countP_takenReports (h.sound_finished hstore) hsound.contribution.sorted id
  rw [h.countP_diagnostics hd hc hwithin, hanalysis, hlinks, hpage, ← hcontains, ← hholder,
    Nat.zero_add]
  exact htaken

theorem Keyed.get?_finished_index (h : p.Keyed) (id : String) :
    p.finished.records.get? id =
      ((p.store.records.get? id).filter fun r => !p.names.contains r.document).or
        (p.documents.findSome? fun d => (p.analysis d).index.record? id) := by
  rw [h.get?_finished, ground, Store.get?_clear h.store, analyses, List.findSome?_map]
  simp only [Function.comp_def, get?_defines]

/-- The record of an identifier that counts: that of a document outside of the
project which has entered it before, or else that of the first document of the
project to define it. -/
def Settles (p : Project) (id : String) (r : IdRecord) : Prop :=
  (p.store.records.get? id = some r ∧ r.document ∉ p.names) ∨
    ((∀ old, p.store.records.get? id = some old → old.document ∈ p.names) ∧
      ∃ before first after, p.documents = before ++ first :: after ∧
        (∀ e ∈ before, (p.analysis e).index.contains id = false) ∧
        (p.analysis first).index.record? id = some r ∧ r.document = first.name)

theorem Keyed.settles_finished {id : String} (h : p.Keyed) (hd : d ∈ p.documents)
    (hid : (p.analysis d).index.contains id = true) :
    ∃ r, p.finished.records.get? id = some r ∧ p.Settles id r := by
  have hfinished := h.get?_finished_index id
  cases hforeign : (p.store.records.get? id).filter fun r => !p.names.contains r.document with
  | some r =>
    obtain ⟨hr, hdocument⟩ := Option.filter_eq_some_iff.mp hforeign
    rw [hforeign, Option.some_or] at hfinished
    exact ⟨r, hfinished, .inl ⟨hr, by simpa using hdocument⟩⟩
  | none =>
    obtain ⟨own, hown⟩ := Index.contains_iff.mp hid
    have hsome : (p.documents.findSome? fun d => (p.analysis d).index.record? id).isSome = true :=
      List.findSome?_isSome_iff.mpr ⟨d, hd, by rw [hown]; rfl⟩
    obtain ⟨r, hr⟩ := Option.isSome_iff_exists.mp hsome
    rw [hforeign, Option.none_or, hr] at hfinished
    obtain ⟨before, first, after, hsplit, hfirst, hbefore⟩ := List.findSome?_eq_some_iff.mp hr
    refine ⟨r, hfinished, .inr ⟨?_, before, first, after, hsplit, ?_, hfirst, ?_⟩⟩
    · intro old hold
      simpa using Option.filter_eq_none_iff.mp hforeign old hold
    · intro e he
      rw [← Bool.not_eq_true, Index.contains_iff]
      rintro ⟨other, hother⟩
      exact Option.some_ne_none _ (hother.symm.trans (hbefore e he))
    · exact ((p.analysis_sound first).index.record? hfirst).owned

/-- Documents outside of the project keep all that they have entered. Of those
that define an identifier the one that has it already, or else the first one of
the project, has it afterwards; the others are told once, and nobody is told of
anything else. -/
theorem first_definition_wins (h : p.Reachable) (hcheck : p.registry.check = .ok ())
    (hdone : p.Completes) (options : CompileOptions) :
    ∃ out q, p.compile options = .ok (out, q) ∧
      (q.store.clear p.names).records = (p.store.clear p.names).records ∧
      (q.store.clear p.names).rows = (p.store.clear p.names).rows ∧
      ∀ d ∈ p.documents,
        (∀ id, (p.analysis d).index.contains id = true →
          ∃ r, q.store.records.get? id = some r ∧ p.Settles id r) ∧
        ∃ c, out.document? d.name = some c ∧
          ∀ id, c.diagnostics.countP (·.reportsTaken d.name id) =
            if (p.analysis d).index.contains id &&
              (q.store.records.get? id).any (·.document ≠ d.name) then 1 else 0 := by
  obtain ⟨hkeyed, hsound⟩ := h.sound
  have hkept := hkeyed.keptOutside_finished
  refine ⟨_, _, hkeyed.compile_ok hcheck hdone options, hkept.records, hkept.rows, ?_⟩
  intro d hd
  have hc := hkeyed.document?_output hd options
  exact ⟨fun id hid => hkeyed.settles_finished hd hid, _, hc, hkeyed.countP_taken hsound hd hc⟩

theorem first_definition_wins_birds : ∃ out q, birds.compile {} = .ok (out, q) ∧
    (q.store.clear ["ducks", "index"]).records =
      (birds.store.clear ["ducks", "index"]).records ∧
    ∃ c, out.document? "ducks" = some c ∧
      ∀ id, c.diagnostics.countP (·.reportsTaken "ducks" id) =
        if (analyze .builtin "ducks"
            "\\h[1][Geese]\n\n\\h[1][Swans]\n\n\\x[ducks]").index.contains id &&
          (q.store.records.get? id).any (·.document ≠ "ducks") then 1 else 0 := by
  obtain ⟨out, q, hcompile, hrecords, -, hdocuments⟩ :=
    first_definition_wins birds_reachable Registry.check_builtin birds_completes {}
  obtain ⟨-, c, hc, hreports⟩ := hdocuments _ List.mem_cons_self
  exact ⟨out, q, hcompile, hrecords, c, hc, hreports⟩

end Project
end Macromark
