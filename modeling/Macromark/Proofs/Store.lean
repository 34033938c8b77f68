import Macromark.Proofs.Analysis
import Macromark.Store

/-!
# The store as a map

`Store.Keyed` is what every operation keeps: records stand under their own
identifiers, and rows are numbered upwards below the next number. On such a
store an operation is described by what is found afterwards (`get?_clear`,
`get?_update`) and by the rows that are left (`rows_update`, `mem_number`).
`Store.Built` are the stores that can be made from analyzed documents; in them
every record stands in the document that it belongs to (`Store.Sound`).
-/

namespace Macromark

structure Contribution.Keyed (c : Contribution) : Prop where
  sorted : c.ids.Sorted
  keyed : ∀ entry ∈ c.ids, entry.2.id = entry.1

/-- What the documents of a project rely on in each other. -/
structure Contribution.Sound (c : Contribution) : Prop where
  sorted : c.ids.Sorted
  records : ∀ entry ∈ c.ids, entry.2.Of c.document entry.1
  sites : ∀ r ∈ c.references, r.site.document = c.document

theorem Contribution.Sound.toKeyed {c : Contribution} (h : c.Sound) : c.Keyed :=
  ⟨h.sorted, fun entry he => (h.records entry he).keyed⟩

theorem Analysis.Sound.contribution {document : String} {a : Analysis} (h : a.Sound document) :
    a.contribution.Sound := by
  refine ⟨h.ids ▸ h.index.sorted_records, ?_, ?_⟩
  · intro entry hentry
    rw [h.ids] at hentry
    obtain ⟨indexed, hindexed, rfl⟩ := List.mem_map.mp hentry
    exact h.owner ▸ h.index.records indexed hindexed
  · intro r hr
    rw [h.owner]
    exact (h.references r hr).1

namespace Store

variable {s : Store} {c : Contribution} {id : String}

/-- Every operation keeps this, whatever is contributed under its own identifiers. -/
structure Keyed (s : Store) : Prop where
  sorted : s.records.Sorted
  keyed : ∀ entry ∈ s.records, entry.2.id = entry.1
  ascending : s.rows.Pairwise fun a b => a.id < b.id
  below : ∀ row ∈ s.rows, row.id < s.nextRow

structure Sound (s : Store) : Prop extends s.Keyed where
  placed : ∀ entry ∈ s.records, entry.2.location.document = entry.2.document

theorem Keyed.id_eq (h : s.Keyed) (hr : s.records.get? id = some r) : r.id = id :=
  h.keyed _ (OrderedMap.mem_of_get? hr)

theorem Sound.location_eq (h : s.Sound) (hr : s.records.get? id = some r) :
    r.location.document = r.document := h.placed _ (OrderedMap.mem_of_get? hr)

-- ----------------------------------------------------------------------------
-- Questions
-- ----------------------------------------------------------------------------

theorem lookup_one (s : Store) (id : String) (excluded : List String) :
    s.lookup [id] excluded =
      ((s.records.get? id).filter fun r => !excluded.contains r.document).toList := by
  cases h : s.records.get? id with
  | none => simp [lookup, h]
  | some r =>
    by_cases hr : r.document ∈ excluded <;> simp [lookup, h, hr, Option.filter]

theorem knows_iff (s : Store) (id : String) (excluded : List String) :
    s.knows id excluded = true ↔ ∃ r, s.records.get? id = some r ∧ r.document ∉ excluded := by
  rw [knows, lookup_one]
  cases h : s.records.get? id with
  | none => simp
  | some r => by_cases hr : r.document ∈ excluded <;> simp [hr]

-- ----------------------------------------------------------------------------
-- Row numbers
-- ----------------------------------------------------------------------------

theorem getElem?_number (next : RowId) (references : List Reference) (place : Nat) :
    (number next references)[place]? = references[place]?.map (⟨next + place, ·⟩) := by
  induction references generalizing next place with
  | nil => rfl
  | cons r rest ih =>
    cases place with
    | zero => rfl
    | succ place => simp [number, ih, Nat.add_assoc, Nat.add_comm 1]

theorem mem_number {next : RowId} {references : List Reference} {row : Row} :
    row ∈ number next references ↔
      ∃ place, row.id = next + place ∧ references[place]? = some row.reference := by
  rw [List.mem_iff_getElem?]
  constructor
  · rintro ⟨place, h⟩
    rw [getElem?_number, Option.map_eq_some_iff] at h
    obtain ⟨r, hr, rfl⟩ := h
    exact ⟨place, rfl, hr⟩
  · rintro ⟨place, hid, hr⟩
    refine ⟨place, ?_⟩
    rw [getElem?_number, hr, Option.map_some, ← hid]

@[simp] theorem references_number (next : RowId) (references : List Reference) :
    (number next references).map (·.reference) = references := by
  induction references generalizing next with
  | nil => rfl
  | cons r rest ih => simp [number, ih]

theorem number_append (next : RowId) (first second : List Reference) :
    number next (first ++ second) = number next first ++ number (next + first.length) second := by
  induction first generalizing next with
  | nil => rfl
  | cons r rest ih => simp [number, ih, Nat.add_assoc, Nat.add_comm 1]

theorem number_ascending (next : RowId) (references : List Reference) :
    (number next references).Pairwise fun a b => a.id < b.id := by
  induction references generalizing next with
  | nil => exact List.Pairwise.nil
  | cons r rest ih =>
    refine List.pairwise_cons.mpr ⟨?_, ih (next + 1)⟩
    intro row hrow
    obtain ⟨place, hid, -⟩ := mem_number.mp hrow
    rw [hid]
    exact Nat.lt_of_lt_of_le (Nat.lt_succ_self next) (Nat.le_add_right _ _)

theorem number_below {next : RowId} {references : List Reference} {row : Row}
    (h : row ∈ number next references) : next ≤ row.id ∧ row.id < next + references.length := by
  obtain ⟨place, hid, hr⟩ := mem_number.mp h
  have hplace := (List.getElem?_eq_some_iff.mp hr).1
  rw [hid]
  exact ⟨Nat.le_add_right _ _, Nat.add_lt_add_left hplace next⟩

-- ----------------------------------------------------------------------------
-- Changes
-- ----------------------------------------------------------------------------

theorem get?_clear (h : s.Keyed) (documents : List String) (id : String) :
    (s.clear documents).records.get? id =
      (s.records.get? id).filter fun r => !documents.contains r.document :=
  OrderedMap.get?_filter h.sorted _ id

theorem get?_update (s : Store) (hc : c.Keyed) (id : String) :
    (s.update c).2.records.get? id =
      (c.ids.get? id).or ((s.clear [c.document]).records.get? id) :=
  OrderedMap.get?_insertAll hc.sorted _ id

theorem rows_update (s : Store) (c : Contribution) :
    (s.update c).2.rows = (s.clear [c.document]).rows ++ number s.nextRow c.references := rfl

theorem Keyed.clear (h : s.Keyed) (documents : List String) : (s.clear documents).Keyed :=
  ⟨h.sorted.filter _, fun entry he => h.keyed entry (List.mem_filter.mp he).1,
    h.ascending.filter _, fun row hrow => h.below row (List.mem_filter.mp hrow).1⟩

theorem Keyed.delete (h : s.Keyed) (ids : List RowId) : (s.delete ids).Keyed :=
  ⟨h.sorted, h.keyed, h.ascending.filter _,
    fun row hrow => h.below row (List.mem_filter.mp hrow).1⟩

/-- Nothing is left of what the documents have entered. -/
structure FreeOf (documents : List String) (s : Store) : Prop where
  records : ∀ entry ∈ s.records, entry.2.document ∉ documents
  rows : ∀ row ∈ s.rows, row.reference.site.document ∉ documents

theorem clear_freeOf (s : Store) (documents : List String) :
    (s.clear documents).FreeOf documents := by
  refine ⟨?_, ?_⟩
  · intro entry he
    simpa using (List.mem_filter.mp he).2
  · intro row hrow
    simpa using (List.mem_filter.mp hrow).2

theorem FreeOf.subset (h : s.FreeOf documents) {fewer : List String} (hsub : fewer ⊆ documents) :
    s.FreeOf fewer :=
  ⟨fun entry he hm => h.records entry he (hsub hm), fun row hrow hm => h.rows row hrow (hsub hm)⟩

theorem FreeOf.clear_eq (h : s.FreeOf documents) : s.clear documents = s := by
  have hrecords : s.records.filter (fun entry => !documents.contains entry.2.document) =
      s.records := List.filter_eq_self.mpr fun entry he => by simpa using h.records entry he
  have hrows : s.rows.filter (fun row => !documents.contains row.reference.site.document) =
      s.rows := List.filter_eq_self.mpr fun row hrow => by simpa using h.rows row hrow
  rw [Store.clear, hrecords, hrows]

/-- What is known after an update was known before, or is contributed. -/
theorem mem_update (h : s.Keyed) (hc : c.Keyed) (he : entry ∈ (s.update c).2.records) :
    entry ∈ c.ids ∨ entry ∈ s.records := by
  have hcleared := h.clear [c.document]
  have hfound := (hcleared.sorted.insertAll c.ids).mem_iff.mp he
  rw [OrderedMap.get?_insertAll hc.sorted] at hfound
  rcases Option.or_eq_some_iff.mp hfound with hfound | ⟨-, hfound⟩
  · exact .inl (OrderedMap.mem_of_get? hfound)
  · exact .inr (List.mem_filter.mp (OrderedMap.mem_of_get? hfound)).1

theorem Keyed.update (h : s.Keyed) (hc : c.Keyed) : (s.update c).2.Keyed := by
  have hcleared := h.clear [c.document]
  refine ⟨hcleared.sorted.insertAll _, ?_, ?_, ?_⟩
  · intro entry he
    rcases mem_update h hc he with he | he
    · exact hc.keyed entry he
    · exact h.keyed entry he
  · refine List.pairwise_append.mpr ⟨hcleared.ascending, number_ascending _ _, ?_⟩
    intro old hold new hnew
    exact Nat.lt_of_lt_of_le (hcleared.below old hold) (number_below hnew).1
  · intro row hrow
    rcases List.mem_append.mp hrow with hrow | hrow
    · exact Nat.lt_of_lt_of_le (hcleared.below row hrow) (Nat.le_add_right _ _)
    · exact (number_below hrow).2

theorem Sound.empty : Sound .empty :=
  ⟨⟨OrderedMap.sorted_nil, by simp [Store.empty], List.Pairwise.nil, by simp [Store.empty]⟩,
    by simp [Store.empty]⟩

theorem Sound.clear (h : s.Sound) (documents : List String) : (s.clear documents).Sound :=
  ⟨h.toKeyed.clear documents, fun entry he => h.placed entry (List.mem_filter.mp he).1⟩

theorem Sound.delete (h : s.Sound) (ids : List RowId) : (s.delete ids).Sound :=
  ⟨h.toKeyed.delete ids, h.placed⟩

theorem Sound.update (h : s.Sound) (hc : c.Sound) : (s.update c).2.Sound := by
  refine ⟨h.toKeyed.update hc.toKeyed, ?_⟩
  intro entry he
  rcases mem_update h.toKeyed hc.toKeyed he with he | he
  · have hrecord := hc.records entry he
    exact hrecord.placed.trans hrecord.owned.symm
  · exact h.placed entry he

-- ----------------------------------------------------------------------------
-- The stores that there are
-- ----------------------------------------------------------------------------

/-- A store into which analyzed documents have been entered, each under some
registry; it may have forgotten documents and lost rows. -/
inductive Built : Store → Prop
  | empty : Built .empty
  | update {s : Store} (h : Built s) (registry : Registry) (document source : String) :
      Built (s.update (analyze registry document source).contribution).2
  | clear {s : Store} (h : Built s) (documents : List String) : Built (s.clear documents)
  | delete {s : Store} (h : Built s) (ids : List RowId) : Built (s.delete ids)

theorem Built.sound (h : Built s) : s.Sound := by
  induction h with
  | empty => exact Sound.empty
  | update _ registry document source ih =>
    exact ih.update (analyze_sound registry document source).contribution
  | clear _ documents ih => exact ih.clear documents
  | delete _ ids ih => exact ih.delete ids

end Store
end Macromark
