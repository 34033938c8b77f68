import Macromark.Proofs.OrderedMap
import Macromark.Record

/-!
# The index of one document

`Index.Of document` holds of an index whose records are kept under their own
identifiers, belong to `document` and stand in it. Entering and changing a
record keep this, and neither of them gives an identifier up.
-/

namespace Macromark

/-- The record of an identifier that `document` defines. -/
structure IdRecord.Of (document id : String) (r : IdRecord) : Prop where
  keyed : r.id = id
  owned : r.document = document
  placed : r.location.document = document

namespace Index

structure Of (document : String) (i : Index) : Prop where
  sorted : i.entries.Sorted
  records : ∀ entry ∈ i.entries, entry.2.2.Of document entry.1

variable {document id : String} {i j : Index}

theorem Of.record? (h : Of document i) (hr : i.record? id = some r) : r.Of document id := by
  obtain ⟨entry, he, rfl⟩ := Option.map_eq_some_iff.mp hr
  exact h.records _ (OrderedMap.mem_of_get? he)

theorem insert_ok (h : i.insert node record = .ok j) :
    j = ⟨i.entries.insert record.id (node, record)⟩ := by
  unfold Index.insert at h
  split at h
  · cases h
  · cases h; rfl

theorem insert_error (h : i.insert node record = .error previous) :
    i.record? record.id = some previous := by
  unfold Index.insert at h
  split at h
  · next hp => cases h; exact hp
  · cases h

theorem contains_insert (h : i.insert node record = .ok j) :
    j.contains id = (decide (record.id = id) || i.contains id) := by
  rw [insert_ok h]
  simp only [Index.contains, OrderedMap.contains, OrderedMap.get?_insert]
  by_cases hid : record.id = id <;> simp [hid]

@[simp] theorem contains_modify (i : Index) (id other : String) (f : IdRecord → IdRecord) :
    (i.modify id f).contains other = i.contains other := by
  simp only [Index.contains, OrderedMap.contains, Index.modify, OrderedMap.get?_modify]
  split <;> simp

theorem Of.empty : Of document .empty := ⟨OrderedMap.sorted_nil, by simp [Index.empty]⟩

theorem Of.insert (h : Of document i) (hr : record.Of document record.id)
    (hi : i.insert node record = .ok j) : Of document j := by
  rw [insert_ok hi]
  refine ⟨h.sorted.insert _ _, ?_⟩
  intro entry he
  rcases OrderedMap.mem_insert he with rfl | he
  · exact hr
  · exact h.records entry he

theorem Of.modify (h : Of document i)
    (hf : ∀ r : IdRecord, r.Of document id → (f r).Of document id) :
    Of document (i.modify id f) := by
  refine ⟨h.sorted.modify id fun entry => (entry.1, f entry.2), ?_⟩
  intro entry he
  obtain ⟨old, hold, rfl⟩ := List.mem_map.mp he
  have hrecord := h.records old hold
  split
  · next hid => subst hid; exact hf _ hrecord
  · exact hrecord

-- ----------------------------------------------------------------------------
-- The records by identifier
-- ----------------------------------------------------------------------------

theorem get?_records (i : Index) (id : String) : i.records.get? id = i.record? id :=
  OrderedMap.get?_mapValues i.entries _ id

theorem contains_iff : i.contains id = true ↔ ∃ r, i.record? id = some r := by
  rw [Index.record?, Index.contains, OrderedMap.contains, Option.isSome_iff_exists]
  simp only [Option.map_eq_some_iff]
  constructor
  · rintro ⟨entry, he⟩
    exact ⟨_, entry, he, rfl⟩
  · rintro ⟨_, entry, he, -⟩
    exact ⟨entry, he⟩

theorem Of.sorted_records (h : Of document i) : i.records.Sorted := h.sorted.mapValues _

end Index
end Macromark
