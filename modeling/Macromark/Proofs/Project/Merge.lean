import Macromark.Project
import Macromark.Proofs.Store

/-!
# Merging the documents of a project

An identifier that is taken leaves the contribution of a document and is
reported: `yielded` says this at once for a whole document (`merge_eq`). Over
all documents the first one to define an identifier keeps it, unless the store
knew it before (`get?_mergeAll`). So the holder of an identifier never changes
once there is one, and every document can be looked at as if it had been merged
into the finished store (`documents_mergeAll`).
-/

namespace Macromark

/-- Whether an identifier of `document` is reported to be held by another document. -/
def Diagnostic.reportsTaken (document id : String) (x : Diagnostic) : Bool :=
  match x.problem with
  | .duplicateId taken previous => taken == id && previous.document != document
  | _ => false

namespace Project

variable {s : Store} {a : Analysis} {as : List Analysis} {id : String}

-- ----------------------------------------------------------------------------
-- Yielding identifiers
-- ----------------------------------------------------------------------------

def holder? (store : Store) (document id : String) : Option IdRecord :=
  (store.records.get? id).filter fun r => r.document ≠ document

def takenReports (store : Store) (a : Analysis) : List Diagnostic :=
  a.contribution.ids.filterMap fun entry =>
    (holder? store a.document entry.1).map fun previous =>
      ⟨.duplicateId entry.1 previous.location, entry.2.location.position, a.document⟩

def yielded (store : Store) (a : Analysis) : Analysis :=
  { a with
    contribution := { a.contribution with
      ids := a.contribution.ids.filter fun entry => (holder? store a.document entry.1).isNone }
    diagnostics := a.diagnostics ++ takenReports store a }

theorem holder?_eq_some :
    holder? s document id = some r ↔ s.records.get? id = some r ∧ r.document ≠ document := by
  simp [holder?, Option.filter_eq_some_iff]

theorem holder?_id (h : s.Keyed) (hr : holder? s document id = some r) : r.id = id :=
  h.id_eq (holder?_eq_some.mp hr).1

theorem mem_takenReports :
    x ∈ takenReports s a ↔ ∃ entry ∈ a.contribution.ids, ∃ previous,
      holder? s a.document entry.1 = some previous ∧
        ⟨.duplicateId entry.1 previous.location, entry.2.location.position, a.document⟩ = x := by
  simp only [takenReports, List.mem_filterMap, Option.map_eq_some_iff]

theorem reportsTaken_of_mem (h : s.Sound) (hx : x ∈ takenReports s a) :
    x.document = a.document ∧ ∃ id, x.reportsTaken a.document id = true := by
  obtain ⟨entry, -, previous, hprevious, rfl⟩ := mem_takenReports.mp hx
  obtain ⟨hr, hne⟩ := holder?_eq_some.mp hprevious
  have hplaced : previous.location.document ≠ a.document := h.location_eq hr ▸ hne
  exact ⟨rfl, entry.1, by simp [Diagnostic.reportsTaken, hplaced]⟩

/-- Yielding one after the other comes to yielding at once. -/
theorem yieldTo_eq (taken : List IdRecord) (h : (taken.map (·.id)).Nodup) (a : Analysis) :
    yieldTo taken a =
      { a with
        contribution := { a.contribution with
          ids := a.contribution.ids.filter fun entry => entry.1 ∉ taken.map (·.id) }
        diagnostics := a.diagnostics ++ taken.filterMap fun previous =>
          (a.contribution.ids.get? previous.id).map fun own =>
            ⟨.duplicateId previous.id previous.location, own.location.position, a.document⟩ } := by
  induction taken generalizing a with
  | nil => simp [yieldTo]
  | cons previous rest ih =>
    obtain ⟨hnew, hrest⟩ := List.nodup_cons.mp h
    rw [yieldTo, List.foldl_cons]
    cases hown : a.contribution.ids.get? previous.id with
    | none =>
      have hids : a.contribution.ids.filter (fun entry => entry.1 ∉ (previous :: rest).map (·.id)) =
          a.contribution.ids.filter fun entry => entry.1 ∉ rest.map (·.id) := by
        refine List.filter_congr fun entry he => ?_
        have hne : entry.1 ≠ previous.id := fun heq =>
          OrderedMap.get?_eq_none_iff.mp hown (heq ▸ List.mem_map_of_mem he)
        simp [hne]
      rw [hids, List.filterMap_cons_none (by rw [hown]; rfl)]
      exact ih hrest a
    | some own =>
      refine (ih hrest _).trans ?_
      have hids : (a.contribution.ids.erase previous.id).filter
            (fun entry => entry.1 ∉ rest.map (·.id)) =
          a.contribution.ids.filter fun entry => entry.1 ∉ (previous :: rest).map (·.id) := by
        rw [OrderedMap.erase, List.filter_filter]
        refine List.filter_congr fun entry _ => ?_
        by_cases hentry : entry.1 = previous.id <;> simp [hentry]
      have hreports : ∀ other ∈ rest,
          (a.contribution.ids.erase previous.id).get? other.id =
            a.contribution.ids.get? other.id := by
        intro other hother
        rw [OrderedMap.get?_erase, if_neg]
        intro heq
        exact hnew (List.mem_map.mpr ⟨other, hother, heq.symm⟩)
      rw [hids, List.filterMap_cons_some (by rw [hown]; rfl)]
      simp only [List.append_assoc, List.singleton_append]
      congr 3
      refine List.filterMap_congr fun other hother => ?_
      rw [hreports other hother]

theorem lookup_eq (s : Store) (ids : List String) (document : String) :
    s.lookup ids [document] = ids.filterMap (holder? s document) := by
  rw [Store.lookup, List.filter_filterMap]
  congr 1
  funext id
  simp [holder?]

theorem ids_lookup (hs : s.Keyed) (ids : List String) (document : String) :
    (s.lookup ids [document]).map (·.id) =
      ids.filter fun id => (holder? s document id).isSome := by
  rw [lookup_eq, List.map_filterMap, ← List.filterMap_eq_filter]
  refine List.filterMap_congr fun id _ => ?_
  cases hr : holder? s document id with
  | none => simp [Option.guard, hr]
  | some r => simp [Option.guard, hr, holder?_id hs hr]

/-- Yielding to those that the store names. -/
theorem yieldTo_lookup (hs : s.Keyed) (hids : a.contribution.ids.Sorted) :
    yieldTo (s.lookup a.contribution.ids.keys [a.document]) a = yielded s a := by
  have hkeys := ids_lookup hs a.contribution.ids.keys a.document
  have hleft : a.contribution.ids.filter (fun entry =>
        entry.1 ∉ a.contribution.ids.keys.filter fun id => (holder? s a.document id).isSome) =
      a.contribution.ids.filter fun entry => (holder? s a.document entry.1).isNone := by
    refine List.filter_congr fun entry he => ?_
    have hkey : entry.1 ∈ a.contribution.ids.keys := List.mem_map_of_mem he
    cases hr : holder? s a.document entry.1 <;> simp [List.mem_filter, hkey, hr]
  have hreports : (s.lookup a.contribution.ids.keys [a.document]).filterMap (fun previous =>
        (a.contribution.ids.get? previous.id).map fun own =>
          (⟨.duplicateId previous.id previous.location, own.location.position, a.document⟩ :
            Diagnostic)) =
      takenReports s a := by
    rw [lookup_eq, List.filterMap_filterMap, OrderedMap.keys, List.filterMap_map]
    refine List.filterMap_congr fun entry he => ?_
    cases hr : holder? s a.document entry.1 with
    | none => simp [hr]
    | some previous => simp [hr, holder?_id hs hr, hids.mem_iff.mp he]
  rw [yieldTo_eq _ (hkeys ▸ hids.nodup_keys.filter _), hkeys, hleft, hreports, yielded]

theorem merge_eq (hs : s.Keyed) (hids : a.contribution.ids.Sorted) :
    merge s a = (yielded s a, (s.update (yielded s a).contribution).2) := by
  rw [merge, yieldTo_lookup hs hids]

theorem yielded_ids (s : Store) (hids : a.contribution.ids.Sorted) (id : String) :
    (yielded s a).contribution.ids.get? id =
      if (holder? s a.document id).isNone then a.contribution.ids.get? id else none := by
  refine (OrderedMap.get?_filter hids _ id).trans ?_
  cases hr : holder? s a.document id <;> cases a.contribution.ids.get? id <;> simp [hr]

-- ----------------------------------------------------------------------------
-- One document after the other
-- ----------------------------------------------------------------------------

/-- Analyses of different documents, none of which has been entered yet. -/
structure Mergeable (s : Store) (as : List Analysis) : Prop where
  store : s.Keyed
  sound : ∀ a ∈ as, a.contribution.Sound
  owner : ∀ a ∈ as, a.contribution.document = a.document
  distinct : (as.map (·.document)).Nodup
  free : s.FreeOf (as.map (·.document))

theorem yielded_sound (h : a.contribution.Sound) : (yielded s a).contribution.Sound :=
  ⟨h.sorted.filter _, fun entry he => h.records entry (List.mem_filter.mp he).1, h.sites⟩

section
variable (h : Mergeable s (a :: as))
include h

theorem Mergeable.merge_eq :
    merge s a = (yielded s a, (s.update (yielded s a).contribution).2) :=
  Project.merge_eq h.store (h.sound a List.mem_cons_self).sorted

theorem Mergeable.clear_eq : s.clear [(yielded s a).contribution.document] = s := by
  have howner : (yielded s a).contribution.document = a.document := h.owner a List.mem_cons_self
  rw [howner]
  exact (h.free.subset (by simp)).clear_eq

/-- Who held an identifier goes on holding it. -/
theorem Mergeable.get?_merge (id : String) :
    (merge s a).2.records.get? id =
      (s.records.get? id).or (a.contribution.ids.get? id) := by
  have hsound := h.sound a List.mem_cons_self
  rw [h.merge_eq, Store.get?_update s (yielded_sound hsound).toKeyed, h.clear_eq,
    yielded_ids s hsound.sorted]
  cases hr : s.records.get? id with
  | none => simp [holder?, hr]
  | some r =>
    have hne : r.document ≠ a.document := by
      intro heq
      exact h.free.records (id, r) (OrderedMap.mem_of_get? hr) (heq ▸ by simp)
    simp [holder?, hr, hne]

theorem Mergeable.rows_merge :
    (merge s a).2.rows = s.rows ++ Store.number s.nextRow a.contribution.references := by
  rw [h.merge_eq, Store.rows_update, h.clear_eq]
  rfl

theorem Mergeable.next : Mergeable (merge s a).2 as := by
  have hsound := h.sound a List.mem_cons_self
  obtain ⟨hnew, hdistinct⟩ := List.nodup_cons.mp h.distinct
  refine ⟨?_, fun b hb => h.sound b (List.mem_cons_of_mem _ hb),
    fun b hb => h.owner b (List.mem_cons_of_mem _ hb), hdistinct, ?_, ?_⟩
  · rw [h.merge_eq]
    exact h.store.update (yielded_sound hsound).toKeyed
  · intro entry he
    rw [h.merge_eq] at he
    rcases Store.mem_update h.store (yielded_sound hsound).toKeyed he with he | he
    · have howned := ((yielded_sound (s := s) hsound).records entry he).owned
      rw [howned.trans (h.owner a List.mem_cons_self)]
      exact hnew
    · exact fun hm => h.free.records entry he (List.mem_cons_of_mem _ hm)
  · intro row hrow
    rw [h.rows_merge] at hrow
    rcases List.mem_append.mp hrow with hrow | hrow
    · exact fun hm => h.free.rows row hrow (List.mem_cons_of_mem _ hm)
    · obtain ⟨place, -, hr⟩ := Store.mem_number.mp hrow
      have hsite := hsound.sites row.reference (List.mem_of_getElem? hr)
      rw [hsite.trans (h.owner a List.mem_cons_self)]
      exact hnew

end

-- ----------------------------------------------------------------------------
-- All documents
-- ----------------------------------------------------------------------------

theorem get?_mergeAll (h : Mergeable s as) (id : String) :
    (mergeAll s as).2.records.get? id =
      (s.records.get? id).or (as.findSome? (·.contribution.ids.get? id)) := by
  induction as generalizing s with
  | nil => simp [mergeAll]
  | cons a rest ih =>
    rw [mergeAll, ih h.next, h.get?_merge, Option.or_assoc, List.findSome?_cons]
    cases a.contribution.ids.get? id <;> rfl

theorem rows_mergeAll (h : Mergeable s as) :
    (mergeAll s as).2.rows =
      s.rows ++ Store.number s.nextRow (as.flatMap (·.contribution.references)) := by
  induction as generalizing s with
  | nil => simp [mergeAll, Store.number]
  | cons a rest ih =>
    have hnext : (merge s a).2.nextRow = s.nextRow + a.contribution.references.length := by
      rw [h.merge_eq]; rfl
    rw [mergeAll, ih h.next, h.rows_merge, hnext, List.flatMap_cons, Store.number_append,
      List.append_assoc]

theorem nextRow_mergeAll (h : Mergeable s as) :
    (mergeAll s as).2.nextRow =
      s.nextRow + (as.flatMap (·.contribution.references)).length := by
  induction as generalizing s with
  | nil => simp [mergeAll]
  | cons a rest ih =>
    rw [mergeAll, ih h.next, h.merge_eq, List.flatMap_cons, List.length_append, ← Nat.add_assoc]
    rfl

theorem keyed_mergeAll (h : Mergeable s as) : (mergeAll s as).2.Keyed := by
  induction as generalizing s with
  | nil => exact h.store
  | cons a rest ih => exact ih h.next

theorem sound_mergeAll (h : Mergeable s as) (hs : s.Sound) : (mergeAll s as).2.Sound := by
  induction as generalizing s with
  | nil => exact hs
  | cons a rest ih =>
    have hmerged : (merge s a).2.Sound := by
      rw [h.merge_eq]
      exact hs.update (yielded_sound (h.sound a List.mem_cons_self))
    exact ih h.next hmerged

theorem yielded_congr {t : Store}
    (h : ∀ id ∈ a.contribution.ids.keys, holder? s a.document id = holder? t a.document id) :
    yielded s a = yielded t a := by
  have hids : ∀ entry ∈ a.contribution.ids,
      holder? s a.document entry.1 = holder? t a.document entry.1 :=
    fun entry he => h entry.1 (List.mem_map_of_mem he)
  have hleft : a.contribution.ids.filter (fun entry => (holder? s a.document entry.1).isNone) =
      a.contribution.ids.filter fun entry => (holder? t a.document entry.1).isNone :=
    List.filter_congr fun entry he => by rw [hids entry he]
  have hreports : takenReports s a = takenReports t a :=
    List.filterMap_congr fun entry he => by rw [hids entry he]
  rw [yielded, yielded, hleft, hreports]

/-- Where an identifier of a document goes is settled when it is merged. -/
theorem Mergeable.holder?_mergeAll (h : Mergeable s (a :: as))
    (hid : id ∈ a.contribution.ids.keys) :
    holder? (mergeAll s (a :: as)).2 a.document id = holder? s a.document id := by
  rw [holder?, get?_mergeAll h, holder?]
  cases hr : s.records.get? id with
  | some r => rfl
  | none =>
    obtain ⟨own, hown⟩ := Option.isSome_iff_exists.mp (OrderedMap.contains_iff_mem_keys.mpr hid)
    have hsound := h.sound a List.mem_cons_self
    have howned : own.document = a.document :=
      (hsound.records _ (OrderedMap.mem_of_get? hown)).owned.trans (h.owner a List.mem_cons_self)
    simp [hown, howned]

/-- The documents yield to those that hold an identifier in the end. -/
theorem documents_mergeAll (h : Mergeable s as) :
    (mergeAll s as).1 = as.map (yielded (mergeAll s as).2) := by
  induction as generalizing s with
  | nil => rfl
  | cons a rest ih =>
    have hhead : (merge s a).1 = yielded (mergeAll s (a :: rest)).2 a := by
      rw [h.merge_eq]
      exact yielded_congr fun id hid => (h.holder?_mergeAll hid).symm
    rw [List.map_cons, ← hhead]
    exact congrArg ((merge s a).1 :: ·) (ih h.next)

end Project
end Macromark
