import Macromark.OrderedMap
import Mathlib.Data.List.Nodup

/-!
# Ordered maps as functions

The operations of a map keep its keys ascending. Where they ascend, the map is
determined by what `get?` finds in it (`ext_sorted`), and leaving entries out
is the same as leaving out what `get?` finds (`get?_filter`).
-/

namespace Macromark.OrderedMap

variable {κ α : Type}

section
variable [DecidableEq κ]

theorem mem_of_get? {m : OrderedMap κ α} (h : get? m key = some value) : (key, value) ∈ m := by
  induction m with
  | nil => simp at h
  | cons entry rest ih =>
    obtain ⟨k, a⟩ := entry
    simp only [get?] at h
    split at h
    · next hk => subst hk; cases h; exact List.mem_cons_self
    · exact List.mem_cons_of_mem _ (ih h)

theorem get?_eq_none_iff {m : OrderedMap κ α} : get? m key = none ↔ key ∉ keys m := by
  induction m with
  | nil => simp [keys]
  | cons entry rest ih =>
    obtain ⟨k, a⟩ := entry
    simp only [keys, List.map_cons, List.mem_cons, not_or] at ih ⊢
    by_cases hk : k = key
    · simp [get?, hk]
    · simp [get?, hk, ih, Ne.symm hk]

theorem contains_iff_mem_keys {m : OrderedMap κ α} : contains m key = true ↔ key ∈ keys m := by
  rw [contains, ← Option.ne_none_iff_isSome, ne_eq, get?_eq_none_iff, not_not]

theorem get?_mapValues (m : OrderedMap κ α) (f : κ × α → β) (key : κ) :
    get? (m.map fun entry => (entry.1, f entry)) key = (get? m key).map fun a => f (key, a) := by
  induction m with
  | nil => rfl
  | cons entry rest ih =>
    obtain ⟨k, a⟩ := entry
    simp only [List.map_cons, get?, ih]
    split
    · next hk => subst hk; rfl
    · rfl

end

-- ----------------------------------------------------------------------------
-- Ascending keys
-- ----------------------------------------------------------------------------

variable [LT κ]

/-- The keys ascend, so that none of them stands twice. -/
def Sorted (m : OrderedMap κ α) : Prop := m.Pairwise fun a b => a.1 < b.1

@[simp] theorem sorted_nil : Sorted ([] : OrderedMap κ α) := List.Pairwise.nil

theorem Sorted.filter {m : OrderedMap κ α} (h : Sorted m) (p : κ × α → Bool) :
    Sorted (m.filter p) := List.Pairwise.filter p h

theorem Sorted.mapValues {m : OrderedMap κ α} (h : Sorted m) (f : κ × α → β) :
    Sorted (m.map fun entry => (entry.1, f entry)) := List.pairwise_map.mpr h

theorem Sorted.nodup_keys [Std.Irrefl (α := κ) (· < ·)] {m : OrderedMap κ α} (h : Sorted m) :
    (keys m).Nodup := by
  refine List.pairwise_map.mpr (List.Pairwise.imp ?_ h)
  intro a b hab heq
  exact Std.Irrefl.irrefl b.1 (heq ▸ hab)

variable [DecidableEq κ]

theorem Sorted.countP_key [Std.Irrefl (α := κ) (· < ·)] {m : OrderedMap κ α} (h : Sorted m)
    (key : κ) : m.countP (·.1 == key) = if contains m key then 1 else 0 := by
  have hcount := h.nodup_keys.count (a := key)
  rw [List.count, keys, List.countP_map] at hcount
  refine hcount.trans ?_
  simp only [contains_iff_mem_keys, keys]

theorem Sorted.modify {m : OrderedMap κ α} (h : Sorted m) (key : κ) (f : α → α) :
    Sorted (modify m key f) := by
  refine List.pairwise_map.mpr (List.Pairwise.imp ?_ h)
  intro a b hab
  split <;> split <;> exact hab

section
variable [∀ a b : κ, Decidable (a < b)]

theorem mem_insert {m : OrderedMap κ α} (h : entry ∈ insert key value m) :
    entry = (key, value) ∨ entry ∈ m := by
  induction m with
  | nil => simpa [insert] using h
  | cons head rest ih =>
    simp only [insert] at h
    split at h
    · simpa using h
    · split at h
      · rcases List.mem_cons.mp h with rfl | hr
        · exact .inl rfl
        · exact .inr (List.mem_cons_of_mem _ hr)
      · rcases List.mem_cons.mp h with rfl | hr
        · exact .inr List.mem_cons_self
        · exact (ih hr).imp id (List.mem_cons_of_mem _)

theorem Sorted.insert [Trans (α := κ) (· < ·) (· < ·) (· < ·)]
    [Std.Trichotomous (α := κ) (· < ·)] {m : OrderedMap κ α} (h : Sorted m) (key : κ)
    (value : α) : Sorted (insert key value m) := by
  induction m with
  | nil => simp [OrderedMap.insert, Sorted]
  | cons head rest ih =>
    obtain ⟨hhead, hrest⟩ := List.pairwise_cons.mp h
    simp only [OrderedMap.insert]
    split
    · next hlt =>
      refine List.pairwise_cons.mpr ⟨?_, h⟩
      intro entry hentry
      rcases List.mem_cons.mp hentry with rfl | hentry
      · exact hlt
      · exact Trans.trans hlt (hhead entry hentry)
    · next hle =>
      split
      · next heq => subst heq; exact List.pairwise_cons.mpr ⟨hhead, hrest⟩
      · next hne =>
        have hgt : head.1 < key :=
          (Std.lt_trichotomy key head.1).resolve_left hle |>.resolve_left hne
        refine List.pairwise_cons.mpr ⟨?_, ih hrest⟩
        intro entry hentry
        rcases mem_insert hentry with rfl | hentry
        · exact hgt
        · exact hhead entry hentry

theorem mem_of_get?_insertAll {entries m : OrderedMap κ α}
    (h : get? (entries.foldl (fun m entry => insert entry.1 entry.2 m) m) key = some value) :
    (key, value) ∈ entries ∨ get? m key = some value := by
  induction entries generalizing m with
  | nil => exact .inr h
  | cons entry rest ih =>
    rcases ih h with hrest | hfirst
    · exact .inl (List.mem_cons_of_mem _ hrest)
    · rw [get?_insert] at hfirst
      split at hfirst
      · next hkey =>
        subst hkey
        obtain rfl := Option.some.inj hfirst
        exact .inl List.mem_cons_self
      · exact .inr hfirst

theorem exists_get?_insertAll {entries : OrderedMap κ α} (h : (key, value) ∈ entries)
    (m : OrderedMap κ α) :
    ∃ found, get? (entries.foldl (fun m entry => insert entry.1 entry.2 m) m) key = some found := by
  have hkept : ∀ (entries m : OrderedMap κ α), (∃ found, get? m key = some found) →
      ∃ found, get? (entries.foldl (fun m entry => insert entry.1 entry.2 m) m) key = some found := by
    intro entries
    induction entries with
    | nil => exact fun _ hfound => hfound
    | cons entry rest ih =>
      rintro m ⟨found, hfound⟩
      refine ih _ ?_
      rw [get?_insert]
      split
      · exact ⟨_, rfl⟩
      · exact ⟨found, hfound⟩
  induction entries generalizing m with
  | nil => simp at h
  | cons entry rest ih =>
    rcases List.mem_cons.mp h with rfl | h
    · exact hkept rest _ ⟨value, by rw [get?_insert, if_pos rfl]⟩
    · exact ih h _

theorem Sorted.insertAll [Trans (α := κ) (· < ·) (· < ·) (· < ·)]
    [Std.Trichotomous (α := κ) (· < ·)] {m : OrderedMap κ α} (h : Sorted m)
    (entries : OrderedMap κ α) :
    Sorted (entries.foldl (fun m entry => OrderedMap.insert entry.1 entry.2 m) m) := by
  induction entries generalizing m with
  | nil => exact h
  | cons entry rest ih => exact ih (h.insert _ _)

end

variable [Std.Irrefl (α := κ) (· < ·)]

theorem Sorted.mem_iff {m : OrderedMap κ α} (h : Sorted m) :
    (key, value) ∈ m ↔ get? m key = some value := by
  refine ⟨fun hm => ?_, mem_of_get?⟩
  induction m with
  | nil => simp at hm
  | cons entry rest ih =>
    obtain ⟨k, a⟩ := entry
    obtain ⟨hhead, hrest⟩ := List.pairwise_cons.mp h
    rcases List.mem_cons.mp hm with heq | hm
    · cases heq; simp [get?]
    · have hne : k ≠ key := by
        rintro rfl
        exact Std.Irrefl.irrefl k (hhead _ hm)
      simp [get?, hne, ih hrest hm]

theorem get?_filter {m : OrderedMap κ α} (h : Sorted m) (p : κ × α → Bool) (key : κ) :
    get? (m.filter p) key = (get? m key).filter fun a => p (key, a) := by
  ext value
  rw [← (h.filter p).mem_iff, List.mem_filter, h.mem_iff]
  simp [Option.filter_eq_some_iff]

/-- Entering puts one entry in the place of what stood under its key. -/
theorem Sorted.insert_perm [∀ a b : κ, Decidable (a < b)]
    [Trans (α := κ) (· < ·) (· < ·) (· < ·)] [Std.Trichotomous (α := κ) (· < ·)]
    {m : OrderedMap κ α} (h : Sorted m) (key : κ) (value : α) :
    (OrderedMap.insert key value m).Perm ((key, value) :: erase m key) := by
  have hfresh : (key, value) ∉ erase m key := by simp [erase]
  refine (List.perm_ext_iff_of_nodup (.of_map _ (h.insert key value).nodup_keys)
    (List.nodup_cons.mpr ⟨hfresh, .of_map _ (h.filter _).nodup_keys⟩)).mpr ?_
  rintro ⟨k, a⟩
  rw [(h.insert key value).mem_iff, List.mem_cons, erase, (h.filter _).mem_iff, ← erase,
    get?_insert, get?_erase, Prod.mk.injEq]
  by_cases hk : key = k
  · simp [hk, eq_comm]
  · simp [hk, Ne.symm hk]

/-- Of several maps the one that is entered last counts. -/
theorem get?_insertAll [∀ a b : κ, Decidable (a < b)] {entries : OrderedMap κ α}
    (h : Sorted entries) (m : OrderedMap κ α) (key : κ) :
    get? (entries.foldl (fun m entry => insert entry.1 entry.2 m) m) key =
      (get? entries key).or (get? m key) := by
  induction entries generalizing m with
  | nil => rfl
  | cons entry rest ih =>
    obtain ⟨k, a⟩ := entry
    obtain ⟨hhead, hrest⟩ := List.pairwise_cons.mp h
    simp only [List.foldl_cons, ih hrest, get?_insert, get?]
    split
    · next hk =>
      subst hk
      have hnone : get? rest k = none := by
        rw [get?_eq_none_iff]
        intro hk
        obtain ⟨entry, hentry, rfl⟩ := List.mem_map.mp hk
        exact Std.Irrefl.irrefl _ (hhead entry hentry)
      rw [hnone, Option.none_or, Option.some_or]
    · rfl

theorem ext_sorted [Trans (α := κ) (· < ·) (· < ·) (· < ·)] {m n : OrderedMap κ α}
    (hm : Sorted m) (hn : Sorted n) (h : ∀ key, get? m key = get? n key) : m = n := by
  have hmem : ∀ entry, entry ∈ m ↔ entry ∈ n := by
    rintro ⟨key, value⟩
    rw [hm.mem_iff, hn.mem_iff, h]
  have hperm : m.Perm n :=
    (List.perm_ext_iff_of_nodup (.of_map _ hm.nodup_keys) (.of_map _ hn.nodup_keys)).mpr hmem
  refine hperm.eq_of_pairwise ?_ hm hn
  intro a b _ _ hab hba
  exact absurd (Trans.trans hab hba : a.1 < a.1) (Std.Irrefl.irrefl a.1)

end Macromark.OrderedMap
