import Macromark.Identifier.Inflection
import Mathlib.Data.List.Infix

/-!
# How far singular and plural are apart

No rule changes the length of a word by more than three characters, as in *child*
and *children* (`near_singularWord`, `near_pluralWord`). A word that is a plural
has no further plural, so that an identifier has one other form at most
(`variants_eq`), and all its forms are near to each other
(`near_of_mem`).
-/

namespace Macromark.Inflection

variable {word ending stem v w id : String} {a b : Option String} {p : String → Bool}

/-- The lengths differ by three characters at most. -/
def Near (v w : String) : Prop := v.length ≤ w.length + 3 ∧ w.length ≤ v.length + 3

theorem Near.refl (w : String) : Near w w := ⟨Nat.le_add_right .., Nat.le_add_right ..⟩

theorem Near.symm (h : Near v w) : Near w v := ⟨h.2, h.1⟩

/-- Every form that a rule may give for `word` is near to it. -/
def AllNear (word : String) (form? : Option String) : Prop := ∀ form ∈ form?, Near word form

theorem AllNear.or (ha : AllNear word a) (hb : AllNear word b) : AllNear word (a.or b) := by
  cases a with
  | none => simpa using hb
  | some form => simpa using ha

theorem AllNear.filter (h : AllNear word a) : AllNear word (a.filter p) :=
  fun form hform => h form (Option.mem_filter_iff.mp hform).1

theorem AllNear.map_filter {f : String → String} (h : AllNear word (a.map f)) :
    AllNear word ((a.filter p).map f) := by
  intro form hform
  obtain ⟨stem, hstem, rfl⟩ := Option.map_eq_some_iff.mp hform
  exact h _ (Option.mem_map_of_mem f (Option.mem_filter_iff.mp hstem).1)

theorem AllNear.getD (h : AllNear word a) (hw : Near word w) : Near word (a.getD w) := by
  cases a with
  | none => exact hw
  | some form => exact h form rfl

theorem AllNear.ite {c : Prop} [Decidable c] (ha : AllNear word a) (hb : AllNear word b) :
    AllNear word (if c then a else b) := by
  split
  · exact ha
  · exact hb

theorem allNear_none (word : String) : AllNear word none := by simp [AllNear]

theorem allNear_some : AllNear word (some w) ↔ Near word w := by simp [AllNear]

theorem length_of_stem? (h : stem? ending word = some stem) :
    stem.length + ending.length = word.length := by
  unfold stem? at h
  split at h
  · next hsuffix =>
    obtain rfl := Option.some.inj h
    have hle := (List.isSuffixOf_iff_suffix.mp hsuffix).length_le
    rw [String.length_toList, String.length_toList] at hle
    rw [String.length_ofList, List.length_take, String.length_toList, Nat.min_eq_left (Nat.sub_le ..),
      Nat.sub_add_cancel hle]
  · cases h

/-- A rule that takes an ending away. -/
theorem allNear_stem? (word : String) {ending : String} (h : ending.length ≤ 3) :
    AllNear word (stem? ending word) := by
  intro stem hstem
  have hlength := length_of_stem? hstem
  simp only [Near]
  omega

/-- A rule that puts another ending in its place. -/
theorem allNear_map_stem? (word : String) {ending other : String} (h : Near ending other) :
    AllNear word ((stem? ending word).map (· ++ other)) := by
  intro form hform
  obtain ⟨stem, hstem, rfl⟩ := Option.map_eq_some_iff.mp hform
  have hlength := length_of_stem? hstem
  obtain ⟨hle, hge⟩ := h
  simp only [Near, String.length_append]
  omega

theorem near_append (word : String) (h : ending.length ≤ 3) : Near word (word ++ ending) := by
  simp only [Near, String.length_append]
  omega

theorem near_irregular : ∀ entry ∈ irregularPlurals, Near entry.1 entry.2 := by
  unfold Near
  decide

theorem near_singularWord (word : String) : Near word (singularWord word) := by
  unfold singularWord
  split
  · exact .refl word
  · split
    · next entry hfound =>
      have hplural : entry.2 = word := by simpa using List.find?_some hfound
      exact hplural ▸ (near_irregular entry (List.mem_of_find?_eq_some hfound)).symm
    · split
      · exact .refl word
      · refine AllNear.getD ?_ (.refl word)
        refine .or (.or (.or (.or (.or (.or (.or ?_ ?_) ?_) ?_) ?_) ?_) ?_) ?_
        · exact (allNear_stem? word (by decide)).filter
        · exact (allNear_stem? word (by decide)).filter
        · exact (allNear_map_stem? word (by unfold Near; decide)).map_filter
        · exact (allNear_map_stem? word (by unfold Near; decide)).map_filter
        · exact .ite (allNear_stem? word (by decide)) (allNear_none word)
        · exact .ite (allNear_map_stem? word (by unfold Near; decide)) (allNear_none word)
        · exact .ite (allNear_some.mpr (.refl word)) (allNear_none word)
        · exact (allNear_stem? word (by decide)).filter

theorem near_pluralWord (word : String) : Near word (pluralWord word) := by
  unfold pluralWord
  split
  · exact .refl word
  · split
    · next entry hfound =>
      have hsingular : entry.1 = word := by simpa using List.find?_some hfound
      exact hsingular ▸ near_irregular entry (List.mem_of_find?_eq_some hfound)
    · split
      · exact .refl word
      · have hes : AllNear word (some (word ++ "es")) := allNear_some.mpr (near_append word (by decide))
        refine AllNear.getD (.or (.or (.or ?_ ?_) ?_) ?_) ?_
        · exact allNear_map_stem? word (by unfold Near; decide)
        · exact .ite hes (allNear_none word)
        · exact (allNear_map_stem? word (by unfold Near; decide)).map_filter
        · exact .ite hes (allNear_none word)
        · exact near_append word (by decide)

/-- A plural has no further plural. -/
theorem pluralWord_eq (h : singularWord word ≠ word) : pluralWord word = word := by
  unfold pluralWord
  split
  · rfl
  · next hplain =>
    split
    · next entry hfound =>
      have hfixed : ∀ entry ∈ irregularPlurals, singularWord entry.1 = entry.1 := by decide
      have hsingular : entry.1 = word := by simpa using List.find?_some hfound
      exact absurd (hsingular ▸ hfixed entry (List.mem_of_find?_eq_some hfound)) h
    · simp [h]

-- ----------------------------------------------------------------------------
-- Identifiers
-- ----------------------------------------------------------------------------

/-- The words of an identifier are those before the last one, and that. -/
theorem exists_lastWord (id : String) :
    ∃ front last, front ++ last = id ∧ ∀ inflect, onLastWord inflect id = front ++ inflect last := by
  refine ⟨_, _, ?_, fun inflect => rfl⟩
  have hsuffix : (id.toList.reverse.takeWhile (· != '-')).reverse <:+ id.toList :=
    List.reverse_prefix.mp (by simpa using List.takeWhile_prefix _)
  generalize (id.toList.reverse.takeWhile (· != '-')).reverse = last at hsuffix ⊢
  obtain ⟨front, hfront⟩ := hsuffix
  have hlength := congrArg List.length hfront
  rw [List.length_append, String.length_toList] at hlength
  rw [← hlength, Nat.add_sub_cancel, ← hfront, List.take_left, ← String.ofList_append, hfront,
    String.ofList_toList]

theorem near_onLastWord {inflect : String → String} (h : ∀ word, Near word (inflect word))
    (id : String) : Near id (onLastWord inflect id) := by
  obtain ⟨front, last, rfl, honLast⟩ := exists_lastWord id
  have hlast := h last
  simp only [Near, honLast, String.length_append] at hlast ⊢
  omega

theorem pluralize_eq (h : singularize id ≠ id) : pluralize id = id := by
  obtain ⟨front, last, rfl, honLast⟩ := exists_lastWord id
  rw [singularize, honLast] at h
  rw [pluralize, honLast, pluralWord_eq fun heq => h (by rw [heq])]

/-- An identifier has one other form at most. -/
theorem variants_eq (id : String) :
    variants id = [] ∨ ∃ form, variants id = [form] ∧ Near id form ∧ form ≠ "" := by
  by_cases hsingular : singularize id = id
  · by_cases hplural : pluralize id = id ∨ pluralize id = ""
    · left
      rcases hplural with hplural | hplural <;> simp [variants, hsingular, hplural]
    · obtain ⟨hother, hne⟩ := not_or.mp hplural
      refine .inr ⟨pluralize id, ?_, near_onLastWord near_pluralWord id, hne⟩
      simp [variants, hsingular, hother, hne]
  · have hplural := pluralize_eq hsingular
    by_cases hempty : singularize id = ""
    · left
      simp [variants, hplural, hempty]
    · refine .inr ⟨singularize id, ?_, near_onLastWord near_singularWord id, hempty⟩
      simp [variants, hplural, hsingular, hempty]

theorem variants_ne_empty (id : String) : "" ∉ variants id := by
  rcases variants_eq id with hnone | ⟨form, hform, -, hne⟩
  · simp [hnone]
  · simpa [hform] using hne.symm

/-- All forms of an identifier are near to each other. -/
theorem near_of_mem (hv : v ∈ id :: variants id) (hw : w ∈ id :: variants id) : Near v w := by
  rcases variants_eq id with hnone | ⟨form, hform, hnear, -⟩
  · rw [hnone, List.mem_singleton] at hv hw
    exact hv ▸ hw ▸ .refl id
  · rw [hform, List.mem_cons, List.mem_singleton] at hv hw
    rcases hv with rfl | rfl <;> rcases hw with rfl | rfl
    · exact .refl _
    · exact hnear
    · exact hnear.symm
    · exact .refl _

end Macromark.Inflection
