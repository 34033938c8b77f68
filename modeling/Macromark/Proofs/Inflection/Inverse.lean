import Macromark.Proofs.Assembly.Targets
import Macromark.Proofs.Identifier

/-!
# The singular of a plural

Several words may have one plural: *ax*, *axe* and *axis* all have *axes*, which
is read as that of *ax*. `PluralForm` says how a plural is made, and
`singularWord_append_s` how it is read. From these follows for which words the
singular undoes the plural: for all but those that `isEclipsed` names
(`singularWord_plural_iff`). Only the last word of an identifier counts
(`singularize_pluralize_iff`).
-/

namespace Macromark.Inflection

open Assembly (around under)

variable {word ending stem tail v id : String} {a : Option String}

-- ----------------------------------------------------------------------------
-- Endings
-- ----------------------------------------------------------------------------

theorem stem?_eq_some : stem? ending word = some stem ↔ word = stem ++ ending := by
  unfold stem?
  split
  · next hsuffix =>
    obtain ⟨front, hfront⟩ := List.isSuffixOf_iff_suffix.mp hsuffix
    have hword : word = .ofList front ++ ending := by
      rw [← String.toList_inj, String.toList_append, String.toList_ofList, hfront]
    have htake : word.toList.take (word.length - ending.length) = front := by simp [hword]
    rw [htake, Option.some_inj, hword, String.append_left_inj]
  · next hsuffix =>
    simp only [reduceCtorEq, false_iff]
    rintro rfl
    simp at hsuffix

theorem stem?_append (ending word tail : String) :
    stem? (ending ++ tail) (word ++ tail) = stem? ending word := by
  ext stem
  rw [stem?_eq_some, stem?_eq_some, ← String.append_assoc, String.append_left_inj]

theorem endsIn_reverse (ending word : String) :
    endsIn ending word = ending.toList.reverse.isPrefixOf word.toList.reverse := rfl

theorem endsIn_iff : endsIn ending word = true ↔ ∃ stem, word = stem ++ ending := by
  simp only [← stem?_eq_some, ← Option.isSome_iff_exists, endsIn, stem?]
  split <;> simp_all

theorem stem?_eq_none : stem? ending word = none ↔ endsIn ending word = false := by
  rw [← Bool.not_eq_true, endsIn_iff, Option.eq_none_iff_forall_ne_some]
  simp [stem?_eq_some]

/-- Of two endings of one word the shorter one is an ending of the longer one. -/
theorem endsIn_eq_false {other : String} (h : endsIn ending word = true)
    (hother : endsIn ending other = false) (hending : endsIn other ending = false) :
    endsIn other word = false := by
  rw [← Bool.not_eq_true] at hother hending ⊢
  simp only [endsIn, List.isSuffixOf_iff_suffix] at h hother hending ⊢
  intro hword
  exact (List.suffix_or_suffix_of_suffix h hword).elim hother hending

theorem append_ne_append (h : ending ≠ tail) : stem ++ ending ≠ stem ++ tail :=
  fun heq => h (String.append_right_inj stem |>.mp heq)

theorem contains_append (table : List String) (word tail : String) :
    table.contains (word ++ tail) = (table.filterMap (stem? tail)).contains word := by
  rw [Bool.eq_iff_iff]
  simp [stem?_eq_some]

theorem contains_append_eq_false {table : List String} (h : table.filterMap (stem? tail) = [])
    (word : String) : table.contains (word ++ tail) = false := by
  rw [contains_append, h, List.contains_nil]

/-- What tells a word from all that a table holds. -/
theorem contains_eq_false (p : String → Bool) {table : List String} (h : p word = true)
    (htable : ∀ entry ∈ table, p entry = false) : table.contains word = false := by
  rw [← Bool.not_eq_true, List.contains_iff_mem]
  exact fun hmem => Bool.false_ne_true ((htable word hmem).symm.trans h)

-- ----------------------------------------------------------------------------
-- Reading a plural in s
-- ----------------------------------------------------------------------------

/-- Behind another letter than a, o and u, the ending is that of a word in `us`. -/
def isLatin (ending word : String) : Bool :=
  (stem? ending word).any (lastIs fun c => c != 'a' && c != 'o' && c != 'u')

/-- What the rules before the last one take `word ++ "s"` for. -/
def misreading? (word : String) : Option String :=
  ((stem? "e" word).filter oesWords.contains)
    |>.or (((stem? "ie" word).filter nonempty).map (· ++ "y"))
    |>.or (((stem? "use" word).filter (lastIs fun c => c != 'a' && c != 'o' && c != 'u')).map
      (· ++ "us"))
    |>.or (if ["sse", "xe", "ze", "che", "she"].any (endsIn · word) then stem? "e" word else none)
    |>.or (if endsIn "yse" word then (stem? "e" word).map (· ++ "is") else none)
    |>.or (if endsIn "s" word || endsIn "u" word || endsIn "i" word then some (word ++ "s")
      else none)

theorem irregularPlurals_s (word : String) :
    irregularPlurals.find? (·.2 == word ++ "s") = none ∧
      irregularPlurals.any (·.1 == word ++ "s") = false := by
  have hnone : ∀ entry ∈ irregularPlurals, stem? "s" entry.1 = none ∧ stem? "s" entry.2 = none := by
    decide
  have hne : ∀ v, stem? "s" v = none → v ≠ word ++ "s" := fun v hv heq => by
    simp [stem?_eq_some.mpr heq] at hv
  constructor
  · rw [List.find?_eq_none]
    exact fun entry hentry => by simpa using hne _ (hnone entry hentry).2
  · rw [List.any_eq_false]
    exact fun entry hentry => by simpa using hne _ (hnone entry hentry).1

theorem singularWord_append_s (hne : word ≠ "")
    (hcount : uncountables.contains (word ++ "s") = false) :
    singularWord (word ++ "s") =
      if ieWords.contains word then word else (misreading? word).getD word := by
  obtain ⟨hplural, hsingular⟩ := irregularPlurals_s word
  have hs : stem? "s" (word ++ "s") = some word := stem?_eq_some.mpr rfl
  have hes : stem? "es" (word ++ "s") = stem? "e" word := by simpa using stem?_append "e" word "s"
  have hies : stem? "ies" (word ++ "s") = stem? "ie" word := by simpa using stem?_append "ie" word "s"
  have huses : stem? "uses" (word ++ "s") = stem? "use" word := by
    simpa using stem?_append "use" word "s"
  have hhissing : ["sses", "xes", "zes", "ches", "shes"].any (endsIn · (word ++ "s")) =
      ["sse", "xe", "ze", "che", "she"].any (endsIn · word) := by
    simp [endsIn_reverse]
  have hyses : endsIn "yses" (word ++ "s") = endsIn "yse" word := by
    simp [endsIn_reverse]
  have hin : isSingularInS (word ++ "s") =
      (endsIn "s" word || endsIn "u" word || endsIn "i" word) := by
    simp [isSingularInS, endsIn_reverse]
  have hlast : (some word).filter nonempty = some word := by simp [nonempty, hne]
  unfold singularWord
  simp only [hcount, hplural, hsingular, listed?, usWord?, sibilantWord?, ysisWord?, hs, hes, hies,
    huses, hhissing, hyses, hin, hlast, Option.or_some, Option.getD_some, Bool.false_eq_true,
    if_false]
  by_cases hie : word ∈ ieWords
  · simp [Option.filter, hie]
  · simp [Option.filter, hie, misreading?, Option.or_assoc]

theorem misreading?_append_e (word : String) :
    misreading? (word ++ "e") =
      (((some word).filter oesWords.contains)
        |>.or (((stem? "i" word).filter nonempty).map (· ++ "y"))
        |>.or (((stem? "us" word).filter (lastIs fun c => c != 'a' && c != 'o' && c != 'u')).map
          (· ++ "us"))
        |>.or (if ["ss", "x", "z", "ch", "sh"].any (endsIn · word) then some word else none)
        |>.or (if endsIn "ys" word then some (word ++ "is") else none)) := by
  have he : stem? "e" (word ++ "e") = some word := stem?_eq_some.mpr rfl
  have hie : stem? "ie" (word ++ "e") = stem? "i" word := by simpa using stem?_append "i" word "e"
  have huse : stem? "use" (word ++ "e") = stem? "us" word := by
    simpa using stem?_append "us" word "e"
  simp [misreading?, he, hie, huse, endsIn_reverse]

/-- A plural in `es` is never taken for that of a longer word, but for one in `yses`. -/
theorem length_misreading_e (hys : endsIn "ys" word = false)
    (h : v ∈ misreading? (word ++ "e")) : v.length ≤ word.length := by
  rw [Option.mem_def, misreading?_append_e] at h
  simp only [hys, Option.or_eq_some_iff, Option.map_eq_some_iff, Option.filter_eq_some_iff,
    Option.ite_none_right_eq_some, Option.some_inj, Bool.false_eq_true, false_and, and_false,
    or_false] at h
  rcases h with ((⟨rfl, -⟩ | ⟨-, stem, ⟨hstem, -⟩, rfl⟩) | ⟨-, stem, ⟨hstem, -⟩, rfl⟩) | ⟨-, -, rfl⟩
  · exact Nat.le_refl _
  · rw [String.length_append, ← length_of_stem? hstem]
    exact Nat.add_le_add_left (by decide) _
  · exact Nat.le_of_eq (congrArg String.length (stem?_eq_some.mp hstem).symm)
  · exact Nat.le_refl _

theorem append_ne_self (h : ending ≠ "") : word ++ ending ≠ word := by
  simpa using h

theorem stem?_ne_self (h : ending ≠ "") : stem? ending word ≠ some word :=
  fun hstem => append_ne_self h (stem?_eq_some.mp hstem).symm

theorem append_ne_of_stem? {other : String} (hstem : stem? ending word = some stem)
    (h : other ≠ ending) : stem ++ other ≠ word :=
  stem?_eq_some.mp hstem ▸ append_ne_append h

/-- The rules before the last one never give back what they have read. -/
theorem misreading?_ne_self : misreading? word ≠ some word := by
  intro h
  simp only [misreading?, Option.or_eq_some_iff, Option.map_eq_some_iff, Option.filter_eq_some_iff,
    Option.ite_none_right_eq_some, Option.some_inj] at h
  rcases h with ((((⟨hstem, -⟩ | ⟨-, stem, ⟨hstem, -⟩, heq⟩) | ⟨-, stem, ⟨hstem, -⟩, heq⟩) |
    ⟨-, -, hstem⟩) | ⟨-, -, stem, hstem, heq⟩) | ⟨-, -, heq⟩
  · exact stem?_ne_self (by decide) hstem
  · exact append_ne_of_stem? hstem (by decide) heq
  · exact append_ne_of_stem? hstem (by decide) heq
  · exact stem?_ne_self (by decide) hstem
  · exact append_ne_of_stem? hstem (by decide) heq
  · exact append_ne_self (by decide) heq

-- ----------------------------------------------------------------------------
-- Making a plural
-- ----------------------------------------------------------------------------

/-- The ways in which a word that has a plural is put in it. -/
inductive PluralForm : String → String → Prop
  | irregular {entry : String × String} (h : entry ∈ irregularPlurals) :
      PluralForm entry.1 entry.2
  | is (stem : String) : PluralForm (stem ++ "is") (stem ++ "es")
  | oes {word : String} (h : word ∈ oesWords) : PluralForm word (word ++ "es")
  | y {stem : String} (h : lastIs (fun c => !isVowel c) stem = true) :
      PluralForm (stem ++ "y") (stem ++ "ies")
  | hissing {word : String} (hcount : uncountables.contains word = false)
      (hfixed : singularWord word = word) (his : endsIn "is" word = false)
      (h : ["s", "x", "z", "ch", "sh"].any (endsIn · word) = true) :
      PluralForm word (word ++ "es")
  | plain {word : String} (hne : word ≠ "")
      (hy : ∀ stem, word = stem ++ "y" → lastIs (fun c => !isVowel c) stem = false)
      (h : ["s", "x", "z", "ch", "sh"].any (endsIn · word) = false) :
      PluralForm word (word ++ "s")

theorem pluralForm (h : pluralWord word ≠ word) : PluralForm word (pluralWord word) := by
  have hfixed : singularWord word = word := by
    by_contra hsingular
    exact h (pluralWord_eq hsingular)
  unfold pluralWord at h ⊢
  split at h
  · exact absurd rfl h
  · next hcountable =>
    rw [if_neg hcountable]
    split at h
    · next entry hfound =>
      have hentry : entry.1 = word := by simpa using List.find?_some hfound
      exact hentry ▸ .irregular (List.mem_of_find?_eq_some hfound)
    · split at h
      · exact absurd rfl h
      · next hplain =>
        rw [if_neg hplain]
        cases his : stem? "is" word with
        | some stem =>
          obtain rfl := stem?_eq_some.mp his
          simpa using PluralForm.is stem
        | none =>
          by_cases ho : word ∈ oesWords
          · simpa [ho] using PluralForm.oes ho
          · have hne : word ≠ "" := fun hempty => hcountable (by simp [hempty])
            cases hy : (stem? "y" word).filter (lastIs fun c => !isVowel c) with
            | some stem =>
              obtain ⟨hstem, hlast⟩ := Option.filter_eq_some_iff.mp hy
              obtain rfl := stem?_eq_some.mp hstem
              simpa [ho] using PluralForm.y hlast
            | none =>
              have hvowel : ∀ stem, word = stem ++ "y" →
                  lastIs (fun c => !isVowel c) stem = false := fun stem hstem => by
                simpa [stem?_eq_some.mpr hstem, Option.filter] using hy
              cases hhissing : ["s", "x", "z", "ch", "sh"].any (endsIn · word) with
              | true =>
                have hcount : uncountables.contains word = false := by simp_all
                simpa [ho] using
                  PluralForm.hissing hcount hfixed (stem?_eq_none.mp his) hhissing
              | false => simpa [ho] using PluralForm.plain hne hvowel hhissing

-- ----------------------------------------------------------------------------
-- Reading the plural of a word
-- ----------------------------------------------------------------------------

/-- The plural of the word is that of another one, or is taken for it. -/
def isEclipsed (word : String) : Bool :=
  ["s", "new", "sery", "specy"].contains word ||
  (stem? "y" word).any (fun stem => ieWords.contains (stem ++ "ie")) ||
  endsIn "is" word && !endsIn "ysis" word ||
  endsIn "us" word && !isLatin "us" word ||
  (stem? "e" word).any oesWords.contains ||
  (stem? "ie" word).any nonempty && !ieWords.contains word ||
  isLatin "use" word ||
  ["sse", "xe", "ze", "che", "she", "yse", "u", "i"].any (endsIn · word)

/-- No ending of a word in a hissing sound is one of the others. -/
theorem endsIn_of_hissing (h : ["s", "x", "z", "ch", "sh"].any (endsIn · word) = true) :
    ∀ other ∈ ["y", "e", "i", "u", "o", "ie", "use", "sse", "xe", "ze", "che", "she", "yse"],
      endsIn other word = false := by
  have hapart : ∀ ending ∈ ["s", "x", "z", "ch", "sh"],
      ∀ other ∈ ["y", "e", "i", "u", "o", "ie", "use", "sse", "xe", "ze", "che", "she", "yse"],
        endsIn ending other = false ∧ endsIn other ending = false := by decide
  obtain ⟨ending, hending, hword⟩ := List.any_eq_true.mp h
  intro other hother
  obtain ⟨hlong, hshort⟩ := hapart ending hending other hother
  exact endsIn_eq_false hword hlong hshort

theorem isEclipsed_of_hissing (h : ["s", "x", "z", "ch", "sh"].any (endsIn · word) = true) :
    isEclipsed word = (word == "s" || endsIn "is" word && !endsIn "ysis" word ||
      endsIn "us" word && !isLatin "us" word) := by
  have hout := endsIn_of_hissing h
  have hlisted : ["s", "new", "sery", "specy"].contains word = (word == "s") := by
    have hrest : ["new", "sery", "specy"].contains word = false :=
      contains_eq_false (fun word => ["s", "x", "z", "ch", "sh"].any (endsIn · word)) h (by decide)
    rw [List.contains_cons, hrest, Bool.or_false]
  have hnone : ∀ other ∈ ["y", "e", "ie", "use"], stem? other word = none := fun other hother =>
    stem?_eq_none.mpr (hout other (by revert other; decide))
  have hany : ["sse", "xe", "ze", "che", "she", "yse", "u", "i"].any (endsIn · word) = false :=
    List.any_eq_false.mpr fun other hother => by
      rw [hout other (by revert other; decide)]
      exact Bool.false_ne_true
  simp only [isEclipsed, hlisted, isLatin, hnone "y" (by simp), hnone "e" (by simp),
    hnone "ie" (by simp), hnone "use" (by simp), hany]
  simp

theorem singularWord_of_uncountable (h : uncountables.contains word = true) :
    singularWord word = word := by
  rw [singularWord, if_pos h]

theorem isEclipsed_is (stem : String) : isEclipsed (stem ++ "is") = !endsIn "ys" stem := by
  have hs : (stem ++ "is" == "s") = false := by
    rw [beq_eq_false_iff_ne]
    exact fun heq => absurd (endsIn_iff.mpr ⟨stem, heq.symm⟩) (by decide)
  rw [isEclipsed_of_hissing (by simp [endsIn_reverse, List.isPrefixOf]), hs]
  simp [endsIn_reverse, List.isPrefixOf]

/-- Plurals in `es` of words in `is` are read as those of words in `e`, but for those in
`yses`. -/
theorem singularWord_is (stem : String) :
    singularWord (stem ++ "es") = stem ++ "is" ↔ isEclipsed (stem ++ "is") = false := by
  have hplural : stem ++ "es" = stem ++ "e" ++ "s" := by simp [String.append_assoc]
  rw [isEclipsed_is, Bool.not_eq_false']
  cases hys : endsIn "ys" stem with
  | true =>
    have hcount : uncountables.contains (stem ++ "e" ++ "s") = false := by
      rw [← hplural, contains_append]
      exact contains_eq_false (endsIn "ys") hys (by decide)
    have hie : ieWords.contains (stem ++ "e") = false := by
      rw [contains_append]
      exact contains_eq_false (endsIn "ys") hys (by decide)
    have hoes : oesWords.contains stem = false := contains_eq_false (endsIn "ys") hys (by decide)
    have hi : stem? "i" stem = none :=
      stem?_eq_none.mpr (endsIn_eq_false hys (by decide) (by decide))
    have hus : stem? "us" stem = none :=
      stem?_eq_none.mpr (endsIn_eq_false hys (by decide) (by decide))
    have hhissing : ["ss", "x", "z", "ch", "sh"].any (endsIn · stem) = false := by
      have hapart : ∀ other ∈ ["ss", "x", "z", "ch", "sh"],
          endsIn "ys" other = false ∧ endsIn other "ys" = false := by decide
      refine List.any_eq_false.mpr fun other hother => ?_
      rw [endsIn_eq_false hys (hapart other hother).1 (hapart other hother).2]
      exact Bool.false_ne_true
    have hread : misreading? (stem ++ "e") = some (stem ++ "is") := by
      simp only [misreading?_append_e, hi, hus, hhissing, hys, Option.filter_some, hoes]
      simp
    simp only [hplural, singularWord_append_s (by simp) hcount, hie, hread]
    simp
  | false =>
    simp only [Bool.false_eq_true, iff_false]
    cases hcount : uncountables.contains (stem ++ "e" ++ "s") with
    | true =>
      rw [hplural, singularWord_of_uncountable hcount, ← hplural, String.append_right_inj]
      decide
    | false =>
      rw [hplural, singularWord_append_s (by simp) hcount]
      split
      · exact append_ne_append (by decide)
      · cases hread : misreading? (stem ++ "e") with
        | none => exact append_ne_append (by decide)
        | some v =>
          rintro rfl
          have hlength := length_misreading_e hys hread
          rw [String.length_append] at hlength
          exact absurd hlength (Nat.not_le.mpr (Nat.lt_add_of_pos_right (by decide)))

/-- A word that ends in s and is no plural ends in ss, us or is. -/
theorem endsIn_of_fixed (hcount : uncountables.contains word = false)
    (hfixed : singularWord word = word) (hs : endsIn "s" word = true) :
    word = "s" ∨ endsIn "ss" word = true ∨ endsIn "us" word = true ∨ endsIn "is" word = true := by
  obtain ⟨stem, rfl⟩ := endsIn_iff.mp hs
  rcases eq_or_ne stem "" with rfl | hne
  · exact .inl rfl
  right
  have hread : misreading? stem = some (stem ++ "s") := by
    rw [singularWord_append_s hne hcount] at hfixed
    split at hfixed
    · exact absurd hfixed.symm (append_ne_self (by decide))
    · cases hread : misreading? stem with
      | none =>
        rw [hread, Option.getD_none] at hfixed
        exact absurd hfixed.symm (append_ne_self (by decide))
      | some v =>
        rw [hread, Option.getD_some] at hfixed
        rw [hfixed]
  have happend : ∀ {x ending other : String}, stem? ending stem = some x → other ≠ ending ++ "s" →
      x ++ other ≠ stem ++ "s" := by
    intro x ending other hx hne
    rw [stem?_eq_some.mp hx, String.append_assoc]
    exact append_ne_append hne
  have hshorter : stem? "e" stem ≠ some (stem ++ "s") := fun hx => by
    have heq := stem?_eq_some.mp hx
    rw [String.append_assoc] at heq
    exact append_ne_self (by decide) heq.symm
  simp only [misreading?, Option.or_eq_some_iff, Option.map_eq_some_iff, Option.filter_eq_some_iff,
    Option.ite_none_right_eq_some, Bool.or_eq_true] at hread
  rcases hread with ((((⟨hx, -⟩ | ⟨-, x, ⟨hx, -⟩, heq⟩) | ⟨-, x, ⟨hx, -⟩, heq⟩) |
    ⟨-, -, hx⟩) | ⟨-, -, x, hx, heq⟩) | ⟨-, (hs | hu) | hi, -⟩
  · exact absurd hx hshorter
  · exact absurd heq (happend hx (by decide))
  · exact absurd heq (happend hx (by decide))
  · exact absurd hx hshorter
  · exact absurd heq (happend hx (by decide))
  · left
    simpa [endsIn_reverse, List.isPrefixOf] using hs
  · right; left
    simpa [endsIn_reverse, List.isPrefixOf] using hu
  · right; right
    simpa [endsIn_reverse, List.isPrefixOf] using hi

/-- Plurals in `es` are read as such, but for those of words in `us` that might be words
in `use`. -/
theorem singularWord_hissing (hcount : uncountables.contains word = false)
    (hfixed : singularWord word = word) (his : endsIn "is" word = false)
    (h : ["s", "x", "z", "ch", "sh"].any (endsIn · word) = true) :
    singularWord (word ++ "es") = word ↔ isEclipsed word = false := by
  have hout := endsIn_of_hissing h
  have hplural : word ++ "es" = word ++ "e" ++ "s" := by simp [String.append_assoc]
  have hlisted : ∀ table : List String,
      (∀ entry ∈ table, ["s", "x", "z", "ch", "sh"].any (endsIn · entry) = false) →
        table.contains word = false := fun _ htable =>
    contains_eq_false (fun word => ["s", "x", "z", "ch", "sh"].any (endsIn · word)) h htable
  have hcountes : uncountables.contains (word ++ "e" ++ "s") = false := by
    rw [← hplural, contains_append]
    exact hlisted _ (by decide)
  have hie : ieWords.contains (word ++ "e") = false := by
    rw [contains_append]
    exact hlisted _ (by decide)
  have hoes : oesWords.contains word = false := hlisted _ (by decide)
  have hi : stem? "i" word = none := stem?_eq_none.mpr (hout "i" (by simp))
  have hus : ((stem? "us" word).filter (lastIs fun c => c != 'a' && c != 'o' && c != 'u')).map
      (· ++ "us") = if isLatin "us" word then some word else none := by
    cases hstem : stem? "us" word with
    | none => simp [isLatin, hstem]
    | some stem =>
      obtain rfl := stem?_eq_some.mp hstem
      simp [isLatin, hstem, Option.filter_some]
  rw [isEclipsed_of_hissing h, his, hplural, singularWord_append_s (by simp) hcountes, hie,
    misreading?_append_e, hi, hus]
  simp only [Option.filter_some, hoes, Bool.false_and, Bool.or_false, Bool.false_eq_true, if_false,
    Option.map_none, Option.filter_none, Option.none_or]
  cases hlatin : isLatin "us" word with
  | true =>
    have hne : word ≠ "s" := fun heq => absurd (heq ▸ hlatin) (by decide)
    simp [hne]
  | false =>
    simp only [Bool.false_eq_true, if_false, Option.none_or, Bool.not_false, Bool.and_true]
    by_cases hmore : ["ss", "x", "z", "ch", "sh"].any (endsIn · word) = true
    · have hne : word ≠ "s" := fun heq => absurd (heq ▸ hmore) (by decide)
      have hapart : ∀ ending ∈ ["ss", "x", "z", "ch", "sh"],
          endsIn ending "us" = false ∧ endsIn "us" ending = false := by decide
      obtain ⟨ending, hending, hword⟩ := List.any_eq_true.mp hmore
      have hnot := endsIn_eq_false hword (hapart ending hending).1 (hapart ending hending).2
      rw [if_pos hmore]
      simp [hne, hnot]
    · have hs : endsIn "s" word = true ∧ endsIn "ss" word = false := by
        simp only [List.any_cons, List.any_nil, Bool.or_eq_true, not_or, Bool.not_eq_true,
          Bool.false_eq_true, or_false] at h hmore
        simp_all
      have hsus : word = "s" ∨ endsIn "us" word = true := by
        rcases endsIn_of_fixed hcount hfixed hs.1 with heq | hss | hus | his'
        · exact .inl heq
        · exact absurd (hss.symm.trans hs.2) (by decide)
        · exact .inr hus
        · exact absurd (his'.symm.trans his) (by decide)
      have hys : endsIn "ys" word = false := by
        rcases hsus with rfl | hus
        · decide
        · exact endsIn_eq_false hus (by decide) (by decide)
      rw [if_neg hmore, hys]
      rcases hsus with rfl | hus
      · decide
      · simp [hus]

theorem isEclipsed_y (stem : String) :
    isEclipsed (stem ++ "y") =
      (["ser", "spec"].contains stem || ieWords.contains (stem ++ "ie")) := by
  have hy : endsIn "y" (stem ++ "y") = true := endsIn_iff.mpr ⟨stem, rfl⟩
  have hout : ∀ other ∈ ["e", "ie", "is", "us", "use", "i", "u", "sse", "xe", "ze", "che", "she",
      "yse"], endsIn other (stem ++ "y") = false := by
    have hapart : ∀ other ∈ ["e", "ie", "is", "us", "use", "i", "u", "sse", "xe", "ze", "che",
        "she", "yse"], endsIn "y" other = false ∧ endsIn other "y" = false := by decide
    exact fun other hother => endsIn_eq_false hy (hapart other hother).1 (hapart other hother).2
  have hnone : ∀ other ∈ ["e", "ie", "use"], stem? other (stem ++ "y") = none :=
    fun other hother => stem?_eq_none.mpr (hout other (by revert other; decide))
  have hany : ["sse", "xe", "ze", "che", "she", "yse", "u", "i"].any (endsIn · (stem ++ "y")) =
      false := List.any_eq_false.mpr fun other hother => by
    rw [hout other (by revert other; decide)]
    exact Bool.false_ne_true
  have hlisted : ["s", "new", "sery", "specy"].contains (stem ++ "y") =
      ["ser", "spec"].contains stem := by
    rw [contains_append]
    rfl
  simp only [isEclipsed, hlisted, stem?_eq_some.mpr (rfl : stem ++ "y" = stem ++ "y"), isLatin,
    hnone "e" (by simp), hnone "ie" (by simp), hnone "use" (by simp), hany,
    hout "is" (by simp), hout "us" (by simp)]
  simp

/-- Plurals in `ies` are read as those of words in `y`, but for those in the tables. -/
theorem singularWord_y (h : lastIs (fun c => !isVowel c) stem = true) :
    singularWord (stem ++ "ies") = stem ++ "y" ↔ isEclipsed (stem ++ "y") = false := by
  have hplural : stem ++ "ies" = stem ++ "ie" ++ "s" := by simp [String.append_assoc]
  have hcount : uncountables.contains (stem ++ "ie" ++ "s") = ["ser", "spec"].contains stem := by
    rw [← hplural, contains_append]
    rfl
  have hne : nonempty stem = true := by
    rw [nonempty, bne_iff_ne]
    rintro rfl
    cases h
  rw [isEclipsed_y, ← hcount]
  cases hcounted : uncountables.contains (stem ++ "ie" ++ "s") with
  | true =>
    rw [hplural, singularWord_of_uncountable hcounted, ← hplural, String.append_right_inj]
    simp
  | false =>
    rw [hplural, singularWord_append_s (by simp) hcounted]
    cases ieWords.contains (stem ++ "ie") with
    | true =>
      simp
    | false =>
      have hoes : oesWords.contains (stem ++ "i") = false := contains_append_eq_false (by decide) stem
      have hi : stem? "i" (stem ++ "i") = some stem := stem?_eq_some.mpr rfl
      have hie : stem ++ "ie" = stem ++ "i" ++ "e" := by simp [String.append_assoc]
      rw [hie, misreading?_append_e, hi]
      simp only [Option.filter_some, hoes, hne]
      simp

theorem isSome_ite {c : Prop} [Decidable c] (h : c → a.isSome = true) :
    (if c then a else none).isSome = decide c := by
  by_cases hc : c <;> simp [hc, h]

/-- An earlier rule than the last one applies to words with these endings. -/
theorem isSome_misreading? (word : String) :
    (misreading? word).isSome = ((stem? "e" word).any oesWords.contains ||
      (stem? "ie" word).any nonempty || isLatin "use" word ||
      ["sse", "xe", "ze", "che", "she", "yse", "s", "u", "i"].any (endsIn · word)) := by
  have he : ∀ endings : List String, (∀ ending ∈ endings, endsIn "e" ending = true) →
      endings.any (endsIn · word) = true → (stem? "e" word).isSome = true := by
    intro endings hendings hany
    obtain ⟨ending, hending, hword⟩ := List.any_eq_true.mp hany
    obtain ⟨front, rfl⟩ := endsIn_iff.mp hword
    obtain ⟨stem, rfl⟩ := endsIn_iff.mp (hendings ending hending)
    rw [← String.append_assoc, stem?_eq_some.mpr rfl, Option.isSome_some]
  have hyse : endsIn "yse" word = true → (stem? "e" word).isSome = true :=
    fun h => he ["yse"] (by decide) (by simpa using h)
  simp only [misreading?, Option.isSome_or, Option.isSome_map, Option.isSome_filter, isLatin,
    isSome_ite (he ["sse", "xe", "ze", "che", "she"] (by decide)),
    isSome_ite (a := (stem? "e" word).map (· ++ "is")) (by simpa using hyse),
    isSome_ite (a := some (word ++ "s")) (fun _ => rfl), Bool.decide_eq_true]
  simp only [List.any_cons, List.any_nil, Bool.or_assoc, Bool.or_false]

/-- Plurals in `s` alone are read as such unless an earlier rule applies. -/
theorem singularWord_plain (hne : word ≠ "")
    (hy : ∀ stem, word = stem ++ "y" → lastIs (fun c => !isVowel c) stem = false)
    (h : ["s", "x", "z", "ch", "sh"].any (endsIn · word) = false) :
    singularWord (word ++ "s") = word ↔ isEclipsed word = false := by
  have hcount : uncountables.contains (word ++ "s") = ["new", "serie", "specie"].contains word := by
    rw [contains_append]
    rfl
  cases hcounted : uncountables.contains (word ++ "s") with
  | true =>
    have hlost : ∀ word ∈ ["new", "serie", "specie"],
        ¬(singularWord (word ++ "s") = word) ∧ isEclipsed word = true := by decide
    obtain ⟨hread, heclipsed⟩ := hlost word <| by
      rwa [hcounted, eq_comm, List.contains_iff_mem] at hcount
    simp [hread, heclipsed]
  | false =>
    cases hie : ieWords.contains word with
    | true =>
      have hkept : ∀ word ∈ ieWords, isEclipsed word = false := by decide
      rw [singularWord_append_s hne hcounted, if_pos hie]
      simp [hkept word (List.contains_iff_mem.mp hie)]
    | false =>
      have hs : endsIn "s" word = false := by simp_all
      have his : endsIn "is" word = false := by
        rw [← Bool.not_eq_true, endsIn_iff]
        rintro ⟨stem, rfl⟩
        simp [endsIn_reverse, List.isPrefixOf] at hs
      have hus : endsIn "us" word = false := by
        rw [← Bool.not_eq_true, endsIn_iff]
        rintro ⟨stem, rfl⟩
        simp [endsIn_reverse, List.isPrefixOf] at hs
      have htwin : (stem? "y" word).any (fun stem => ieWords.contains (stem ++ "ie")) = false := by
        cases hstem : stem? "y" word with
        | none => rfl
        | some stem =>
          have hvowel := hy stem (stem?_eq_some.mp hstem)
          have hconsonants : ∀ stem ∈ ieWords.filterMap (stem? "ie"),
              lastIs (fun c => !isVowel c) stem = true := by decide
          rw [Option.any_some, contains_append, ← Bool.not_eq_true, List.contains_iff_mem]
          exact fun hmem => Bool.false_ne_true (hvowel.symm.trans (hconsonants stem hmem))
      have hlisted : ["s", "new", "sery", "specy"].contains word = false := by
        rw [hcounted] at hcount
        have hfree : ∀ stem, lastIs (fun c => !isVowel c) stem = true → word ≠ stem ++ "y" :=
          fun stem hlast heq => Bool.false_ne_true ((hy stem heq).symm.trans hlast)
        have hnotS : word ≠ "s" := fun heq => absurd (heq ▸ hs) (by decide)
        have hnew : word ≠ "new" := fun heq => absurd (heq ▸ hcount) (by decide)
        have hsery : word ≠ "sery" := hfree "ser" (by decide)
        have hspecy : word ≠ "specy" := hfree "spec" (by decide)
        simp [hnotS, hnew, hsery, hspecy]
      have heclipsed : isEclipsed word = (misreading? word).isSome := by
        rw [isSome_misreading?, isEclipsed, hlisted, htwin, his, hus, hie]
        simp only [List.any_cons, hs, Bool.false_or, Bool.false_and, Bool.not_false, Bool.and_true]
      rw [heclipsed, singularWord_append_s hne hcounted, hie]
      cases hread : misreading? word with
      | none => simp
      | some v =>
        have hother : v ≠ word := fun heq => misreading?_ne_self (heq ▸ hread)
        simp [hother]

theorem PluralForm.singular_iff (h : PluralForm word v) :
    singularWord v = word ↔ isEclipsed word = false := by
  cases h with
  | irregular hentry =>
    have htable : ∀ entry ∈ irregularPlurals,
        singularWord entry.2 = entry.1 ∧ isEclipsed entry.1 = false := by decide
    exact iff_of_true (htable _ hentry).1 (htable _ hentry).2
  | oes hword =>
    have htable : ∀ word ∈ oesWords,
        singularWord (word ++ "es") = word ∧ isEclipsed word = false := by decide
    exact iff_of_true (htable _ hword).1 (htable _ hword).2
  | is stem => exact singularWord_is stem
  | y hlast => exact singularWord_y hlast
  | hissing hcount hfixed his hword => exact singularWord_hissing hcount hfixed his hword
  | plain hne hy hword => exact singularWord_plain hne hy hword

-- ----------------------------------------------------------------------------
-- The last word
-- ----------------------------------------------------------------------------

def lastWord (id : String) : String := .ofList (id.toList.reverse.takeWhile (· != '-')).reverse

def IsFront (front : String) : Prop := front = "" ∨ endsIn "-" front = true

theorem lastWord_append {front : String} (hfront : IsFront front) (hword : '-' ∉ word.toList) :
    lastWord (front ++ word) = word := by
  have hletters : ∀ c ∈ word.toList.reverse, (c != '-') = true := by
    intro c hc
    rw [bne_iff_ne]
    rintro rfl
    exact hword (List.mem_reverse.mp hc)
  have hnone : front.toList.reverse.takeWhile (· != '-') = [] := by
    rcases hfront with rfl | hfront
    · rfl
    · obtain ⟨stem, rfl⟩ := endsIn_iff.mp hfront
      simp
  rw [lastWord, String.toList_append, List.reverse_append,
    List.takeWhile_append_of_pos hletters, hnone, List.append_nil, List.reverse_reverse,
    String.ofList_toList]

theorem onLastWord_append {front : String} (hfront : IsFront front) (hword : '-' ∉ word.toList)
    (inflect : String → String) : onLastWord inflect (front ++ word) = front ++ inflect word := by
  have hlast := lastWord_append hfront hword
  rw [lastWord, ← String.toList_inj, String.toList_ofList] at hlast
  have hlength : (front ++ word).length - word.toList.length = front.toList.length := by
    simp [String.length_toList]
  simp only [onLastWord, hlast, hlength]
  rw [String.toList_append, List.take_left, String.ofList_toList, String.ofList_toList]

theorem exists_front (id : String) :
    ∃ front, IsFront front ∧ '-' ∉ (lastWord id).toList ∧ front ++ lastWord id = id := by
  refine ⟨.ofList (id.toList.reverse.dropWhile (· != '-')).reverse, ?_, ?_, ?_⟩
  · cases hrest : id.toList.reverse.dropWhile (· != '-') with
    | nil => exact .inl rfl
    | cons c rest =>
      obtain rfl : c = '-' := by
        have hhead := List.head?_dropWhile_not (· != '-') id.toList.reverse
        simpa [hrest] using hhead
      exact .inr (endsIn_iff.mpr ⟨.ofList rest.reverse, by simp⟩)
  · rw [lastWord, String.toList_ofList, List.mem_reverse]
    intro hmem
    simpa using List.mem_takeWhile_imp hmem
  · rw [← String.toList_inj]
    simp [lastWord, ← List.reverse_append]

theorem PluralForm.letters (h : PluralForm word v) (hword : '-' ∉ word.toList) :
    '-' ∉ v.toList := by
  cases h with
  | irregular hentry =>
    have htable : ∀ entry ∈ irregularPlurals, '-' ∉ entry.2.toList := by decide
    exact htable _ hentry
  | _ => simp_all

/-- The singular undoes the plural unless the last word is eclipsed. -/
theorem singularize_pluralize (hplural : pluralize id ≠ id) :
    singularize (pluralize id) = id ↔ isEclipsed (lastWord id) = false := by
  obtain ⟨front, hfront, hletters, hid⟩ := exists_front id
  have hpluralize : pluralize id = front ++ pluralWord (lastWord id) := by
    conv_lhs => rw [← hid]
    exact onLastWord_append hfront hletters _
  have hform : PluralForm (lastWord id) (pluralWord (lastWord id)) :=
    pluralForm fun heq => hplural (by rw [hpluralize, heq, hid])
  rw [hpluralize, singularize, onLastWord_append hfront (hform.letters hletters),
    ← hform.singular_iff]
  nth_rewrite 2 [← hid]
  exact String.append_right_inj front

theorem mem_variants_pluralize (hplural : pluralize id ≠ id) (h : singularize (pluralize id) = id) :
    id ∈ variants (pluralize id) := by
  have hne : id ≠ "" := fun hempty => hplural (by rw [hempty]; decide)
  simp [variants, h, hplural.symm, hne]

/-- The singular undoes the plural of all words that are not eclipsed, and of no other. A
link that may be in another number then means the singular wherever it means the plural
that it is written in. -/
theorem singularize_pluralize_iff (hplural : pluralize id ≠ id) :
    (singularize (pluralize id) = id ↔ isEclipsed (lastWord id) = false) ∧
      (isEclipsed (lastWord id) = false →
        ∀ registry : Registry, registry.check = .ok () → registry.Linkable →
          ∀ document source x,
            let a := analyze registry document source
            let written := (parse registry (tokenize source).tokens).tree
            a.tree.IsLink x → written.isMagic registry x = true →
            Identifier.ofTitle (written.argumentText registry x "href") = pluralize id →
            ∃ position, a.tree.href? x = some position ∧
              ∀ scope ∈ around (a.scopes registry written x).reverse,
                ∃ r ∈ a.contribution.references,
                  r.groupKey = ⟨document, position, .crossReference⟩ ∧ r.target = under scope id) := by
  have hiff := singularize_pluralize hplural
  refine ⟨hiff, fun hclear registry hcheck hlinkable document source x => ?_⟩
  intro a written hlink hmagic hhref
  obtain ⟨position, hposition, -, htargets⟩ :=
    analyze_targets hcheck hlinkable document source x hlink
  have hne : id ≠ "" := fun hempty => hplural (by rw [hempty]; decide)
  have hword : id ∈ written.linkWords registry x := by
    rw [Tree.linkWords, if_pos hmagic, hhref]
    exact List.mem_cons_of_mem _ (mem_variants_pluralize hplural (hiff.mpr hclear))
  have hcandidate : ∀ scope, under scope id ∈ written.candidatesIn registry x scope := fun scope =>
    List.mem_map.mpr ⟨id, List.mem_filter.mpr ⟨hword, by simp [hne]⟩, rfl⟩
  refine ⟨position, hposition, fun scope hscope => ?_⟩
  obtain ⟨r, hr, hkey, htarget⟩ := (htargets _).mpr ⟨scope, hscope, hcandidate scope⟩
  exact ⟨r, hr, hkey, htarget⟩

theorem singularize_pluralize_iff_geese :
    let source := "\\h[1][Goose]\n\n\\x[geese]{magic=1}"
    let a := analyze .builtin "zoo" source
    pluralize "goose" ≠ "goose" ∧ singularize (pluralize "goose") = "goose" ∧
      ∃ position, a.tree.href? 11 = some position ∧
        ∃ r ∈ a.contribution.references,
          r.groupKey = ⟨"zoo", position, .crossReference⟩ ∧ r.target = "goose" := by
  intro source a
  let written := (parse .builtin (tokenize source).tokens).tree
  obtain ⟨hplural, hclear, hparagraph, hbelow, hname, hmagic, hhref, hscope⟩ :
      pluralize "goose" ≠ "goose" ∧ isEclipsed (lastWord "goose") = false ∧
        15 ∈ a.tree.below a.tree.root ∧ 11 ∈ a.tree.below 15 ∧
        a.tree.name? 11 = some MacroName.crossReference ∧ written.isMagic .builtin 11 = true ∧
        Identifier.ofTitle (written.argumentText .builtin 11 "href") = pluralize "goose" ∧
        none ∈ around (a.scopes .builtin written 11).reverse := by
    decide +kernel
  obtain ⟨hiff, hlinks⟩ := singularize_pluralize_iff hplural
  obtain ⟨position, hposition, hrows⟩ := hlinks hclear .builtin (by decide)
    Registry.linkable_builtin "zoo" source 11 ⟨.tail (.tail .refl hparagraph) hbelow, hname⟩ hmagic
    hhref
  exact ⟨hplural, hiff.mpr hclear, position, hposition, hrows _ hscope⟩

/-- No rule could undo this plural for all three. -/
theorem axes_eclipse_axe :
    "axe".toList ∈ Identifier.hyphenated ∧ singularize "axe" = "axe" ∧
      pluralize "axe" = "axes" ∧ pluralize "ax" = "axes" ∧ pluralize "axis" = "axes" ∧
      singularize "axes" = "ax" := by
  have hword : Identifier.IsWord ['a', 'x', 'e'] := by
    simp [Identifier.IsWord, Identifier.isWordChar]
  have hnormal :=
    Identifier.mem_hyphenated (List.cons_ne_nil _ []) (List.forall_mem_singleton.mpr hword)
  exact ⟨hnormal, by decide⟩

end Macromark.Inflection
