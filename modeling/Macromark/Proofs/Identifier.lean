import Macromark.Identifier
import Macromark.Proofs.Token.Seam
import Mathlib.Computability.Language
import Mathlib.Data.List.TakeWhile

/-!
# The form of identifiers

An identifier is made of the words of its title, and what is no word character
parts the words around it (`words_append_break`). So an identifier has the words
that it was made of (`words_intercalate`), and what it is made of is written as
itself (`Letters.Sound.simplify_of_isPlain`): taken for a title, it gives itself again, and a
title that goes on behind a space goes on with words of its own
(`ofTitle_normal`).
-/

namespace Macromark.Identifier

open Computability

variable {c : Char} {word title : List Char} {parts : List (List Char)}

-- ----------------------------------------------------------------------------
-- Words
-- ----------------------------------------------------------------------------

def IsWord (word : List Char) : Prop := word ≠ [] ∧ ∀ c ∈ word, isWordChar c = true

/-- Words are parted by every other character. -/
theorem words_append_break (hc : isWordChar c = false) (front back : List Char) :
    words (front ++ c :: back) = words front ++ words back := by
  fun_induction words front with
  | case1 => simp [words, hc]
  | case2 d rest hd ih =>
    obtain ⟨htake, hdrop⟩ := takeWhile_before rest (c :: back) fun _ d hd => by
      obtain rfl : c = d := by simpa using hd
      exact hc
    rw [List.cons_append, words, if_pos hd, htake, hdrop, ih]
    rfl
  | case3 d rest hd ih => rw [List.cons_append, words, if_neg hd, ih]

theorem words_of_isWord (h : IsWord word) : words word = [word] := by
  obtain ⟨hne, hall⟩ := h
  cases word with
  | nil => exact absurd rfl hne
  | cons c rest =>
    have hrest : ∀ d ∈ rest, isWordChar d = true := fun d hd => hall d (List.mem_cons_of_mem _ hd)
    rw [words, if_pos (hall c List.mem_cons_self), List.takeWhile_eq_self_iff.mpr hrest,
      List.dropWhile_eq_nil_iff.mpr hrest, words]

theorem isWord_of_mem_words (h : word ∈ words title) : IsWord word := by
  fun_induction words title with
  | case1 => cases h
  | case2 c rest hc ih =>
    cases h with
    | head =>
      refine ⟨List.cons_ne_nil _ _, fun d hd => ?_⟩
      cases hd with
      | head => exact hc
      | tail _ hd => exact List.mem_takeWhile_imp hd
    | tail _ h => exact ih h
  | case3 c rest _ ih => exact ih h

/-- Every word but the first has a hyphen in front. -/
theorem intercalate_cons (word : List Char) (parts : List (List Char)) :
    ['-'].intercalate (word :: parts) = word ++ parts.flatMap ('-' :: ·) := by
  induction parts generalizing word with
  | nil => simp
  | cons next parts ih =>
    rw [List.intercalate_cons_cons, ih, List.append_assoc]
    rfl

theorem intercalate_append {parts others : List (List Char)} (hparts : parts ≠ [])
    (hothers : others ≠ []) : ['-'].intercalate (parts ++ others) =
      ['-'].intercalate parts ++ '-' :: ['-'].intercalate others := by
  obtain ⟨word, parts, rfl⟩ := List.exists_cons_of_ne_nil hparts
  obtain ⟨other, others, rfl⟩ := List.exists_cons_of_ne_nil hothers
  simp [intercalate_cons]

/-- An identifier has the words that it was made of. -/
theorem words_intercalate (h : ∀ word ∈ parts, IsWord word) :
    words (['-'].intercalate parts) = parts := by
  induction parts with
  | nil => simp [words]
  | cons word parts ih =>
    have hword := words_of_isWord (h word List.mem_cons_self)
    cases parts with
    | nil => simpa using hword
    | cons next parts =>
      have hrest := ih fun word hmem => h word (List.mem_cons_of_mem _ hmem)
      rw [List.intercalate_cons_cons, List.append_assoc, List.singleton_append,
        words_append_break (by decide), hword, hrest, List.singleton_append]

-- ----------------------------------------------------------------------------
-- Characters that stay as they are
-- ----------------------------------------------------------------------------

def isPlain (c : Char) : Bool := isWordChar c || c == '-' || c == ' '

theorem range_of_isWordChar (hc : isWordChar c = true) :
    ('a' ≤ c ∧ c ≤ 'z') ∨ ('0' ≤ c ∧ c ≤ '9') := by
  have hbetween : ∀ {first last : Char}, (c.val ≥ first.val && c.val ≤ last.val) = true →
      first ≤ c ∧ c ≤ last := by
    intro first last hrange
    obtain ⟨hfirst, hlast⟩ := Bool.and_eq_true_iff.mp hrange
    exact ⟨of_decide_eq_true hfirst, of_decide_eq_true hlast⟩
  exact (Bool.or_eq_true_iff.mp hc).imp hbetween hbetween

theorem ascii_of_isPlain (hc : isPlain c = true) : c.toNat < 0x80 ∧ c.toLower = c := by
  have hrange : (97 ≤ c.toNat ∧ c.toNat ≤ 122) ∨ c.toNat ≤ 57 := by
    simp only [isPlain, Bool.or_eq_true, beq_iff_eq] at hc
    rcases hc with (hc | rfl) | rfl
    · rcases range_of_isWordChar hc with ⟨hfirst, hlast⟩ | ⟨-, hlast⟩
      · exact .inl ⟨hfirst, hlast⟩
      · exact .inr hlast
    · decide
    · decide
  refine ⟨by omega, dif_neg fun hupper => ?_⟩
  have hfirst : 65 ≤ c.toNat := hupper.1
  have hlast : c.toNat ≤ 90 := hupper.2
  omega

theorem lookup_of_isPlain {table : List (Char × String)} (hc : isPlain c = true)
    (htable : ∀ entry ∈ table, isPlain entry.1 = false) : table.lookup c = none := by
  refine List.lookup_eq_none_iff.mpr fun entry hentry => ?_
  have hne : c ≠ entry.1 := fun heq => by
    rw [heq, htable entry hentry] at hc
    cases hc
  simpa using hne

theorem spell_of_isPlain (hc : isPlain c = true) : spell c = [c] := by
  rw [spell, lookup_of_isPlain hc (by decide), lookup_of_isPlain hc (by decide)]

theorem flatMap_of_isPlain {f : Char → List Char} (hf : ∀ c, isPlain c = true → f c = [c])
    (h : ∀ c ∈ title, isPlain c = true) : title.flatMap f = title := by
  induction title with
  | nil => rfl
  | cons c title ih =>
    rw [List.flatMap_cons, hf c (h c List.mem_cons_self),
      ih fun d hd => h d (List.mem_cons_of_mem _ hd), List.singleton_append]

-- ----------------------------------------------------------------------------
-- Letters
-- ----------------------------------------------------------------------------

/-- What is known of the letters of Unicode: they are decomposed between two spaces, and the
characters of identifiers stay as they are. -/
structure Letters.Sound (letters : Letters) : Prop where
  lower : ∀ c, isPlain c = true → letters.lower c = [c]
  unaccent : ∀ text, (∀ c ∈ text, isPlain c = true) → letters.unaccent text = text
  across : ∀ front back,
    letters.unaccent (front ++ ' ' :: back) = letters.unaccent front ++ ' ' :: letters.unaccent back

namespace Letters

variable {letters : Letters}

theorem sound_unicode : unicode.Sound := by
  have hunaccented : ∀ c, isPlain c = true → Text.unaccented c = [c] := fun c hc =>
    Text.unaccented_of_ascii (ascii_of_isPlain hc).1
  refine ⟨fun c hc => ?_, fun text htext => flatMap_of_isPlain hunaccented htext,
    fun front back => ?_⟩
  · obtain ⟨hascii, hlower⟩ := ascii_of_isPlain hc
    exact (Text.lowercase_of_ascii hascii).trans (by rw [hlower])
  · change (front ++ ' ' :: back).flatMap Text.unaccented = _
    rw [List.flatMap_append, List.flatMap_cons, hunaccented ' ' (by decide)]
    rfl

section
variable (h : letters.Sound)
include h

theorem Sound.simplify_of_isPlain (htitle : ∀ c ∈ title, isPlain c = true) :
    letters.simplify title = title := by
  rw [simplify, flatMap_of_isPlain h.lower htitle, h.unaccent title htitle,
    flatMap_of_isPlain (fun _ => spell_of_isPlain) htitle]

/-- What stands behind a space is simplified by itself. -/
theorem Sound.simplify_append (title other : List Char) :
    letters.simplify (title ++ ' ' :: other) = letters.simplify title ++ ' ' :: letters.simplify other := by
  rw [simplify, List.flatMap_append, List.flatMap_cons, h.lower ' ' (by decide),
    List.singleton_append, h.across, List.flatMap_append, List.flatMap_cons,
    spell_of_isPlain (by decide)]
  rfl

end

-- ----------------------------------------------------------------------------
-- The words of a title
-- ----------------------------------------------------------------------------

theorem isWord_of_mem_titleWords (h : word ∈ letters.titleWords title) : IsWord word :=
  isWord_of_mem_words h

theorem isPlain_of_mem_intercalate (h : c ∈ ['-'].intercalate (letters.titleWords title)) :
    isPlain c = true := by
  have hword : ∀ word ∈ letters.titleWords title, ∀ d ∈ word, isPlain d = true := by
    intro word hmem d hd
    simp [isPlain, (isWord_of_mem_titleWords hmem).2 d hd]
  cases hparts : letters.titleWords title with
  | nil => simp [hparts] at h
  | cons first parts =>
    rw [hparts] at hword
    rw [hparts, intercalate_cons, List.mem_append, List.mem_flatMap] at h
    rcases h with h | ⟨word, hmem, h⟩
    · exact hword first List.mem_cons_self c h
    · cases h with
      | head => decide
      | tail _ h => exact hword word (List.mem_cons_of_mem _ hmem) c h

theorem toList_ofTitle (letters : Letters) (title : String) :
    (letters.ofTitle title).toList = ['-'].intercalate (letters.titleWords title.toList) :=
  String.toList_ofList

theorem Sound.titleWords_ofTitle (h : letters.Sound) (title : String) :
    letters.titleWords (letters.ofTitle title).toList = letters.titleWords title.toList := by
  rw [toList_ofTitle, titleWords, h.simplify_of_isPlain fun _ => isPlain_of_mem_intercalate]
  exact words_intercalate fun _ => isWord_of_mem_titleWords

theorem Sound.titleWords_append (h : letters.Sound) (title other : List Char) :
    letters.titleWords (title ++ ' ' :: other) =
      letters.titleWords title ++ letters.titleWords other := by
  rw [titleWords, h.simplify_append, words_append_break (by decide)]
  rfl

theorem Sound.ofTitle_eq_empty (h : letters.Sound) {title : String} :
    letters.ofTitle title = "" ↔ letters.titleWords title.toList = [] := by
  have hwords := h.titleWords_ofTitle title
  rw [← String.toList_inj, String.toList_empty]
  refine ⟨fun hempty => ?_, fun hempty => by rw [toList_ofTitle, hempty, List.intercalate_nil]⟩
  rw [hempty, titleWords, h.simplify_of_isPlain (by simp)] at hwords
  simpa [words] using hwords.symm

end Letters

-- ----------------------------------------------------------------------------
-- The normal form
-- ----------------------------------------------------------------------------

/-- `[a-z0-9]+` -/
def latinWords : Language Char :=
  {word | word ≠ [] ∧ ∀ c ∈ word, ('a' ≤ c ∧ c ≤ 'z') ∨ ('0' ≤ c ∧ c ≤ '9')}

/-- `[a-z0-9]+(-[a-z0-9]+)*` -/
def hyphenated : Language Char := latinWords * ({['-']} * latinWords)∗

theorem IsWord.mem_latinWords (h : IsWord word) : word ∈ latinWords :=
  ⟨h.1, fun c hc => range_of_isWordChar (h.2 c hc)⟩

theorem mem_hyphenated (hne : parts ≠ []) (h : ∀ word ∈ parts, IsWord word) :
    ['-'].intercalate parts ∈ hyphenated := by
  obtain ⟨word, parts, rfl⟩ := List.exists_cons_of_ne_nil hne
  rw [intercalate_cons, List.flatMap_def]
  refine Language.append_mem_mul (h word List.mem_cons_self).mem_latinWords
    (Language.join_mem_kstar fun part hpart => ?_)
  obtain ⟨word, hword, rfl⟩ := List.mem_map.mp hpart
  exact Language.append_mem_mul (Set.mem_singleton ['-'])
    (h word (List.mem_cons_of_mem _ hword)).mem_latinWords

/-- Identifiers are in normal form, and a title gives the words of its parts. Of the letters only this
matters: they are decomposed between two spaces, and the characters of identifiers stay as they are. -/
theorem ofTitle_normal {letters : Letters} (h : letters.Sound) (title other : String) :
    (letters.ofTitle title = "" ∨ (letters.ofTitle title).toList ∈ hyphenated) ∧
      letters.ofTitle (letters.ofTitle title) = letters.ofTitle title ∧
      letters.ofTitle (title ++ " " ++ other) =
        if letters.ofTitle title = "" then letters.ofTitle other
        else if letters.ofTitle other = "" then letters.ofTitle title
        else letters.ofTitle title ++ "-" ++ letters.ofTitle other := by
  refine ⟨?_, ?_, ?_⟩
  · rw [h.ofTitle_eq_empty, Letters.toList_ofTitle]
    exact or_iff_not_imp_left.mpr fun hne =>
      mem_hyphenated hne fun _ => Letters.isWord_of_mem_titleWords
  · rw [← String.toList_inj, Letters.toList_ofTitle, h.titleWords_ofTitle, Letters.toList_ofTitle]
  · have happend : letters.titleWords (title ++ " " ++ other).toList =
        letters.titleWords title.toList ++ letters.titleWords other.toList := by
      rw [← h.titleWords_append]
      simp
    simp only [h.ofTitle_eq_empty]
    rw [← String.toList_inj, Letters.toList_ofTitle, happend]
    split
    · next hfirst => rw [hfirst, List.nil_append, Letters.toList_ofTitle]
    · next hfirst =>
      split
      · next hsecond => rw [hsecond, List.append_nil, Letters.toList_ofTitle]
      · next hsecond =>
        rw [intercalate_append hfirst hsecond]
        simp [Letters.toList_ofTitle]

/-- The letters that titles are read with are such letters. -/
theorem ofTitle_normal_unicode : Letters.unicode.Sound ∧ ∀ title other : String,
    (ofTitle title = "" ∨ (ofTitle title).toList ∈ hyphenated) ∧
      ofTitle (ofTitle title) = ofTitle title ∧
      ofTitle (title ++ " " ++ other) =
        if ofTitle title = "" then ofTitle other
        else if ofTitle other = "" then ofTitle title
        else ofTitle title ++ "-" ++ ofTitle other :=
  ⟨Letters.sound_unicode, ofTitle_normal Letters.sound_unicode⟩

end Macromark.Identifier
