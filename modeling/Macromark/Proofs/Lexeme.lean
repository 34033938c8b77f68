import Macromark.Proofs.Token.Escape
import Macromark.Proofs.Token.Literals
import Macromark.Proofs.Token.Places
import Mathlib.Computability.Language

/-!
# The longest match

A kind of lexeme is a pattern, a language of the texts that it is written as
(`LexemeKind.pattern`). Whatever pattern matches at the start of a text, what
`next?` reads goes at least as far, and only a match of the same kind is as long
(`next?_of_match`). So `next?` takes the longest match (`longest_iff`), there is one
at the start of every text, and a lexer that has a branch for texts without a match
never comes to it (`nextBy_eq`). Two neighbours that would match as one would have
been a longer match (`lexemes_munch`).
-/

namespace Macromark

open Computability

-- ----------------------------------------------------------------------------
-- Patterns
-- ----------------------------------------------------------------------------

/-- One character of a class. -/
def oneOf (p : Char → Bool) : Language Char := fun text => ∃ c, p c = true ∧ text = [c]

/-- One character of a class or more. -/
def manyOf (p : Char → Bool) : Language Char := oneOf p * (oneOf p)∗

def LexemeKind.pattern : LexemeKind → Language Char
  | escaped => oneOf (· == escapeChar) * oneOf isEscapable
  | macroName => oneOf (· == escapeChar) * (oneOf isNameChar)∗
  | opener b => manyOf (· == b.opening)
  | closer b => oneOf (· == b.closing)
  | paragraphBreak => oneOf (· == '\n') * manyOf (· == '\n')
  | newline => oneOf (· == '\n')
  | text => manyOf isPlainChar

variable {p : Char → Bool} {text : List Char}

theorem mem_oneOf : text ∈ oneOf p ↔ ∃ c, p c = true ∧ text = [c] := Iff.rfl

theorem mem_oneOf_mul {l : Language Char} :
    text ∈ oneOf p * l ↔ ∃ c rest, p c = true ∧ rest ∈ l ∧ text = c :: rest := by
  rw [Language.mem_mul]
  constructor
  · rintro ⟨_, ⟨c, hc, rfl⟩, rest, hrest, rfl⟩
    exact ⟨c, rest, hc, hrest, rfl⟩
  · rintro ⟨c, rest, hc, hrest, rfl⟩
    exact ⟨[c], ⟨c, hc, rfl⟩, rest, hrest, rfl⟩

theorem mem_kstar_oneOf : text ∈ (oneOf p)∗ ↔ ∀ c ∈ text, p c = true := by
  constructor
  · rintro ⟨parts, rfl, hparts⟩ c hc
    obtain ⟨part, hpart, hc⟩ := List.mem_flatten.mp hc
    obtain ⟨d, hd, rfl⟩ := hparts part hpart
    rwa [List.mem_singleton.mp hc]
  · intro hall
    refine ⟨text.map ([·]), ?_, fun part hpart => ?_⟩
    · rw [← List.flatMap_def, List.flatMap_singleton']
    obtain ⟨c, hc, rfl⟩ := List.mem_map.mp hpart
    exact ⟨c, hall c hc, rfl⟩

theorem mem_manyOf : text ∈ manyOf p ↔ text ≠ [] ∧ ∀ c ∈ text, p c = true := by
  simp only [manyOf, mem_oneOf_mul, mem_kstar_oneOf]
  cases text with
  | nil => simp
  | cons c rest => simp

theorem LexemeKind.ne_nil_of_mem {kind : LexemeKind} (h : text ∈ kind.pattern) : text ≠ [] := by
  rintro rfl
  cases kind <;>
    simp [pattern, mem_oneOf_mul, mem_manyOf, mem_oneOf] at h

/-- A run goes on as long as its characters do. -/
theorem prefix_takeWhile {run : List Char} (h : ∀ c ∈ run, p c = true) (back : List Char) :
    run <+: (run ++ back).takeWhile p := by
  rw [List.takeWhile_append_of_pos h]
  exact List.prefix_append _ _

namespace Lexeme

/-- What is read matches the pattern of its kind. -/
theorem Read.mem_pattern {l : Lexeme} {behind : List Char} (h : l.Read behind) :
    l.text ∈ l.kind.pattern := by
  obtain ⟨kind, text⟩ := l
  cases kind with
  | escaped =>
    obtain ⟨c, hc, rfl⟩ := h
    exact mem_oneOf_mul.mpr ⟨_, _, beq_self_eq_true _, ⟨c, hc, rfl⟩, rfl⟩
  | macroName =>
    obtain ⟨name, rfl, hname, -⟩ := h
    exact mem_oneOf_mul.mpr ⟨_, _, beq_self_eq_true _, mem_kstar_oneOf.mpr hname, rfl⟩
  | opener b =>
    obtain ⟨run, hrun, rfl, -⟩ := h
    refine mem_manyOf.mpr ⟨?_, fun c hc => ?_⟩
    · exact List.ne_nil_of_length_pos (by rwa [Literal.openRun, List.length_replicate])
    · rw [List.eq_of_mem_replicate hc]
      exact beq_self_eq_true _
  | closer b => exact ⟨_, beq_self_eq_true _, h⟩
  | paragraphBreak =>
    obtain ⟨count, hcount, rfl, -⟩ := h
    obtain ⟨more, rfl⟩ : ∃ more, count = more + 2 := ⟨count - 2, by omega⟩
    refine mem_oneOf_mul.mpr ⟨'\n', List.replicate (more + 1) '\n', rfl, ?_, rfl⟩
    refine mem_manyOf.mpr ⟨List.cons_ne_nil _ _, fun c hc => ?_⟩
    rw [List.eq_of_mem_replicate hc]
    rfl
  | newline => exact ⟨_, rfl, h⟩
  | text => exact mem_manyOf.mpr h

/-- A lexeme that goes at least as far as a match, and is of its kind if it is as long. -/
structure Covers (kind : LexemeKind) (text : List Char) (l : Lexeme) : Prop where
  isPrefix : text <+: l.text
  kind : l.text = text → l.kind = kind

theorem afterEscape_covers {name : List Char} (hname : ∀ c ∈ name, isNameChar c = true)
    (back : List Char) :
    Covers .macroName (escapeChar :: name) (afterEscape (name ++ back)).1 := by
  cases name with
  | nil =>
    unfold afterEscape
    split
    · split
      · exact ⟨by simp, fun h => absurd h (by simp)⟩
      · exact ⟨by simp, fun _ => rfl⟩
    · exact ⟨by simp, fun _ => rfl⟩
  | cons c name =>
    have hc := isEscapable_of_isNameChar (hname c List.mem_cons_self)
    rw [List.cons_append, afterEscape, hc, if_neg Bool.false_ne_true]
    exact ⟨List.cons_prefix_cons.mpr ⟨rfl, prefix_takeWhile hname back⟩, fun _ => rfl⟩

theorem lineEnds_covers {run : List Char} (hrun : ∀ c ∈ run, (c == '\n') = true)
    (back : List Char) :
    Covers (if run = [] then .newline else .paragraphBreak) ('\n' :: run)
      (lineEnds (run ++ back)).1 := by
  have hmore := prefix_takeWhile hrun back
  unfold lineEnds
  generalize (run ++ back).takeWhile (· == '\n') = more at hmore ⊢
  cases more with
  | nil =>
    obtain rfl := List.prefix_nil.mp hmore
    exact ⟨List.prefix_rfl, fun _ => rfl⟩
  | cons d more =>
    refine ⟨List.cons_prefix_cons.mpr ⟨rfl, hmore⟩, fun h => ?_⟩
    obtain rfl : d :: more = run := (List.cons.inj h).2
    rw [if_neg (List.cons_ne_nil d more)]

/-- Wherever a pattern matches, what is read covers the match. -/
theorem next?_of_match {kind : LexemeKind} (h : text ∈ kind.pattern) (back : List Char) :
    ∃ l behind, next? (text ++ back) = some (l, behind) ∧ l.Covers kind text := by
  cases kind with
  | escaped =>
    obtain ⟨c, rest, hc, ⟨d, hd, rfl⟩, rfl⟩ := mem_oneOf_mul.mp h
    obtain rfl := eq_of_beq hc
    exact ⟨_, _, congrArg some (split_escaped hd back), List.prefix_rfl, fun _ => rfl⟩
  | macroName =>
    obtain ⟨c, name, hc, hname, rfl⟩ := mem_oneOf_mul.mp h
    obtain rfl := eq_of_beq hc
    exact ⟨_, _, rfl, afterEscape_covers (mem_kstar_oneOf.mp hname) back⟩
  | opener b =>
    obtain ⟨c, run, hc, hrun, rfl⟩ := mem_oneOf_mul.mp h
    obtain rfl := eq_of_beq hc
    have hfront := prefix_takeWhile (mem_kstar_oneOf.mp hrun) back
    exact ⟨(openers b (run ++ back)).1, (openers b (run ++ back)).2, by cases b <;> rfl,
      List.cons_prefix_cons.mpr ⟨rfl, hfront⟩, fun _ => rfl⟩
  | closer b =>
    obtain ⟨c, hc, rfl⟩ := h
    obtain rfl := eq_of_beq hc
    cases b <;> exact ⟨_, _, rfl, List.prefix_rfl, fun _ => rfl⟩
  | paragraphBreak =>
    obtain ⟨c, run, hc, hrun, rfl⟩ := mem_oneOf_mul.mp h
    obtain rfl := eq_of_beq hc
    obtain ⟨hne, hall⟩ := mem_manyOf.mp hrun
    have hcovers := lineEnds_covers hall back
    rw [if_neg hne] at hcovers
    exact ⟨_, _, rfl, hcovers⟩
  | newline =>
    obtain ⟨c, hc, rfl⟩ := h
    obtain rfl := eq_of_beq hc
    have hnone : ∀ c ∈ ([] : List Char), (c == '\n') = true := by simp
    exact ⟨_, _, rfl, lineEnds_covers hnone back⟩
  | text =>
    obtain ⟨c, run, hc, hrun, rfl⟩ := mem_oneOf_mul.mp h
    have hfront := prefix_takeWhile (mem_kstar_oneOf.mp hrun) back
    exact ⟨_, _, congrArg some (split_plain hc (run ++ back)),
      List.cons_prefix_cons.mpr ⟨rfl, hfront⟩, fun _ => rfl⟩

-- ----------------------------------------------------------------------------
-- The longest match
-- ----------------------------------------------------------------------------

/-- At the start of a text no pattern matches more than this lexeme does. -/
structure Longest (source : List Char) (l : Lexeme) : Prop where
  isPrefix : l.text <+: source
  matched : l.text ∈ l.kind.pattern
  longest : ∀ kind text, text ∈ LexemeKind.pattern kind → text <+: source →
    text.length ≤ l.text.length

variable {source behind : List Char} {l : Lexeme}

theorem next?_eq_none : next? source = none ↔ source = [] := by
  cases source <;> simp [next?]

theorem next?_eq_some : next? source = some (l, behind) ↔
    ∃ c rest, source = c :: rest ∧ split c rest = (l, behind) := by
  cases source <;> simp [next?]

theorem longest_of_next? (h : next? source = some (l, behind)) : Longest source l := by
  obtain ⟨c, rest, rfl, hsplit⟩ := next?_eq_some.mp h
  have happend := split_append c rest
  have hread := split_read c rest
  rw [hsplit] at happend hread
  refine ⟨⟨behind, happend⟩, hread.mem_pattern, fun kind text htext hfront => ?_⟩
  obtain ⟨back, hback⟩ := hfront
  obtain ⟨covering, _, hnext, hcovers⟩ := next?_of_match htext back
  rw [hback, h] at hnext
  obtain ⟨rfl, -⟩ := Prod.mk.inj (Option.some.inj hnext)
  exact hcovers.isPrefix.length_le

/-- The longest match is what is read. -/
theorem longest_iff : Longest source l ↔ ∃ behind, next? source = some (l, behind) := by
  refine ⟨fun h => ?_, fun ⟨behind, h⟩ => longest_of_next? h⟩
  obtain ⟨back, hback⟩ := h.isPrefix
  obtain ⟨read, behind, hread, hcovers⟩ := next?_of_match h.matched back
  rw [hback] at hread
  have hlongest := longest_of_next? hread
  have hlength := h.longest read.kind read.text hlongest.matched hlongest.isPrefix
  have htext : l.text = read.text := hcovers.isPrefix.eq_of_length_le hlength
  refine ⟨behind, ?_⟩
  rw [hread, show read = l from congrArg₂ Lexeme.mk (hcovers.kind htext.symm) htext.symm]

theorem exists_longest (hne : source ≠ []) : ∃ l, Longest source l := by
  obtain ⟨c, rest, rfl⟩ := List.exists_cons_of_ne_nil hne
  exact ⟨(split c rest).1, longest_iff.mpr ⟨(split c rest).2, rfl⟩⟩

/-- What is read covers the longest match, so that a text matches the pattern of one kind. -/
theorem pattern_unique {kind other : LexemeKind} (h : text ∈ kind.pattern)
    (hother : text ∈ other.pattern) : kind = other := by
  obtain ⟨l, behind, hread, hcovers⟩ := next?_of_match h []
  obtain ⟨l', behind', hread', hcovers'⟩ := next?_of_match hother []
  obtain ⟨rfl, rfl⟩ := Prod.mk.inj (Option.some.inj (hread.symm.trans hread'))
  have hfront := (longest_of_next? hread).isPrefix
  rw [List.append_nil] at hfront
  have htext : l.text = text := hfront.eq_of_length_le hcovers.isPrefix.length_le
  rw [← hcovers.kind htext, hcovers'.kind htext]

-- ----------------------------------------------------------------------------
-- Pattern lexers
-- ----------------------------------------------------------------------------

/-- A lexer by patterns finds at the start of a text a kind and how long its match is, or
that no pattern matches there, or that the text is at its end. -/
abbrev Matcher := List Char → Option (Except Unit (LexemeKind × Nat))

def nextBy (matcher : Matcher) (source : List Char) : Option (Lexeme × List Char) :=
  match matcher source with
  | none => none
  | some (.ok (kind, length)) => some (⟨kind, source.take length⟩, source.drop length)
  | some (.error ()) => some (⟨.text, source.take 1⟩, source.drop 1)

/-- What is read off a text until there is no lexeme any more. -/
inductive ReadBy (matcher : Matcher) : List Char → List Lexeme → Prop
  | done {source : List Char} : nextBy matcher source = none → ReadBy matcher source []
  | more {source behind : List Char} {l : Lexeme} {ls : List Lexeme} :
      nextBy matcher source = some (l, behind) → ReadBy matcher behind ls →
      ReadBy matcher source (l :: ls)

/-- A lexer that takes the longest match. -/
structure Matcher.TakesLongest (matcher : Matcher) : Prop where
  ended {source : List Char} : matcher source = none ↔ source = []
  longest {source : List Char} {kind : LexemeKind} {length : Nat} :
    matcher source = some (.ok (kind, length)) → Longest source ⟨kind, source.take length⟩
  failed {source : List Char} :
    matcher source = some (.error ()) → ∀ l, ¬ Longest source l

def matcher : Matcher := fun source =>
  (next? source).map fun (l, _) => .ok (l.kind, l.text.length)

section Matcher

variable {m : Matcher}

theorem Matcher.TakesLongest.ne_error (h : m.TakesLongest) (source : List Char) :
    m source ≠ some (.error ()) := by
  intro hfailed
  have hne : source ≠ [] := fun hnil => by
    rw [h.ended.mpr hnil] at hfailed
    cases hfailed
  obtain ⟨l, hl⟩ := exists_longest hne
  exact h.failed hfailed l hl

theorem nextBy_eq (h : m.TakesLongest) (source : List Char) : nextBy m source = next? source := by
  unfold nextBy
  split
  · next hended => rw [h.ended.mp hended, next?]
  · next kind length hlongest =>
    obtain ⟨behind, hread⟩ := longest_iff.mp (h.longest hlongest)
    have happend : source.take length ++ behind = source := by
      obtain ⟨c, rest, rfl, hsplit⟩ := next?_eq_some.mp hread
      have := split_append c rest
      rwa [hsplit] at this
    have hbehind : source.drop length = behind :=
      List.append_cancel_left ((List.take_append_drop length source).trans happend.symm)
    rw [hread, hbehind]
  · next hfailed => exact absurd hfailed (h.ne_error source)

/-- Reading ends, with the lexemes of the text. -/
theorem readBy_iff (h : m.TakesLongest) {ls : List Lexeme} :
    ReadBy m source ls ↔ ls = lexemes source := by
  constructor
  · intro hread
    induction hread with
    | done hnone =>
      rw [nextBy_eq h] at hnone
      rw [next?_eq_none.mp hnone, lexemes]
    | more hnext _ ih =>
      rw [nextBy_eq h] at hnext
      obtain ⟨c, rest, rfl, hsplit⟩ := next?_eq_some.mp hnext
      rw [lexemes, hsplit, ih]
  · rintro rfl
    fun_induction lexemes source with
    | case1 => exact .done (nextBy_eq h [])
    | case2 c rest ih => exact .more (nextBy_eq h (c :: rest)) ih

theorem matcher_takesLongest : matcher.TakesLongest where
  ended := Option.map_eq_none_iff.trans next?_eq_none
  longest := by
    intro source kind length h
    obtain ⟨⟨l, behind⟩, hread, hfound⟩ := Option.map_eq_some_iff.mp h
    obtain ⟨rfl, rfl⟩ := Prod.mk.inj (Except.ok.inj hfound)
    have hlongest := longest_of_next? hread
    rwa [← List.prefix_iff_eq_take.mp hlongest.isPrefix]
  failed := by
    intro source h
    obtain ⟨⟨l, behind⟩, hread, hfound⟩ := Option.map_eq_some_iff.mp h
    cases hfound

end Matcher

-- ----------------------------------------------------------------------------
-- Neighbours
-- ----------------------------------------------------------------------------

end Lexeme

namespace LexemeKind

/-- Lexemes of these kinds, one behind the other, are written as one lexeme is. -/
inductive Joins : LexemeKind → LexemeKind → Prop
  | text : Joins .text .text
  | openers (b : Bracket) : Joins (.opener b) (.opener b)
  | lineEnds {first second : LexemeKind} : first ∈ [newline, paragraphBreak] →
      second ∈ [newline, paragraphBreak] → Joins first second

theorem append_mem_manyOf {first second : List Char} (hfirst : first ∈ manyOf p)
    (hsecond : second ∈ manyOf p) : first ++ second ∈ manyOf p := by
  rw [mem_manyOf] at *
  refine ⟨List.append_ne_nil_of_left_ne_nil hfirst.1 _, fun c hc => ?_⟩
  exact (List.mem_append.mp hc).elim (hfirst.2 c) (hsecond.2 c)

theorem exists_run_of_lineEnds {kind : LexemeKind} (h : kind ∈ [newline, paragraphBreak])
    (htext : text ∈ kind.pattern) : ∃ run ∈ (oneOf (· == '\n'))∗, text = '\n' :: run := by
  simp only [List.mem_cons, List.not_mem_nil, or_false] at h
  rcases h with rfl | rfl
  · obtain ⟨c, hc, rfl⟩ := htext
    obtain rfl := eq_of_beq hc
    exact ⟨[], Language.nil_mem_kstar _, rfl⟩
  · obtain ⟨c, run, hc, hrun, rfl⟩ := mem_oneOf_mul.mp htext
    obtain rfl := eq_of_beq hc
    exact ⟨run, mem_kstar_oneOf.mpr (mem_manyOf.mp hrun).2, rfl⟩

theorem Joins.append_mem {first second : LexemeKind} (h : first.Joins second)
    {front back : List Char} (hfront : front ∈ first.pattern) (hback : back ∈ second.pattern) :
    ∃ kind, front ++ back ∈ LexemeKind.pattern kind := by
  cases h with
  | text => exact ⟨.text, append_mem_manyOf hfront hback⟩
  | openers b => exact ⟨.opener b, append_mem_manyOf hfront hback⟩
  | lineEnds hfirst hsecond =>
    obtain ⟨run, hrun, rfl⟩ := exists_run_of_lineEnds hfirst hfront
    obtain ⟨more, hmore, rfl⟩ := exists_run_of_lineEnds hsecond hback
    refine ⟨.paragraphBreak, mem_oneOf_mul.mpr ⟨_, run ++ '\n' :: more, rfl, ?_, rfl⟩⟩
    rw [mem_kstar_oneOf] at hrun hmore
    simp only [mem_manyOf, List.mem_append, List.mem_cons]
    refine ⟨List.append_ne_nil_of_right_ne_nil _ (List.cons_ne_nil _ _), ?_⟩
    rintro c (hc | rfl | hc)
    · exact hrun c hc
    · rfl
    · exact hmore c hc

end LexemeKind

namespace Lexeme

variable {source : List Char}

/-- Two lexemes that follow each other do not match as one, or the first were not the longest. -/
theorem Longest.not_joins {l next : Lexeme} {behind : List Char}
    (h : Longest (l.text ++ (next.text ++ behind)) l) (hnext : next.text ∈ next.kind.pattern)
    (hne : next.text ≠ []) : ¬ l.kind.Joins next.kind := by
  intro hjoins
  obtain ⟨kind, hkind⟩ := hjoins.append_mem h.matched hnext
  have hlength := h.longest kind _ hkind (by simp [← List.append_assoc])
  rw [List.length_append] at hlength
  exact hne (List.eq_nil_of_length_eq_zero (by omega))

/-- Every lexeme is the longest match at the place where it stands. -/
theorem longest_of_lexemes_eq {front back : List Lexeme} {l : Lexeme}
    (h : lexemes source = front ++ l :: back) : Longest ((l :: back).flatMap (·.text)) l := by
  induction front generalizing source with
  | nil =>
    cases source with
    | nil => simp [lexemes] at h
    | cons c rest =>
      have hsource := flatMap_text_lexemes (c :: rest)
      rw [h] at hsource
      rw [lexemes] at h
      obtain ⟨rfl, -⟩ := List.cons.inj h
      rw [List.nil_append] at hsource
      rw [hsource]
      exact longest_of_next? rfl
  | cons first front ih =>
    cases source with
    | nil => simp [lexemes] at h
    | cons c rest =>
      rw [lexemes] at h
      exact ih (List.cons.inj h).2

theorem text_ne_nil_of_mem_lexemes {l : Lexeme} (h : l ∈ lexemes source) : l.text ≠ [] := by
  obtain ⟨front, back, hsplit⟩ := List.append_of_mem h
  exact LexemeKind.ne_nil_of_mem (longest_of_lexemes_eq hsplit).matched

theorem lexemes_isChain (source : List Char) :
    (lexemes source).IsChain fun l next => ¬ l.kind.Joins next.kind := by
  refine List.isChain_iff_forall_rel_of_append_cons_cons.mpr fun l next front back hsplit => ?_
  have hlongest := longest_of_lexemes_eq hsplit
  have hbehind : lexemes source = front ++ [l] ++ next :: back := by simp [hsplit]
  have hnext := longest_of_lexemes_eq hbehind
  exact hlongest.not_joins hnext.matched (LexemeKind.ne_nil_of_mem hnext.matched)

/-- Reading off a text with a lexer by patterns that takes the longest match ends, and takes
the whole text apart. Each lexeme is the longest match where it stands, of the one kind
whose pattern it matches. So neighbours do not match as one, and there is a match wherever
the text is not at its end. -/
theorem lexemes_munch {m : Matcher} (h : m.TakesLongest) (source : List Char) :
    (∀ ls, ReadBy m source ls ↔ ls = lexemes source) ∧
    (lexemes source).flatMap (·.text) = source ∧
    (∀ l ∈ lexemes source, l.text ≠ []) ∧
    (∀ front l back, lexemes source = front ++ l :: back →
      Longest ((l :: back).flatMap (·.text)) l ∧
      ∀ kind, l.text ∈ LexemeKind.pattern kind → kind = l.kind) ∧
    ((lexemes source).IsChain fun l next => ¬ l.kind.Joins next.kind) ∧
    m source ≠ some (.error ()) := by
  refine ⟨fun ls => readBy_iff h, flatMap_text_lexemes source,
    fun l hl => text_ne_nil_of_mem_lexemes hl, fun front l back hsplit => ?_,
    lexemes_isChain source, h.ne_error source⟩
  have hlongest := longest_of_lexemes_eq hsplit
  exact ⟨hlongest, fun kind hkind => pattern_unique hkind hlongest.matched⟩

theorem lexemes_munch_breaks :
    (∀ ls, ReadBy matcher "\\\\h[[1\n\n".toList ls ↔ ls = lexemes "\\\\h[[1\n\n".toList) ∧
    (lexemes "\\\\h[[1\n\n".toList).map (·.kind) =
      [.escaped, .text, .opener .positional, .text, .paragraphBreak] := by
  exact ⟨(lexemes_munch matcher_takesLongest _).1, by decide +kernel⟩

end Lexeme
end Macromark
