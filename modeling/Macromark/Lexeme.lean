/-!
# Lexemes

The words of the source text, without regard to context: an escaped character,
the name of a macro, a run of opening brackets, one closing bracket, a run of
line ends, or plain text. `Lexeme.next?` takes the longest one off a text, and
`lexemes` takes the whole text apart.
-/

namespace Macromark

-- ----------------------------------------------------------------------------
-- Brackets
-- ----------------------------------------------------------------------------

inductive Bracket where
  | positional
  | named
deriving DecidableEq, Repr

namespace Bracket

def opening : Bracket → Char
  | positional => '['
  | named => '\x7b'

def closing : Bracket → Char
  | positional => ']'
  | named => '\x7d'

theorem opening_ne_closing (b c : Bracket) : b.opening ≠ c.closing := by
  cases b <;> cases c <;> decide

end Bracket

-- ----------------------------------------------------------------------------
-- Lexemes
-- ----------------------------------------------------------------------------

def escapeChar : Char := '\\'

/-- The characters that an escape turns into plain text. -/
def isEscapable (c : Char) : Bool :=
  c == escapeChar || c == '[' || c == ']' || c == '\x7b' || c == '\x7d'

def isNameChar (c : Char) : Bool := c.isAlphanum || c == '_'

/-- The characters that stand for themselves wherever they are written. -/
def isPlainChar (c : Char) : Bool := !isEscapable c && c != '\n'

inductive LexemeKind where
  | escaped
  | macroName
  | opener (bracket : Bracket)
  | closer (bracket : Bracket)
  | paragraphBreak
  | newline
  | text
deriving DecidableEq, Repr

structure Lexeme where
  kind : LexemeKind
  text : List Char
deriving DecidableEq, Repr

namespace Lexeme

/-- A run of opening brackets. One of them opens an argument, several open a
literal one. -/
def openers (b : Bracket) (rest : List Char) : Lexeme × List Char :=
  (⟨.opener b, b.opening :: rest.takeWhile (· == b.opening)⟩,
    rest.dropWhile (· == b.opening))

def afterEscape (rest : List Char) : Lexeme × List Char :=
  match rest with
  | c :: tail =>
    if isEscapable c then (⟨.escaped, [escapeChar, c]⟩, tail)
    else (⟨.macroName, escapeChar :: rest.takeWhile isNameChar⟩, rest.dropWhile isNameChar)
  | [] => (⟨.macroName, [escapeChar]⟩, [])

def lineEnds (rest : List Char) : Lexeme × List Char :=
  match rest.takeWhile (· == '\n') with
  | [] => (⟨.newline, ['\n']⟩, rest)
  | more => (⟨.paragraphBreak, '\n' :: more⟩, rest.dropWhile (· == '\n'))

def split (c : Char) (rest : List Char) : Lexeme × List Char :=
  if c = escapeChar then afterEscape rest
  else if c = '[' then openers .positional rest
  else if c = '\x7b' then openers .named rest
  else if c = ']' then (⟨.closer .positional, [c]⟩, rest)
  else if c = '\x7d' then (⟨.closer .named, [c]⟩, rest)
  else if c = '\n' then lineEnds rest
  else (⟨.text, c :: rest.takeWhile isPlainChar⟩, rest.dropWhile isPlainChar)

def next? : List Char → Option (Lexeme × List Char)
  | [] => none
  | c :: rest => some (split c rest)

-- ----------------------------------------------------------------------------
-- A lexeme and the text behind it are the whole text
-- ----------------------------------------------------------------------------

theorem openers_append (b : Bracket) (rest : List Char) :
    (openers b rest).1.text ++ (openers b rest).2 = b.opening :: rest := by
  simp [openers]

theorem afterEscape_append (rest : List Char) :
    (afterEscape rest).1.text ++ (afterEscape rest).2 = escapeChar :: rest := by
  unfold afterEscape
  split
  · split <;> simp
  · rfl

theorem lineEnds_append (rest : List Char) :
    (lineEnds rest).1.text ++ (lineEnds rest).2 = '\n' :: rest := by
  unfold lineEnds
  split
  · rfl
  · simp

theorem split_append (c : Char) (rest : List Char) :
    (split c rest).1.text ++ (split c rest).2 = c :: rest := by
  unfold split
  split
  · next h => rw [h]; exact afterEscape_append rest
  · split
    · next h => rw [h]; exact openers_append .positional rest
    · split
      · next h => rw [h]; exact openers_append .named rest
      · split
        · rfl
        · split
          · rfl
          · split
            · next h => rw [h]; exact lineEnds_append rest
            · simp

theorem split_text_ne_nil (c : Char) (rest : List Char) : (split c rest).1.text ≠ [] := by
  unfold split afterEscape openers lineEnds
  repeat' split
  all_goals simp

theorem length_split_lt (c : Char) (rest : List Char) :
    (split c rest).2.length < (c :: rest).length := by
  have happ := congrArg List.length (split_append c rest)
  have hne := List.length_pos_iff.2 (split_text_ne_nil c rest)
  simp only [List.length_append, List.length_cons] at happ ⊢
  omega

end Lexeme

def lexemes : List Char → List Lexeme
  | [] => []
  | c :: rest => (Lexeme.split c rest).1 :: lexemes (Lexeme.split c rest).2
termination_by text => text.length
decreasing_by exact Lexeme.length_split_lt c rest

theorem flatMap_text_lexemes (text : List Char) : (lexemes text).flatMap (·.text) = text := by
  fun_induction lexemes text with
  | case1 => rfl
  | case2 c rest ih => simp [ih, Lexeme.split_append]

end Macromark
