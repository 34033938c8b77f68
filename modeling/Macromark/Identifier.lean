import Macromark.Text.BaseLetter
import Macromark.Text.Lowercase

/-!
# Identifiers

An identifier that is derived from a title is made of lower case ASCII letters
and digits, in words joined by hyphens. Letters lose their case and accents,
ligatures and barred letters are written out, Greek letters and some signs are
spelled as words of their own, and anything else parts words.

    Ω & α-Decay   becomes   omega-and-alpha-decay

An identifier below a scope has that of the scope before it, and a slash
between.
-/

namespace Macromark.Identifier

def isWordChar (c : Char) : Bool := c.isLower || c.isDigit

/-- Signs that are spelled out as words of their own. -/
def signWords : List (Char × String) := [
  ('α', "alpha"), ('β', "beta"), ('γ', "gamma"), ('δ', "delta"), ('ε', "epsilon"),
  ('ζ', "zeta"), ('η', "eta"), ('θ', "theta"), ('ι', "iota"), ('κ', "kappa"),
  ('λ', "lambda"), ('μ', "mu"), ('ν', "nu"), ('ξ', "xi"), ('ο', "omicron"), ('π', "pi"),
  ('ρ', "rho"), ('σ', "sigma"), ('ς', "sigma"), ('τ', "tau"), ('υ', "upsilon"),
  ('φ', "phi"), ('χ', "chi"), ('ψ', "psi"), ('ω', "omega"),
  ('%', "percent"), ('&', "and"), ('+', "plus"), ('@', "at"), ('\u2212', "minus")]

/-- Latin letters without a decomposition, as parts of the word they stand in. -/
def latinLetters : List (Char × String) := [
  ('ß', "ss"), ('æ', "ae"), ('œ', "oe"), ('ø', "o"), ('đ', "d"), ('ð', "d"), ('ħ', "h"),
  ('ı', "i"), ('ł', "l"), ('ŧ', "t"), ('þ', "th")]

def spell (c : Char) : List Char :=
  match latinLetters.lookup c with
  | some letters => letters.toList
  | none =>
    match signWords.lookup c with
    | some word => '-' :: word.toList ++ ['-']
    | none => [c]

def words : List Char → List (List Char)
  | [] => []
  | c :: rest =>
    if isWordChar c then
      (c :: rest.takeWhile isWordChar) :: words (rest.dropWhile isWordChar)
    else words rest
termination_by cs => cs.length
decreasing_by
  · have := (List.dropWhile_sublist isWordChar (l := rest)).length_le
    simp only [List.length_cons]
    omega
  · simp only [List.length_cons]
    omega

/-- How letters lose their case and their accents. The case of a letter does not depend on its
neighbours, a decomposition may. -/
structure Letters where
  lower : Char → List Char
  /-- The decomposition of a text, without the marks in it. -/
  unaccent : List Char → List Char

namespace Letters

/-- The letters that titles are read with. -/
def unicode : Letters := ⟨Text.lowercase, (·.flatMap Text.unaccented)⟩

def simplify (letters : Letters) (title : List Char) : List Char :=
  (letters.unaccent (title.flatMap letters.lower)).flatMap spell

def titleWords (letters : Letters) (title : List Char) : List (List Char) :=
  words (letters.simplify title)

def ofTitle (letters : Letters) (title : String) : String :=
  .ofList (['-'].intercalate (letters.titleWords title.toList))

end Letters

def ofTitle (title : String) : String := Letters.unicode.ofTitle title

/-- Puts the first words of a macro in front. A title without words gives no
identifier. -/
def ofTitleWithStem (title stem : String) : String :=
  let id := ofTitle title
  if id = "" ∨ stem = "" then id else s!"{stem}-{id}"

/-- Puts a scope in front. -/
def underScope (scope : Option String) (id : String) : String :=
  match scope with
  | some scope => if scope = "" then id else s!"{scope}/{id}"
  | none => id

end Macromark.Identifier
