import Macromark.Lexeme

/-!
# Literal arguments

An argument opened by several brackets in a row is literal: its text runs up to
as many closing brackets and nothing in it is a lexeme. An escape before a
whole run of openers or closers keeps that run as text. A line end right behind
the opener and one right before the closer are not part of the text.
-/

namespace Macromark

/-- What a scan for the end of a literal argument has found. -/
structure Literal where
  /-- The text with its escapes taken off. -/
  content : List Char
  /-- The text as written. -/
  raw : List Char
  /-- What follows the closing run, if there is one. -/
  rest? : Option (List Char)
deriving DecidableEq, Repr

namespace Literal

def prepend (content raw : List Char) (l : Literal) : Literal :=
  { l with content := content ++ l.content, raw := raw ++ l.raw }

def openRun (b : Bracket) (run : Nat) : List Char := List.replicate run b.opening

def closeRun (b : Bracket) (run : Nat) : List Char := List.replicate run b.closing

def scan (b : Bracket) (run : Nat) : List Char → Literal
  | [] => ⟨[], [], none⟩
  | c :: rest =>
    if c = escapeChar ∧ (openRun b run).isPrefixOf rest then
      (scan b run (rest.drop run)).prepend (openRun b run) (c :: openRun b run)
    else if c = escapeChar ∧ (closeRun b run).isPrefixOf rest then
      (scan b run (rest.drop run)).prepend (closeRun b run) (c :: closeRun b run)
    else if (closeRun b run).isPrefixOf (c :: rest) then
      ⟨[], [], some ((c :: rest).drop run)⟩
    else (scan b run rest).prepend [c] [c]
termination_by text => text.length
decreasing_by all_goals simp only [List.length_drop, List.length_cons]; omega

/-- What is left to read. Nothing is left when the closing run is missing. -/
def rest (l : Literal) : List Char := l.rest?.getD []

def dropFirstNewline : List Char → List Char
  | '\n' :: rest => rest
  | cs => cs

def dropLastNewline (cs : List Char) : List Char :=
  if cs.getLast? = some '\n' then cs.dropLast else cs

def text (l : Literal) : List Char := dropLastNewline (dropFirstNewline l.content)

@[simp] theorem rest_prepend (content raw : List Char) (l : Literal) :
    (l.prepend content raw).rest = l.rest := rfl

theorem length_rest_scan_le (b : Bracket) (run : Nat) (cs : List Char) :
    (scan b run cs).rest.length ≤ cs.length := by
  fun_induction scan b run cs with
  | case1 => simp [rest]
  | case2 c rest _ ih | case3 c rest _ _ ih =>
    simp only [rest_prepend, List.length_drop, List.length_cons] at ih ⊢
    omega
  | case4 c rest =>
    simp only [Literal.rest, Option.getD_some, List.length_drop, List.length_cons]
    omega
  | case5 c rest _ _ _ ih =>
    simp only [rest_prepend, List.length_cons]
    omega

end Literal
end Macromark
