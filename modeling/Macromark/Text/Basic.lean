/-!
# Texts

Sets of characters, white space and what is cut off at it, and the parts of a
text between separators. White space is the White_Space property of all of
Unicode, so a no-break space is blank and a zero-width space is not.
-/

namespace Macromark.Text

-- ----------------------------------------------------------------------------
-- Sets of code points
-- ----------------------------------------------------------------------------

/-- The union of the ranges `first … last`, both ends included. -/
abbrev CodePoints := List (Nat × Nat)

def CodePoints.contains (set : CodePoints) (c : Char) : Bool :=
  set.any fun range => range.1 ≤ c.toNat && c.toNat ≤ range.2

theorem CodePoints.contains_iff {set : CodePoints} {c : Char} :
    set.contains c = true ↔ ∃ range ∈ set, range.1 ≤ c.toNat ∧ c.toNat ≤ range.2 := by
  simp [CodePoints.contains]

-- ----------------------------------------------------------------------------
-- White space
-- ----------------------------------------------------------------------------

def whiteSpace : CodePoints := [
   (0x9, 0xd), (0x20, 0x20), (0x85, 0x85), (0xa0, 0xa0), (0x1680, 0x1680), (0x2000, 0x200a),
   (0x2028, 0x2029), (0x202f, 0x202f), (0x205f, 0x205f), (0x3000, 0x3000)]

def isSpace (c : Char) : Bool := whiteSpace.contains c

/-- Removes the elements at the end that satisfy `p`. -/
def dropEnd {α : Type} (p : α → Bool) (xs : List α) : List α := (xs.reverse.dropWhile p).reverse

def trimChars (cs : List Char) : List Char := dropEnd isSpace (cs.dropWhile isSpace)

def trim (s : String) : String := .ofList (trimChars s.toList)

def isBlank (s : String) : Bool := s.toList.all isSpace

/-- The text of an argument that is on or off. Anything but a zero turns it on. -/
def isTruthy (s : String) : Bool :=
  let text := trim s
  text != "" && text != "0"

-- ----------------------------------------------------------------------------
-- Splitting
-- ----------------------------------------------------------------------------

def split (separator : Char) : List Char → List (List Char)
  | [] => [[]]
  | c :: rest =>
    match split separator rest with
    | part :: parts => if c = separator then [] :: part :: parts else (c :: part) :: parts
    | [] => []

theorem length_split (separator : Char) (cs : List Char) :
    (split separator cs).length = cs.count separator + 1 := by
  induction cs with
  | nil => rfl
  | cons c rest ih =>
    simp only [split]
    split
    · next part parts h =>
      rw [h] at ih
      by_cases hc : c = separator
      · simp [hc] at ih ⊢; omega
      · simp [hc] at ih ⊢; omega
    · next h => simp [h] at ih

theorem flatten_split (separator : Char) (cs : List Char) :
    (split separator cs).flatten = cs.filter (· ≠ separator) := by
  induction cs with
  | nil => rfl
  | cons c rest ih =>
    simp only [split]
    split
    · next part parts h =>
      rw [h] at ih
      by_cases hc : c = separator
      · simpa [hc] using ih
      · simpa [hc] using ih
    · next h =>
      have := length_split separator rest
      simp [h] at this

end Macromark.Text
