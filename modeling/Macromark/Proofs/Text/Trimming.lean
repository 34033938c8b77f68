import Macromark.Text.Basic
import Mathlib.Data.List.DropRight

/-!
# What is cut off at the ends of a text

Cutting at the back is Mathlib's `List.rdropWhile`, and may be done before or after cutting at the
front. So a text that has been trimmed stays as it is (`trim_trim`), and trimming takes no letters
(`letters_trim`).
-/

namespace Macromark.Text

variable {α : Type} (p : α → Bool) (xs : List α)

/-- The program itself is built without Mathlib. -/
theorem dropEnd_eq_rdropWhile : dropEnd p xs = xs.rdropWhile p := rfl

theorem rdropWhile_dropWhile : (xs.dropWhile p).rdropWhile p = (xs.rdropWhile p).dropWhile p := by
  induction xs using List.reverseRecOn with
  | nil => rfl
  | append_singleton xs x ih =>
    rw [List.dropWhile_append]
    by_cases hx : p x
    · rw [List.rdropWhile_concat_pos _ _ _ hx, ← ih]
      split
      · next hempty => simp [List.isEmpty_iff.mp hempty, hx]
      · exact List.rdropWhile_concat_pos _ _ _ hx
    · rw [List.rdropWhile_concat_neg _ _ _ hx, List.dropWhile_append]
      split
      · simp [hx, List.rdropWhile]
      · exact List.rdropWhile_concat_neg _ _ _ hx

theorem head?_rdropWhile_dropWhile : ((xs.dropWhile p).rdropWhile p).head? = (xs.dropWhile p).head? := by
  cases hkept : xs.dropWhile p with
  | nil => rfl
  | cons x rest =>
    have hx : p x = false := by
      have hnot := List.head_dropWhile_not p (l := xs) (by simp [hkept])
      simpa [hkept] using hnot
    have hprefix : (x :: rest).rdropWhile p <+: x :: rest := List.rdropWhile_prefix p _
    cases hend : (x :: rest).rdropWhile p with
    | nil =>
      have hall := List.rdropWhile_eq_nil_iff.mp hend x List.mem_cons_self
      simp [hx] at hall
    | cons y others =>
      rw [hend] at hprefix
      simp [(List.cons_prefix_cons.mp hprefix).1]

-- ----------------------------------------------------------------------------
-- White space
-- ----------------------------------------------------------------------------

theorem trimChars_eq (cs : List Char) : trimChars cs = (cs.dropWhile isSpace).rdropWhile isSpace := rfl

theorem trimChars_dropWhile (cs : List Char) : trimChars (cs.dropWhile isSpace) = trimChars cs := by
  rw [trimChars_eq, List.dropWhile_idempotent, trimChars_eq]

theorem trimChars_rdropWhile (cs : List Char) : trimChars (cs.rdropWhile isSpace) = trimChars cs := by
  rw [trimChars_eq, rdropWhile_dropWhile, List.rdropWhile_idempotent, ← rdropWhile_dropWhile,
    ← trimChars_eq]

theorem trim_trim (s : String) : trim (trim s) = trim s := by
  rw [trim, trim, String.toList_ofList, trimChars_eq s.toList, trimChars_rdropWhile,
    trimChars_dropWhile, trimChars_eq]

/-- The characters of a text that are not white space. -/
def letters (s : String) : List Char := s.toList.filter (!isSpace ·)

theorem filter_dropWhile_isSpace (cs : List Char) :
    (cs.dropWhile isSpace).filter (!isSpace ·) = cs.filter (!isSpace ·) := by
  induction cs with
  | nil => rfl
  | cons c cs ih =>
    cases hc : isSpace c with
    | true => rw [List.dropWhile_cons_of_pos hc, ih, List.filter_cons_of_neg (by simp [hc])]
    | false => rw [List.dropWhile_cons_of_neg (by simp [hc])]

theorem letters_trim (s : String) : letters (trim s) = letters s := by
  rw [letters, letters, trim, String.toList_ofList, trimChars, dropEnd, List.filter_reverse,
    filter_dropWhile_isSpace, List.filter_reverse, List.reverse_reverse, filter_dropWhile_isSpace]

end Macromark.Text
