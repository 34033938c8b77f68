import Macromark.Text.Basic
import Macromark.Text.Position
import Mathlib.Data.List.Induction
import Mathlib.Data.List.TakeWhile

/-!
# The order of positions

Positions are in reading order, and text takes a position further. What stands
behind a text begins where its line ends and its last line say (`after_origin`),
so that a position in a text has its column in one of the lines of the text
(`In.line`).
-/

namespace Macromark.Position

instance : Std.Irrefl (α := Position) (· < ·) where
  irrefl := by
    rintro p (h | ⟨-, h⟩)
    · exact Nat.lt_irrefl _ h
    · exact Nat.lt_irrefl _ h

instance : Trans (α := Position) (· < ·) (· < ·) (· < ·) where
  trans := by
    rintro a b c (hab | ⟨hab, hab'⟩) (hbc | ⟨hbc, hbc'⟩)
    · exact .inl (Nat.lt_trans hab hbc)
    · exact .inl (hbc ▸ hab)
    · exact .inl (hab ▸ hbc)
    · exact .inr ⟨hab.trans hbc, Nat.lt_trans hab' hbc'⟩

instance : Std.Trichotomous (α := Position) (· < ·) where
  trichotomous := by
    rintro ⟨line, column⟩ ⟨line', column'⟩ hab hba
    simp only [LT.lt, not_or, not_and] at hab hba
    have hline : line = line' := Nat.le_antisymm (Nat.le_of_not_lt hba.1) (Nat.le_of_not_lt hab.1)
    subst hline
    have hcolumn := Nat.le_antisymm (Nat.le_of_not_lt (hba.2 rfl)) (Nat.le_of_not_lt (hab.2 rfl))
    rw [hcolumn]

/-- One position is the other or stands before it. -/
def Upto (p q : Position) : Prop := p = q ∨ p < q

instance (p q : Position) : Decidable (p.Upto q) := inferInstanceAs (Decidable (p = q ∨ p < q))

variable {p q r : Position}

theorem Upto.refl (p : Position) : p.Upto p := .inl rfl

theorem Upto.lt_of_lt (h : p < q) (h' : q.Upto r) : p < r := by
  rcases h' with rfl | h'
  · exact h
  · exact Trans.trans h h'

theorem Upto.trans (h : p.Upto q) (h' : q.Upto r) : p.Upto r := by
  rcases h with rfl | h
  · exact h'
  · exact .inr (h'.lt_of_lt h)

theorem Upto.not_lt (h : p.Upto q) : ¬ q < p := fun h' => irrefl (r := (· < ·)) q (Upto.lt_of_lt h' h)

theorem lt_next (p : Position) (c : Char) : p < p.next c := by
  unfold next
  split
  · exact .inl (Nat.lt_succ_self _)
  · exact .inr ⟨rfl, Nat.lt_succ_self _⟩

theorem upto_after (p : Position) (text : List Char) : p.Upto (p.after text) := by
  induction text generalizing p with
  | nil => exact .refl p
  | cons c rest ih => exact .inr ((ih (p.next c)).lt_of_lt (p.lt_next c))

theorem lt_after (p : Position) {text : List Char} (h : text ≠ []) : p < p.after text := by
  obtain ⟨c, rest, rfl⟩ := List.exists_cons_of_ne_nil h
  exact (upto_after (p.next c) rest).lt_of_lt (p.lt_next c)

-- ----------------------------------------------------------------------------
-- Lines
-- ----------------------------------------------------------------------------

def behind (front : List Char) : Position :=
  ⟨front.count '\n' + 1, (front.reverse.takeWhile (· ≠ '\n')).length + 1⟩

theorem after_origin (front : List Char) : origin.after front = behind front := by
  induction front using List.reverseRecOn with
  | nil => rfl
  | append_singleton front c ih =>
    rw [after_append, ih, after_cons, after_nil, next, behind, behind]
    by_cases hc : c = '\n' <;> simp [hc]

theorem after_behind (front text : List Char) :
    (behind front).after text = behind (front ++ text) := by
  rw [← after_origin, ← after_origin, after_append]

/-- A place in a text, or the one at its end. -/
def In (text : List Char) (p : Position) : Prop := ∃ front back, text = front ++ back ∧ p = behind front

theorem In.origin (text : List Char) : In text origin := ⟨[], text, rfl, rfl⟩

/-- The last line of a text in front of another one is the beginning of a line of both. -/
theorem exists_line (front back : List Char) : ∃ line,
    (Text.split '\n' (front ++ back))[front.count '\n']? = some line ∧
      (front.reverse.takeWhile (· ≠ '\n')).length ≤ line.length := by
  induction front with
  | nil =>
    have hpos : 0 < (Text.split '\n' back).length := by
      rw [Text.length_split]
      exact Nat.succ_pos _
    exact ⟨_, List.getElem?_eq_getElem hpos, Nat.zero_le _⟩
  | cons c front ih =>
    obtain ⟨line, hline, hlength⟩ := ih
    rw [List.cons_append, Text.split]
    cases hparts : Text.split '\n' (front ++ back) with
    | nil => simp [hparts] at hline
    | cons part parts =>
      rw [hparts] at hline
      by_cases hc : c = '\n'
      · subst hc
        refine ⟨line, by simpa using hline, Nat.le_trans (Nat.le_of_eq ?_) hlength⟩
        rw [List.reverse_cons, List.takeWhile_append]
        split
        · next hall => simp_all
        · rfl
      · simp only [hc, if_false, List.count_cons_of_ne hc]
        cases hcount : front.count '\n' with
        | zero =>
          rw [hcount, List.getElem?_cons_zero] at hline
          obtain rfl := Option.some.inj hline
          refine ⟨c :: part, rfl, ?_⟩
          rw [List.reverse_cons, List.takeWhile_append]
          split
          · next hall => simp_all
          · exact Nat.le_succ_of_le hlength
        | succ count =>
          rw [hcount] at hline
          refine ⟨line, hline, Nat.le_trans (Nat.le_of_eq ?_) hlength⟩
          rw [List.reverse_cons, List.takeWhile_append, if_neg]
          intro hall
          -- a line end in front of the text is not taken
          have hmem : '\n' ∈ front.reverse := by
            rw [List.mem_reverse, ← List.count_pos_iff, hcount]
            exact Nat.succ_pos count
          have hself := (List.takeWhile_prefix (· ≠ '\n')).eq_of_length hall
          rw [← hself] at hmem
          simpa using List.mem_takeWhile_imp hmem

theorem In.line {text : List Char} (h : p.In text) : ∃ line,
    (Text.split '\n' text)[p.line - 1]? = some line ∧ 1 ≤ p.line ∧ 1 ≤ p.column ∧
      p.column ≤ line.length + 1 := by
  obtain ⟨front, back, rfl, rfl⟩ := h
  obtain ⟨line, hline, hlength⟩ := exists_line front back
  exact ⟨line, hline, Nat.succ_pos _, Nat.succ_pos _, Nat.succ_le_succ hlength⟩

end Macromark.Position
