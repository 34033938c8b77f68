import Macromark.Proofs.Text.Position

/-!
# Offsets and positions

The lines of a text start behind its line ends, in ascending order
(`lineStarts_ascending`), so that the search for an offset finds the last line
that starts at or before it (`lineAt?_eq`). What stands between the start of that
line and the offset is a text without a line end, and its characters are counted.
So the position at an offset is that of what stands behind the text in front of
it, and every cut and every index is in range (`position?_eq`).
-/

namespace Macromark

-- ----------------------------------------------------------------------------
-- Cuts
-- ----------------------------------------------------------------------------

namespace Text

theorem cut?_append (front back : List Char) :
    cut? (byteLength front) (front ++ back) = some (front, back) := by
  induction front with
  | nil => cases back <;> rfl
  | cons c rest ih =>
    have hpos : 0 < c.utf8Size := c.utf8Size_pos
    rw [List.cons_append, cut?, byteLength_cons, if_neg (by omega), if_neg (by omega),
      Nat.add_sub_cancel_left, ih]
    rfl

theorem slice?_append (front between back : List Char) :
    slice? (front ++ (between ++ back)) (byteLength front) (byteLength (front ++ between)) =
      some between := by
  have hle : ¬ byteLength (front ++ between) < byteLength front := by
    rw [byteLength_append]
    omega
  rw [slice?, if_neg hle]
  simp only [cut?_append, byteLength_append, Nat.add_sub_cancel_left, Option.bind_eq_bind,
    Option.bind_some]
  rfl

/-- A place between two characters of a text, or at one of its ends. -/
def IsBoundary (text : List Char) (offset : Nat) : Prop :=
  ∃ front back, text = front ++ back ∧ offset = byteLength front

/-- Of two places in a text one stands in front of the other, by their offsets. -/
theorem IsBoundary.lt {text : List Char} {offset later : Nat} (h : IsBoundary text offset)
    (h' : IsBoundary text later) (hlt : offset < later) :
    ∃ front between back, text = front ++ (between ++ back) ∧ between ≠ [] ∧
      offset = byteLength front ∧ later = byteLength (front ++ between) := by
  obtain ⟨front, back, rfl, rfl⟩ := h
  obtain ⟨longer, rest, htext, rfl⟩ := h'
  rcases List.append_eq_append_iff.mp htext with ⟨between, rfl, rfl⟩ | ⟨between, rfl, rfl⟩
  · refine ⟨front, between, rest, rfl, ?_, rfl, rfl⟩
    rintro rfl
    simp at hlt
  · simp only [byteLength_append] at hlt
    omega

end Text

-- ----------------------------------------------------------------------------
-- Line ends
-- ----------------------------------------------------------------------------

open Text (byteLength)

theorem charOffsets_append (start : Nat) (first second : List Char) :
    charOffsets start (first ++ second) =
      charOffsets start first ++ charOffsets (start + byteLength first) second := by
  induction first generalizing start with
  | nil => rfl
  | cons c rest ih => simp [charOffsets, ih, Nat.add_assoc]

theorem breakOffsets_append (start : Nat) (first second : List Char) :
    breakOffsets start (first ++ second) =
      breakOffsets start first ++ breakOffsets (start + byteLength first) second := by
  simp [breakOffsets, charOffsets_append]

theorem breakOffsets_cons (start : Nat) (c : Char) (rest : List Char) :
    breakOffsets start (c :: rest) =
      (if c = '\n' then [start + 1] else []) ++ breakOffsets (start + c.utf8Size) rest := by
  unfold breakOffsets
  rw [charOffsets, List.filter_cons]
  by_cases hc : c = '\n' <;> simp [hc]

theorem length_breakOffsets (start : Nat) (text : List Char) :
    (breakOffsets start text).length = text.count '\n' := by
  induction text generalizing start with
  | nil => rfl
  | cons c rest ih =>
    rw [breakOffsets_cons, List.length_append, ih, List.count_cons]
    by_cases hc : c = '\n' <;> simp [hc, Nat.add_comm]

theorem mem_breakOffsets {start offset : Nat} {text : List Char}
    (h : offset ∈ breakOffsets start text) : start < offset ∧ offset ≤ start + byteLength text := by
  induction text generalizing start with
  | nil => cases h
  | cons c rest ih =>
    have hpos : 0 < c.utf8Size := c.utf8Size_pos
    rw [breakOffsets_cons, List.mem_append] at h
    rw [Text.byteLength_cons]
    rcases h with h | h
    · split at h
      · next hc =>
        obtain rfl := List.mem_singleton.mp h
        omega
      · cases h
    · have := ih h
      omega

theorem breakOffsets_ascending (start : Nat) (text : List Char) :
    (breakOffsets start text).Pairwise (· < ·) := by
  induction text generalizing start with
  | nil => exact .nil
  | cons c rest ih =>
    rw [breakOffsets_cons]
    split
    · next hc =>
      refine List.pairwise_cons.mpr ⟨fun offset hoffset => ?_, ih _⟩
      obtain rfl := hc
      exact (mem_breakOffsets hoffset).1
    · exact ih _

/-- What stands behind the last line end, and where that begins. -/
theorem exists_lastLine (front : List Char) : ∃ head line, front = head ++ line ∧
    (0 :: breakOffsets 0 front)[front.count '\n']? = some (byteLength head) ∧
    line.length = (front.reverse.takeWhile (· ≠ '\n')).length := by
  induction front using List.reverseRecOn with
  | nil => exact ⟨[], [], rfl, rfl, rfl⟩
  | append_singleton front c ih =>
    obtain ⟨head, line, rfl, hstart, hlength⟩ := ih
    by_cases hc : c = '\n'
    · subst hc
      refine ⟨head ++ line ++ ['\n'], [], (List.append_nil _).symm, ?_, by simp⟩
      rw [breakOffsets_append, List.count_append, List.count_singleton_self,
        List.getElem?_cons_succ, List.getElem?_append_right (by rw [length_breakOffsets]),
        length_breakOffsets, Nat.sub_self, Nat.zero_add, breakOffsets_cons, if_pos rfl,
        Text.byteLength_append (head ++ line)]
      rfl
    · refine ⟨head, line ++ [c], by simp, ?_, by simp [hc, hlength]⟩
      have hcount : (head ++ line ++ [c]).count '\n' = (head ++ line).count '\n' := by
        simp [hc]
      have hnone : breakOffsets (byteLength (head ++ line)) [c] = [] := by
        simp [hc, breakOffsets, charOffsets]
      rw [hcount, breakOffsets_append, Nat.zero_add, hnone, List.append_nil, hstart]

-- ----------------------------------------------------------------------------
-- The search
-- ----------------------------------------------------------------------------

namespace LineMap

/-- What a search in ascending numbers may find. -/
inductive Found.Of (starts : Array Nat) (offset : Nat) : Found → Prop
  | here {index : Nat} : starts[index]? = some offset → Found.Of starts offset (.here index)
  | missing {index : Nat} : index ≤ starts.size →
      (∀ j (hj : j < starts.size), (j < index → starts[j] < offset) ∧
        (index ≤ j → offset < starts[j])) → Found.Of starts offset (.missing index)

variable {starts : Array Nat} {offset : Nat}

/-- The search goes on with the half in which the offset may be. -/
theorem search_of {low high : Nat} (h : high ≤ starts.size)
    (hascending : starts.toList.Pairwise (· < ·)) (hle : low ≤ high)
    (hlow : ∀ j (hj : j < starts.size), j < low → starts[j] < offset)
    (hhigh : ∀ j (hj : j < starts.size), high ≤ j → offset < starts[j]) :
    (search starts offset low high h).Of starts offset := by
  have hlt : ∀ i j (hi : i < starts.size) (hj : j < starts.size), i < j → starts[i] < starts[j] :=
    fun i j hi hj hij => List.pairwise_iff_getElem.mp hascending i j hi hj hij
  fun_induction search starts offset low high h with
  | case1 low high h hbetween middle hmiddle hsize heq =>
    exact .here (by rw [Array.getElem?_eq_getElem hsize, heq])
  | case2 low high h hbetween middle hmiddle hsize hne hless ih =>
    refine ih (by omega) (fun j hj hjlow => ?_) hhigh
    rcases Nat.lt_or_eq_of_le (Nat.le_of_lt_succ hjlow) with hbefore | rfl
    · exact Nat.lt_trans (hlt j middle hj hsize hbefore) hless
    · exact hless
  | case3 low high h hbetween middle hmiddle hsize hne hless ih =>
    refine ih (by omega) hlow fun j hj hjhigh => ?_
    have hmore : offset < starts[middle] := by omega
    rcases Nat.lt_or_eq_of_le hjhigh with hbehind | rfl
    · exact Nat.lt_trans hmore (hlt middle j hsize hj hbehind)
    · exact hmore
  | case4 low high h hempty =>
    refine .missing (Nat.le_trans hle h) fun j hj => ⟨hlow j hj, fun hjlow => hhigh j hj ?_⟩
    omega

/-- The search finds the last of the lines that start at or before the offset. -/
theorem lineAt?_eq {map : LineMap} {before after : List Nat}
    (hstarts : map.lineStarts.toList = before ++ after)
    (hascending : map.lineStarts.toList.Pairwise (· < ·)) (hne : before ≠ [])
    (hbefore : ∀ start ∈ before, start ≤ offset) (hafter : ∀ start ∈ after, offset < start) :
    map.lineAt? offset = some (before.length - 1) := by
  obtain ⟨text, starts⟩ := map
  simp only at hstarts hascending
  have hsize : starts.size = before.length + after.length := by
    rw [← Array.length_toList, hstarts, List.length_append]
  have hpos : 0 < before.length := List.length_pos_iff.mpr hne
  have hfront : ∀ j (hj : j < starts.size), j < before.length → starts[j] ≤ offset := by
    intro j hj hlt
    refine hbefore _ ?_
    rw [← Array.getElem_toList, List.getElem_of_eq hstarts, List.getElem_append_left hlt]
    exact List.getElem_mem hlt
  have hback : ∀ j (hj : j < starts.size), before.length ≤ j → offset < starts[j] := by
    intro j hj hle
    refine hafter _ ?_
    rw [← Array.getElem_toList, List.getElem_of_eq hstarts, List.getElem_append_right hle]
    exact List.getElem_mem _
  have hfound : (search starts offset 0 starts.size (Nat.le_refl _)).Of starts offset :=
    search_of (Nat.le_refl _) hascending (Nat.zero_le _)
      (fun j hj hlt => absurd hlt (Nat.not_lt_zero j))
      fun j hj hle => absurd hj (Nat.not_lt.mpr hle)
  unfold lineAt?
  generalize search starts offset 0 starts.size (Nat.le_refl _) = found at hfound
  cases hfound with
  | @here index hindex =>
    obtain ⟨hlt, heq⟩ := Array.getElem?_eq_some_iff.mp hindex
    have hinside : index < before.length := by
      by_contra hout
      exact absurd (hback index hlt (Nat.le_of_not_lt hout)) (by omega)
    -- a later line would start behind the offset
    have hlast : ¬ index < before.length - 1 := by
      intro hearlier
      have hin : before.length - 1 < starts.size := by omega
      have hnext := List.pairwise_iff_getElem.mp hascending index (before.length - 1) hlt
        (by simpa using hin) hearlier
      have hle := hfront (before.length - 1) hin (by omega)
      simp only [Array.getElem_toList] at hnext
      omega
    exact congrArg some (by omega)
  | @missing index hle hsplit =>
    have hindex : index = before.length := by
      refine Nat.le_antisymm ?_ ?_
      · by_contra hout
        have hless := (hsplit before.length (by omega)).1 (by omega)
        have hmore := hback before.length (by omega) (Nat.le_refl _)
        omega
      · by_contra hin
        have hmore := (hsplit index (by omega)).2 (Nat.le_refl _)
        have hless := hfront index (by omega) (by omega)
        omega
    obtain ⟨line, hline⟩ : ∃ line, before.length = line + 1 := ⟨before.length - 1, by omega⟩
    rw [hindex, hline]
    rfl

-- ----------------------------------------------------------------------------
-- Positions
-- ----------------------------------------------------------------------------

theorem lineStarts_ofText (front back : List Char) :
    (ofText (front ++ back)).lineStarts.toList =
      (0 :: breakOffsets 0 front) ++ breakOffsets (byteLength front) back := by
  rw [ofText, List.toList_toArray, breakOffsets_append, Nat.zero_add, List.cons_append]

theorem lineStarts_ascending (text : List Char) :
    (ofText text).lineStarts.toList.Pairwise (· < ·) := by
  rw [ofText, List.toList_toArray]
  exact List.pairwise_cons.mpr ⟨fun _ h => (mem_breakOffsets h).1, breakOffsets_ascending 0 text⟩

theorem lineAt?_ofText (front back : List Char) :
    (ofText (front ++ back)).lineAt? (byteLength front) = some (front.count '\n') := by
  rw [lineAt?_eq (lineStarts_ofText front back) (lineStarts_ascending _) (by simp)]
  · rw [List.length_cons, length_breakOffsets, Nat.add_sub_cancel]
  · intro start hstart
    rcases List.mem_cons.mp hstart with rfl | hstart
    · exact Nat.zero_le _
    · simpa using (mem_breakOffsets hstart).2
  · exact fun start hstart => (mem_breakOffsets hstart).1

/-- The position at an offset is where one is behind the text in front of it. -/
theorem position?_eq (front back : List Char) :
    (ofText (front ++ back)).position? (byteLength front) = some (.behind front) := by
  obtain ⟨head, line, hfront, hstart, hlength⟩ := exists_lastLine front
  have hlines : (ofText (front ++ back)).lineStarts[front.count '\n']? =
      some (byteLength head) := by
    rw [← Array.getElem?_toList, lineStarts_ofText, List.getElem?_append_left, hstart]
    rw [List.length_cons, length_breakOffsets]
    exact Nat.lt_succ_self _
  have htext : (ofText (front ++ back)).text = head ++ (line ++ back) := by
    rw [ofText, hfront, List.append_assoc]
  have hstop : min (byteLength front) (byteLength (head ++ (line ++ back))) =
      byteLength (head ++ line) := by
    rw [hfront, ← List.append_assoc, Text.byteLength_append (head ++ line) back]
    omega
  simp only [position?, lineAt?_ofText, hlines, htext, hstop, Text.slice?_append,
    Option.bind_eq_bind, Option.bind_some, Option.pure_def, hlength, Position.behind]

/-- The position at an offset counts what stands in front of it: the line ends, and the
characters behind the last of them. Places that follow each other have positions in reading
order, so that different places have different ones. -/
theorem position?_counts (text : List Char) :
    (∀ front back, text = front ++ back → (ofText text).position? (byteLength front) =
      some ⟨front.count '\n' + 1, (front.reverse.takeWhile (· ≠ '\n')).length + 1⟩) ∧
    (∀ offset later, Text.IsBoundary text offset → Text.IsBoundary text later → offset < later →
      ∃ p q, (ofText text).position? offset = some p ∧ (ofText text).position? later = some q ∧
        p < q) ∧
    ∀ offset other, Text.IsBoundary text offset → Text.IsBoundary text other →
      (ofText text).position? offset = (ofText text).position? other → offset = other := by
  have hrises : ∀ offset later, Text.IsBoundary text offset → Text.IsBoundary text later →
      offset < later → ∃ p q, (ofText text).position? offset = some p ∧
        (ofText text).position? later = some q ∧ p < q := by
    intro offset later hoffset hlater hlt
    obtain ⟨front, between, back, rfl, hne, rfl, rfl⟩ := hoffset.lt hlater hlt
    refine ⟨.behind front, .behind (front ++ between), position?_eq front _, ?_, ?_⟩
    · rw [← List.append_assoc]
      exact position?_eq (front ++ between) back
    · rw [← Position.after_behind]
      exact Position.lt_after _ hne
  have hapart : ∀ offset later, Text.IsBoundary text offset → Text.IsBoundary text later →
      offset < later → (ofText text).position? offset ≠ (ofText text).position? later := by
    intro offset later hoffset hlater hlt heq
    obtain ⟨p, q, hp, hq, hpq⟩ := hrises offset later hoffset hlater hlt
    obtain rfl := Option.some.inj (hp.symm.trans (heq.trans hq))
    exact Std.Irrefl.irrefl p hpq
  refine ⟨?_, hrises, fun offset other hoffset hother heq => ?_⟩
  · rintro front back rfl
    exact position?_eq front back
  · rcases Nat.lt_trichotomy offset other with hlt | hsame | hlt
    · exact absurd heq (hapart offset other hoffset hother hlt)
    · exact hsame
    · exact absurd heq.symm (hapart other offset hother hoffset hlt)

theorem position?_counts_alpha :
    let map := ofText ['α', '\n', '\n', 'β', 'x']
    map.position? 6 = some ⟨3, 2⟩ ∧
      (∃ p q, map.position? 2 = some p ∧ map.position? 6 = some q ∧ p < q) ∧
      map.position? 2 ≠ map.position? 6 := by
  have hline : Text.IsBoundary ['α', '\n', '\n', 'β', 'x'] 2 :=
    ⟨['α'], ['\n', '\n', 'β', 'x'], rfl, by decide⟩
  have hinside : Text.IsBoundary ['α', '\n', '\n', 'β', 'x'] 6 :=
    ⟨['α', '\n', '\n', 'β'], ['x'], rfl, by decide⟩
  have hcounts := position?_counts ['α', '\n', '\n', 'β', 'x']
  exact ⟨hcounts.1 ['α', '\n', '\n', 'β'] ['x'] rfl, hcounts.2.1 2 6 hline hinside (by decide),
    fun heq => absurd (hcounts.2.2 2 6 hline hinside heq) (by decide)⟩

end LineMap
end Macromark
