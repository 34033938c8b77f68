import Macromark.Proofs.Token.Seam

/-!
# Text in a literal argument

Any text can be written as a literal argument (`Literal.write`): an escape before
every whole run of openers or closers keeps the run as text, and the line ends
around the text keep its first and last characters apart from the brackets.
It is read back as it was, and reading goes on right behind the closing run
(`tokenize_literal`).
-/

namespace Macromark
namespace Literal

/-- Puts an escape before every whole run of openers or closers, found from left to right. -/
def escape (b : Bracket) (run : Nat) : List Char → List Char
  | [] => []
  | c :: rest =>
    if (openRun b run).isPrefixOf (c :: rest) then
      escapeChar :: openRun b run ++ escape b run (rest.drop (run - 1))
    else if (closeRun b run).isPrefixOf (c :: rest) then
      escapeChar :: closeRun b run ++ escape b run (rest.drop (run - 1))
    else c :: escape b run rest
termination_by text => text.length
decreasing_by all_goals simp only [List.length_drop, List.length_cons]; omega

def heading (b : Bracket) (name : List Char) : List Char :=
  match b with
  | .positional => []
  | .named => name ++ ['=']

def body (b : Bracket) (run : Nat) (text : List Char) : List Char :=
  '\n' :: escape b run text ++ ['\n']

def write (b : Bracket) (run : Nat) (name text : List Char) : List Char :=
  openRun b run ++ (heading b name ++ (body b run text ++ closeRun b run))

variable {b : Bracket} {run count : Nat} {q c : Char} {text rest behind : List Char}

-- ----------------------------------------------------------------------------
-- Runs in an escaped text
-- ----------------------------------------------------------------------------

theorem opening_ne_escapeChar (b : Bracket) : b.opening ≠ escapeChar := by cases b <;> decide

theorem closing_ne_escapeChar (b : Bracket) : b.closing ≠ escapeChar := by cases b <;> decide

theorem closing_ne_newline (b : Bracket) : b.closing ≠ '\n' := by cases b <;> decide

theorem opening_ne_newline (b : Bracket) : b.opening ≠ '\n' := by cases b <;> decide

theorem isPrefixOf_replicate_cons (hrun : 0 < run) (hq : q ≠ c) :
    (List.replicate run q).isPrefixOf (c :: rest) = false := by
  obtain ⟨less, rfl⟩ := Nat.exists_eq_add_of_lt hrun
  simp [List.replicate_succ, List.isPrefixOf, hq]

/-- A text that begins with a run is the run and what is behind it. -/
theorem eq_run_append (hrun : 0 < run) (h : (List.replicate run q).isPrefixOf (c :: rest) = true) :
    c :: rest = List.replicate run q ++ rest.drop (run - 1) := by
  obtain ⟨more, hmore⟩ := List.isPrefixOf_iff_prefix.mp h
  have hdrop := congrArg (List.drop run) hmore
  obtain ⟨less, rfl⟩ := Nat.exists_eq_add_of_lt hrun
  rw [List.drop_append_of_le_length (by simp)] at hdrop
  simp at hdrop
  rw [← hmore]
  simp [hdrop]

/-- Escapes add no brackets. -/
theorem isPrefixOf_of_escape (hq : q ≠ escapeChar)
    (h : (List.replicate count q).isPrefixOf (escape b run text) = true) :
    (List.replicate count q).isPrefixOf text = true := by
  induction count generalizing text with
  | zero => simp
  | succ count ih =>
    cases text with
    | nil => simp [escape, List.replicate_succ] at h
    | cons c rest =>
      unfold escape at h
      split at h
      · simp [List.replicate_succ, List.isPrefixOf, hq] at h
      · split at h
        · simp [List.replicate_succ, List.isPrefixOf, hq] at h
        · simp only [List.replicate_succ, List.isPrefixOf, Bool.and_eq_true] at h ⊢
          exact ⟨h.1, ih h.2⟩

/-- No whole run begins an escaped text. -/
theorem not_run_escape (hrun : 0 < run) (hq : q = b.opening ∨ q = b.closing) :
    (List.replicate run q).isPrefixOf (escape b run text) = false := by
  have hescape : q ≠ escapeChar := by
    rcases hq with rfl | rfl
    · exact opening_ne_escapeChar b
    · exact closing_ne_escapeChar b
  by_contra h
  rw [Bool.not_eq_false] at h
  have htext := isPrefixOf_of_escape hescape h
  cases text with
  | nil =>
    obtain ⟨less, rfl⟩ := Nat.exists_eq_add_of_lt hrun
    simp [List.replicate_succ] at htext
  | cons c rest =>
    have hhead : ∃ more, escape b run (c :: rest) = escapeChar :: more := by
      unfold escape
      split
      · exact ⟨_, rfl⟩
      · next hopen =>
        split
        · exact ⟨_, rfl⟩
        · next hclose =>
          rcases hq with rfl | rfl
          · exact absurd htext hopen
          · exact absurd htext hclose
    obtain ⟨more, hmore⟩ := hhead
    rw [hmore, isPrefixOf_replicate_cons hrun hescape] at h
    cases h

-- ----------------------------------------------------------------------------
-- The scan of an escaped text
-- ----------------------------------------------------------------------------

theorem scan_newline (hrun : 0 < run) (rest : List Char) :
    scan b run ('\n' :: rest) = (scan b run rest).prepend ['\n'] ['\n'] := by
  rw [scan, if_neg (by simp [escapeChar]), if_neg (by simp [escapeChar]), if_neg]
  rw [closeRun, isPrefixOf_replicate_cons hrun (closing_ne_newline b)]
  exact Bool.false_ne_true

theorem scan_closeRun (hrun : 0 < run) (behind : List Char) :
    scan b run (closeRun b run ++ behind) = ⟨[], [], some behind⟩ := by
  obtain ⟨less, rfl⟩ := Nat.exists_eq_add_of_lt hrun
  have hprefix : (closeRun b (0 + less + 1)).isPrefixOf (closeRun b (0 + less + 1) ++ behind) = true :=
    List.isPrefixOf_iff_prefix.mpr (List.prefix_append _ _)
  have hhead : closeRun b (0 + less + 1) = b.closing :: closeRun b (0 + less) := rfl
  rw [hhead, List.cons_append] at hprefix ⊢
  rw [scan, if_neg, if_neg, hhead, if_pos hprefix]
  · simp [closeRun]
  · exact fun h => closing_ne_escapeChar b h.1
  · exact fun h => closing_ne_escapeChar b h.1

theorem prepend_prepend (l : Literal) (content raw content' raw' : List Char) :
    (l.prepend content' raw').prepend content raw = l.prepend (content ++ content') (raw ++ raw') := by
  simp [prepend]

/-- A whole run behind an escape is text. -/
theorem scan_escaped_run (hrun : 0 < run) (hq : q = b.opening ∨ q = b.closing) (rest : List Char) :
    scan b run (escapeChar :: (List.replicate run q ++ rest)) =
      (scan b run rest).prepend (List.replicate run q) (escapeChar :: List.replicate run q) := by
  have hprefix : (List.replicate run q).isPrefixOf (List.replicate run q ++ rest) = true :=
    List.isPrefixOf_iff_prefix.mpr (List.prefix_append _ _)
  have hdrop : (List.replicate run q ++ rest).drop run = rest := by simp
  rcases hq with rfl | rfl
  · rw [scan, if_pos ⟨rfl, hprefix⟩, hdrop]
    rfl
  · have hopen : (openRun b run).isPrefixOf (List.replicate run b.closing ++ rest) = false := by
      obtain ⟨less, rfl⟩ := Nat.exists_eq_add_of_lt hrun
      exact isPrefixOf_replicate_cons hrun (Bracket.opening_ne_closing b b)
    rw [scan, if_neg (by simp [hopen]), if_pos ⟨rfl, hprefix⟩, hdrop]
    rfl

/-- An escaped text is scanned as it is, up to the line end behind it. -/
theorem scan_escape (hrun : 0 < run) (text behind : List Char) :
    scan b run (escape b run text ++ '\n' :: behind) =
      (scan b run ('\n' :: behind)).prepend text (escape b run text) := by
  fun_induction escape b run text with
  | case1 => simp [prepend]
  | case2 c rest hopen ih =>
    rw [List.cons_append, List.cons_append, List.append_assoc, openRun,
      scan_escaped_run hrun (.inl rfl), ih, prepend_prepend, ← eq_run_append hrun hopen]
    rfl
  | case3 c rest _ hclose ih =>
    rw [List.cons_append, List.cons_append, List.append_assoc, closeRun,
      scan_escaped_run hrun (.inr rfl), ih, prepend_prepend, ← eq_run_append hrun hclose]
    rfl
  | case4 c rest hopen hclose ih =>
    have hrunless : ∀ {q}, q = b.opening ∨ q = b.closing →
        (List.replicate run q).isPrefixOf (escape b run rest ++ '\n' :: behind) = false := by
      intro q hq
      have hline : '\n' ≠ q := by
        rcases hq with rfl | rfl
        · exact (opening_ne_newline b).symm
        · exact (closing_ne_newline b).symm
      rw [isPrefixOf_replicate_before fun _ => by simpa using hline, not_run_escape hrun hq]
    have hend : (closeRun b run).isPrefixOf (c :: (escape b run rest ++ '\n' :: behind)) = false := by
      have hsame : escape b run (c :: rest) = c :: escape b run rest := by
        rw [escape, if_neg hopen, if_neg hclose]
      have hline : '\n' ≠ b.closing := (closing_ne_newline b).symm
      rw [← List.cons_append, closeRun, isPrefixOf_replicate_before fun _ => by simpa using hline,
        ← hsame, ← Bool.not_eq_true]
      exact fun hescaped => hclose (isPrefixOf_of_escape (closing_ne_escapeChar b) hescaped)
    rw [List.cons_append, scan, if_neg, if_neg, if_neg, ih, prepend_prepend]
    · rfl
    · simp [hend]
    · simp [closeRun, hrunless]
    · simp [openRun, hrunless]

/-- What is found in the body of a written argument, behind which the closing run stands. -/
theorem scan_body (hrun : 0 < run) (text behind : List Char) :
    scan b run (body b run text ++ (closeRun b run ++ behind)) =
      ⟨'\n' :: text ++ ['\n'], body b run text, some behind⟩ := by
  rw [body, List.append_assoc, List.cons_append, List.singleton_append, scan_newline hrun,
    scan_escape hrun, scan_newline hrun, scan_closeRun hrun]
  simp [prepend]

/-- The line ends around a text are not part of it. -/
theorem text_body (raw : List Char) (rest? : Option (List Char)) (text : List Char) :
    Literal.text ⟨'\n' :: text ++ ['\n'], raw, rest?⟩ = text := by
  simp [Literal.text, dropFirstNewline, dropLastNewline]

end Literal

namespace Reading

variable {b : Bracket} {run : Nat} {name : List Char}

theorem literal_body (hrun : 0 < run) (start here : Position) (text behind : List Char) :
    literal b run start here (Literal.body b run text ++ (Literal.closeRun b run ++ behind)) =
      ⟨⟨(if text = [] then [] else [⟨.plaintext (.ofList text), here⟩]) ++
          [⟨.closer b, here.after (Literal.body b run text)⟩], []⟩,
        here.after (Literal.body b run text ++ Literal.closeRun b run), behind⟩ := by
  simp only [literal, Literal.scan_body hrun, Literal.text_body, Position.after_append, Literal.rest,
    Option.getD_some]

theorem argumentName_written (hname : ∀ c ∈ name, isNameChar c = true) (here : Position)
    (rest : List Char) : argumentName here (name ++ '=' :: rest) =
      ⟨⟨[⟨.argumentName (.ofList name), here⟩], []⟩, here.after (name ++ ['=']), rest⟩ := by
  have hend : isNameChar '=' = false := by decide
  rw [argumentName, List.takeWhile_append_of_pos hname, List.dropWhile_append_of_pos hname,
    List.takeWhile_cons_of_neg (by simp [hend]), List.dropWhile_cons_of_neg (by simp [hend]),
    List.append_nil, Position.after_append]
  rfl

def literalTokens (b : Bracket) (run : Nat) (name text : List Char) (start : Position) :
    List Token :=
  let here := start.after (Literal.openRun b run)
  let inside := here.after (Literal.heading b name)
  ⟨.opener b, start⟩ ::
    ((match b with
      | .positional => []
      | .named => [⟨.argumentName (.ofList name), here⟩]) ++
    ((if text = [] then [] else [⟨.plaintext (.ofList text), inside⟩]) ++
      [⟨.closer b, inside.after (Literal.body b run text)⟩]))

theorem argument_written (hrun : 1 < run) (hname : ∀ c ∈ name, isNameChar c = true)
    (start : Position) (text behind : List Char) :
    argument b run start (start.after (Literal.openRun b run))
        (Literal.heading b name ++ (Literal.body b run text ++ (Literal.closeRun b run ++ behind))) =
      ⟨⟨literalTokens b run name text start, []⟩, start.after (Literal.write b run name text),
        behind⟩ := by
  have hbody := literal_body (b := b) (Nat.lt_of_succ_lt hrun) start
  cases b with
  | positional =>
    simp only [argument, hrun, if_true, andThen, reduceCtorEq, if_false, Literal.heading,
      List.nil_append, hbody, Literal.write, Position.after_append]
    rfl
  | named =>
    simp only [argument, hrun, if_true, andThen, Literal.heading, List.append_assoc,
      List.cons_append, List.nil_append, argumentName_written hname, hbody, Literal.write,
      literalTokens, Position.after_append, Position.after_cons, Position.after_nil]
    rfl

end Reading

-- ----------------------------------------------------------------------------
-- Documents
-- ----------------------------------------------------------------------------

theorem takeWhile_end {p : Char → Bool} {front rest : List Char} (hfront : ∀ c ∈ front, p c = true)
    (hrest : ∀ c ∈ rest.head?, p c = false) :
    (front ++ rest).takeWhile p = front ∧ (front ++ rest).dropWhile p = rest := by
  rw [List.takeWhile_append_of_pos hfront, List.dropWhile_append_of_pos hfront]
  cases rest with
  | nil => simp
  | cons c rest => simp [hrest c rfl]

theorem isEscapable_of_isNameChar {c : Char} (hc : isNameChar c = true) :
    isEscapable c = false := by
  by_contra hescapable
  simp only [isEscapable, Bool.not_eq_false, Bool.or_eq_true, beq_iff_eq] at hescapable
  rcases hescapable with (((rfl | rfl) | rfl) | rfl) | rfl <;> revert hc <;> decide

theorem Lexeme.split_macroName {name rest : List Char} (hne : name ≠ [])
    (hname : ∀ c ∈ name, isNameChar c = true) (hrest : ∀ c ∈ rest.head?, isNameChar c = false) :
    split escapeChar (name ++ rest) = (⟨.macroName, escapeChar :: name⟩, rest) := by
  obtain ⟨c, more, rfl⟩ := List.exists_cons_of_ne_nil hne
  have hplain := isEscapable_of_isNameChar (hname c List.mem_cons_self)
  obtain ⟨htake, hdrop⟩ := takeWhile_end hname hrest
  have hsplit : split escapeChar (c :: more ++ rest) = afterEscape (c :: more ++ rest) := rfl
  rw [hsplit, List.cons_append] at *
  rw [afterEscape, hplain, if_neg Bool.false_ne_true, htake, hdrop]

theorem Lexeme.split_openRun {b : Bracket} {run : Nat} {rest : List Char}
    (hrest : rest.head? ≠ some b.opening) :
    split b.opening (List.replicate run b.opening ++ rest) =
      (⟨.opener b, Literal.openRun b (run + 1)⟩, rest) := by
  have hall : ∀ c ∈ List.replicate run b.opening, (c == b.opening) = true := by simp
  have hend : ∀ c ∈ rest.head?, (c == b.opening) = false := by
    rintro c hc
    rw [beq_eq_false_iff_ne]
    rintro rfl
    exact hrest hc
  obtain ⟨htake, hdrop⟩ := takeWhile_end hall hend
  have hsplit : split b.opening (List.replicate run b.opening ++ rest) =
      openers b (List.replicate run b.opening ++ rest) := by cases b <;> rfl
  rw [hsplit, openers, htake, hdrop]
  rfl

theorem Lexed.ofText_literal {b : Bracket} {run : Nat} {name : List Char} (hrun : 1 < run)
    (hname : ∀ c ∈ name, isNameChar c = true) (here : Position) (text behind : List Char) :
    ofText none here (Literal.write b run name text ++ behind) =
      ⟨Reading.literalTokens b run name text here, []⟩ ++
        ofText none (here.after (Literal.write b run name text)) behind := by
  have hargument := Reading.argument_written (b := b) hrun hname here text behind
  have hhead : (Literal.heading b name ++ (Literal.body b run text ++
      (Literal.closeRun b run ++ behind))).head? ≠ some b.opening := by
    cases b with
    | positional => simp [Literal.heading, Literal.body, Bracket.opening]
    | named =>
      cases name with
      | nil => simp [Literal.heading, Bracket.opening]
      | cons c more =>
        have hc := hname c List.mem_cons_self
        simp only [Literal.heading, List.cons_append, List.head?_cons, ne_eq, Option.some.injEq]
        rintro rfl
        revert hc
        decide
  obtain ⟨less, rfl⟩ := Nat.exists_eq_add_of_lt hrun
  have hwrite : Literal.write b (1 + less + 1) name text ++ behind =
      b.opening :: (List.replicate (1 + less) b.opening ++ (Literal.heading b name ++
        (Literal.body b (1 + less + 1) text ++ (Literal.closeRun b (1 + less + 1) ++ behind)))) := by
    simp [Literal.write, Literal.openRun, List.replicate_succ]
  have hlength : (Literal.openRun b (1 + less + 1)).length = 1 + less + 1 := List.length_replicate
  rw [hwrite, ofText, Lexeme.split_openRun hhead]
  simp only [hlength, hargument, PendingText.flush, List.nil_append]

theorem Literal.getLast?_write {b : Bracket} {run : Nat} (hrun : 0 < run) (name text : List Char) :
    (write b run name text).getLast? = some b.closing := by
  have hclose : closeRun b run ≠ [] := by simp [closeRun, Nat.ne_of_gt hrun]
  rw [write, ← List.append_assoc, ← List.append_assoc, List.getLast?_append_of_ne_nil _ hclose,
    closeRun, List.getLast?_replicate, if_neg (Nat.ne_of_gt hrun)]

/-- A text that is written as a literal argument is read back, and reading goes on right behind it. -/
theorem tokenize_literal {run : Nat} (hrun : 2 ≤ run) (b : Bracket) {macroName name : List Char}
    (hnonempty : macroName ≠ []) (hletters : ∀ c ∈ macroName, isNameChar c = true)
    (hname : ∀ c ∈ name, isNameChar c = true) (text behind : List Char) :
    let start := Position.origin.after (escapeChar :: macroName)
    let written := Literal.write b run name text
    tokenize (.ofList (escapeChar :: macroName ++ written ++ behind)) =
      ⟨⟨.macroName MacroName.toplevel, .origin⟩ :: ⟨.opener .positional, .origin⟩ ::
          ⟨.macroName (.ofList macroName), .origin⟩ ::
            Reading.literalTokens b run name text start, []⟩ ++
        Lexed.ofText none (start.after written) (Literal.dropLastNewline behind) := by
  intro start written
  have hlast : (escapeChar :: macroName ++ written).getLast? ≠ some '\n' := by
    rw [List.getLast?_append, Literal.getLast?_write (Nat.lt_of_lt_of_le Nat.zero_lt_two hrun)]
    simpa using Literal.closing_ne_newline b
  have hhead : ∀ c ∈ (written ++ Literal.dropLastNewline behind).head?, isNameChar c = false := by
    obtain ⟨less, rfl⟩ := Nat.exists_eq_add_of_le' hrun
    rintro c ⟨⟩
    cases b <;> decide
  have hread : Lexed.ofText none start (written ++ Literal.dropLastNewline behind) =
      ⟨Reading.literalTokens b run name text start, []⟩ ++
        Lexed.ofText none (start.after written) (Literal.dropLastNewline behind) :=
    Lexed.ofText_literal hrun hname start text _
  rw [tokenize, documentText, String.toList_ofList, Literal.dropLastNewline_append fun _ => hlast,
    List.append_assoc, List.cons_append, Lexed.ofText,
    Lexeme.split_macroName hnonempty hletters hhead]
  simp only
  rw [hread]
  rfl

theorem tokenize_literal_geese :
    let text := "[[geese]]\n".toList
    let start := Position.origin.after [escapeChar, 'x']
    let written := Literal.write .named 2 ['t', 'o'] text
    2 ≤ 2 ∧ ['x'] ≠ [] ∧ (∀ c ∈ ['x'], isNameChar c = true) ∧ (∀ c ∈ ['t', 'o'], isNameChar c = true) ∧
      tokenize (.ofList (escapeChar :: ['x'] ++ written ++ ['\x7d', '\n'])) =
        ⟨⟨.macroName MacroName.toplevel, .origin⟩ :: ⟨.opener .positional, .origin⟩ ::
            ⟨.macroName (.ofList ['x']), .origin⟩ ::
              Reading.literalTokens .named 2 ['t', 'o'] text start, []⟩ ++
          Lexed.ofText none (start.after written) (Literal.dropLastNewline ['\x7d', '\n']) :=
  ⟨Nat.le_refl 2, List.cons_ne_nil _ _, List.all_eq_true.mp rfl, List.all_eq_true.mp rfl,
    tokenize_literal (Nat.le_refl 2) .named (List.cons_ne_nil _ _) (List.all_eq_true.mp rfl)
      (List.all_eq_true.mp rfl) _ _⟩

end Macromark
