import Macromark.Proofs.Token.Seam

/-!
# Escaped text

With an escape in front of every character that needs one, a text is read as it
is (`Lexed.ofText_escaped`): character after character it becomes one plaintext.
Several texts with blank lines between them become as many plaintexts with
breaks between them (`tokenize_writeParagraphs`).
-/

namespace Macromark

def escapedChar (c : Char) : List Char := if isEscapable c then [escapeChar, c] else [c]

def escaped (text : List Char) : List Char := text.flatMap escapedChar

def escapedParagraphs (texts : List (List Char)) : List Char :=
  ['\n', '\n'].intercalate (texts.map escaped)

def writeParagraphs (texts : List String) : String :=
  "\n\n".intercalate (texts.map fun text => .ofList (escaped text.toList))

/-- A text that is a paragraph as it is. -/
structure ParagraphText (text : List Char) : Prop where
  ne_nil : text ≠ []
  unbroken : ¬ ['\n', '\n'] <:+: text
  head : text.head? ≠ some '\n'
  last : text.getLast? ≠ some '\n'

def paragraphKinds (texts : List String) : List TokenKind :=
  (texts.map .plaintext).intersperse .paragraphBreak

variable {c : Char} {text behind : List Char}

-- ----------------------------------------------------------------------------
-- One character
-- ----------------------------------------------------------------------------

theorem head?_escapedChar_newline (c : Char) (rest : List Char) :
    (escapedChar c ++ rest).head? = some '\n' ↔ c = '\n' := by
  unfold escapedChar
  by_cases hc : isEscapable c = true
  · have hne : c ≠ '\n' := by
      rintro rfl
      simp [isEscapable, escapeChar] at hc
    simp [hc, hne, escapeChar]
  · simp [hc]

theorem head?_escaped (text behind : List Char) :
    (escaped text ++ behind).head? = some '\n' ↔ (text ++ behind).head? = some '\n' := by
  cases text with
  | nil => rfl
  | cons c rest =>
    rw [escaped, List.flatMap_cons, List.append_assoc, head?_escapedChar_newline]
    simp

theorem getLast?_escaped (text : List Char) : (escaped text).getLast? = text.getLast? := by
  cases text using List.reverseRecOn with
  | nil => rfl
  | append_singleton front c =>
    have hc : (escapedChar c).getLast? = some c := by
      unfold escapedChar
      split <;> rfl
    rw [escaped, List.flatMap_append, List.flatMap_singleton, List.getLast?_append, hc]
    simp

namespace Lexeme

theorem split_escaped (hc : isEscapable c = true) (rest : List Char) :
    split escapeChar (c :: rest) = (⟨.escaped, [escapeChar, c]⟩, rest) := by
  simp [split, afterEscape, hc]

theorem split_plain (hc : isPlainChar c = true) (rest : List Char) :
    split c rest = (⟨.text, c :: rest.takeWhile isPlainChar⟩, rest.dropWhile isPlainChar) := by
  simp only [isPlainChar, isEscapable, Bool.and_eq_true, Bool.not_eq_true', Bool.or_eq_false_iff,
    beq_eq_false_iff_ne, bne_iff_ne] at hc
  obtain ⟨⟨⟨⟨⟨hescape, hopen⟩, hclose⟩, hbrace⟩, hbrace'⟩, hline⟩ := hc
  simp [split, hescape, hopen, hclose, hbrace, hbrace', hline]

theorem split_newline {rest : List Char} (h : rest.head? ≠ some '\n') :
    split '\n' rest = (⟨.newline, ['\n']⟩, rest) := by
  have hsplit : split '\n' rest = lineEnds rest := rfl
  have hnone : rest.takeWhile (· == '\n') = [] := by
    cases rest with
    | nil => rfl
    | cons d rest => exact List.takeWhile_cons_of_neg (by simpa using h)
  rw [hsplit, lineEnds, hnone]

end Lexeme

namespace Lexed

theorem ofText_text (hc : isPlainChar c = true) (pending : Option PendingText) (here : Position)
    (rest : List Char) :
    ofText pending here (c :: rest) =
      ofText (some (.push pending here (c :: rest.takeWhile isPlainChar)))
        (here.after (c :: rest.takeWhile isPlainChar)) (rest.dropWhile isPlainChar) := by
  rw [ofText, Lexeme.split_plain hc]

/-- Plain text may as well be read one character at a time. -/
theorem ofText_plain (hc : isPlainChar c = true) (pending : Option PendingText) (here : Position)
    (rest : List Char) :
    ofText pending here (c :: rest) = ofText (some (.push pending here [c])) (here.next c) rest := by
  rw [ofText_text hc]
  cases rest with
  | nil => rfl
  | cons d rest =>
    by_cases hd : isPlainChar d = true
    · rw [ofText_text hd, List.takeWhile_cons_of_pos hd, List.dropWhile_cons_of_pos hd]
      cases pending <;> simp [PendingText.push]
    · rw [List.takeWhile_cons_of_neg hd, List.dropWhile_cons_of_neg hd, Position.after_cons,
        Position.after_nil]

theorem ofText_escapedChar (pending : Option PendingText) (here : Position) {rest : List Char}
    (h : c = '\n' → rest.head? ≠ some '\n') :
    ofText pending here (escapedChar c ++ rest) =
      ofText (some (.push pending here [c])) (here.after (escapedChar c)) rest := by
  unfold escapedChar
  by_cases hc : isEscapable c = true
  · rw [if_pos hc, List.cons_append, List.singleton_append, ofText, Lexeme.split_escaped hc]
    rfl
  · rw [if_neg hc, List.singleton_append]
    by_cases hline : c = '\n'
    · subst hline
      rw [ofText, Lexeme.split_newline (h rfl)]
    · exact ofText_plain (by simp [isPlainChar, hc, hline]) ..

-- ----------------------------------------------------------------------------
-- Texts
-- ----------------------------------------------------------------------------

/-- An escaped text is read as it is, behind the text that waits already. -/
theorem ofText_escaped (hne : text ≠ []) (hunbroken : ¬ ['\n', '\n'] <:+: text)
    (hlast : text.getLast? ≠ some '\n') (pending : Option PendingText) (here : Position)
    (behind : List Char) : ∃ start there,
      ofText pending here (escaped text ++ behind) =
        ofText (some ⟨start, (pending.map (·.text)).getD [] ++ text⟩) there behind := by
  have hpush : ∀ c, ∃ start, PendingText.push pending here [c] =
      ⟨start, (pending.map (·.text)).getD [] ++ [c]⟩ := by
    intro c
    cases pending <;> exact ⟨_, rfl⟩
  induction text generalizing pending here with
  | nil => exact absurd rfl hne
  | cons c rest ih =>
    obtain ⟨start, hstart⟩ := hpush c
    cases rest with
    | nil =>
      have hc : c ≠ '\n' := by simpa using hlast
      refine ⟨start, here.after (escapedChar c), ?_⟩
      rw [escaped, List.flatMap_singleton, ofText_escapedChar _ _ fun heq => absurd heq hc, hstart]
    | cons d rest =>
      have hnext : c = '\n' → (escaped (d :: rest) ++ behind).head? ≠ some '\n' := by
        rintro rfl
        rw [ne_eq, head?_escaped]
        simp only [List.cons_append, List.head?_cons, Option.some.injEq]
        rintro rfl
        exact hunbroken (List.prefix_append ['\n', '\n'] rest).isInfix
      obtain ⟨start', there, hthere⟩ := ih (by simp)
        (fun hbroken => hunbroken (hbroken.trans (List.suffix_cons c _).isInfix))
        (by rwa [List.getLast?_cons_cons] at hlast)
        (some (.push pending here [c])) (here.after (escapedChar c)) fun _ => ⟨_, rfl⟩
      refine ⟨start', there, ?_⟩
      rw [escaped, List.flatMap_cons, List.append_assoc, ← escaped, ofText_escapedChar _ _ hnext,
        hthere, hstart]
      simp

/-- A blank line ends the text in front of it. -/
theorem ofText_break (pending : PendingText) (here : Position) (h : behind.head? ≠ some '\n') :
    ofText (some pending) here ('\n' :: '\n' :: behind) =
      ⟨[⟨.plaintext (.ofList pending.text), pending.start⟩, ⟨.paragraphBreak, here⟩], []⟩ ++
        ofText none (here.after ['\n', '\n']) behind := by
  rw [ofText, lineEnds_seam h]
  rfl

end Lexed

-- ----------------------------------------------------------------------------
-- Documents
-- ----------------------------------------------------------------------------

theorem escapedParagraphs_one (text : List Char) : escapedParagraphs [text] = escaped text :=
  List.intercalate_singleton

theorem escapedParagraphs_cons (text next : List Char) (rest : List (List Char)) :
    escapedParagraphs (text :: next :: rest) =
      escaped text ++ '\n' :: '\n' :: escapedParagraphs (next :: rest) := by
  rw [escapedParagraphs, List.map_cons, List.map_cons, List.intercalate_cons_cons,
    List.append_assoc]
  rfl

theorem escapedParagraphs_front (text : List Char) (rest : List (List Char)) :
    ∃ behind, escapedParagraphs (text :: rest) = escaped text ++ behind := by
  cases rest with
  | nil => exact ⟨[], by rw [escapedParagraphs_one, List.append_nil]⟩
  | cons next rest => exact ⟨_, escapedParagraphs_cons text next rest⟩

theorem head?_escapedParagraphs (h : ParagraphText text) (rest : List (List Char)) :
    (escapedParagraphs (text :: rest)).head? ≠ some '\n' := by
  obtain ⟨behind, hfront⟩ := escapedParagraphs_front text rest
  rw [hfront, ne_eq, head?_escaped, List.head?_append_of_ne_nil text h.ne_nil]
  exact h.head

theorem escapedParagraphs_ne_nil (h : ParagraphText text) (rest : List (List Char)) :
    escapedParagraphs (text :: rest) ≠ [] := by
  obtain ⟨behind, hfront⟩ := escapedParagraphs_front text rest
  rw [hfront]
  intro hnil
  have hlast := getLast?_escaped text
  rw [(List.append_eq_nil_iff.mp hnil).1] at hlast
  exact h.ne_nil (List.getLast?_eq_none_iff.mp hlast.symm)

theorem getLast?_escapedParagraphs {texts : List (List Char)}
    (h : ∀ text ∈ texts, ParagraphText text) : (escapedParagraphs texts).getLast? ≠ some '\n' := by
  induction texts with
  | nil => simp [escapedParagraphs]
  | cons text rest ih =>
    cases rest with
    | nil =>
      rw [escapedParagraphs_one, getLast?_escaped]
      exact (h text List.mem_cons_self).last
    | cons next rest =>
      have hbehind := ih fun other hother => h other (List.mem_cons_of_mem _ hother)
      rw [escapedParagraphs_cons, List.getLast?_append]
      cases hlist : escapedParagraphs (next :: rest) with
      | nil => exact absurd hlist (escapedParagraphs_ne_nil (h next (by simp)) rest)
      | cons c behind =>
        rw [hlist] at hbehind
        simpa [List.getLast?_cons_cons] using hbehind

theorem toList_writeParagraphs (texts : List String) :
    (writeParagraphs texts).toList = escapedParagraphs (texts.map (·.toList)) := by
  simp [writeParagraphs, escapedParagraphs, Function.comp_def]

theorem Lexed.ofText_paragraphs {texts : List (List Char)} (h : ∀ text ∈ texts, ParagraphText text)
    (here : Position) :
    (ofText none here (escapedParagraphs texts)).diagnostics = [] ∧
      (ofText none here (escapedParagraphs texts)).tokens.map (·.kind) =
        paragraphKinds (texts.map .ofList) ++ [.closer .positional] := by
  induction texts generalizing here with
  | nil => simp [escapedParagraphs, ofText, paragraphKinds, PendingText.flush]
  | cons text rest ih =>
    have htext := h text List.mem_cons_self
    cases rest with
    | nil =>
      obtain ⟨start, there, hread⟩ :=
        ofText_escaped htext.ne_nil htext.unbroken htext.last none here []
      rw [List.append_nil, ofText] at hread
      rw [escapedParagraphs_one, hread]
      exact ⟨rfl, rfl⟩
    | cons next rest =>
      obtain ⟨start, there, hread⟩ :=
        ofText_escaped htext.ne_nil htext.unbroken htext.last none here
          ('\n' :: '\n' :: escapedParagraphs (next :: rest))
      obtain ⟨hsilent, hkinds⟩ :=
        ih (fun other hother => h other (List.mem_cons_of_mem _ hother)) (there.after ['\n', '\n'])
      rw [ofText_break _ _ (head?_escapedParagraphs (h next (by simp)) rest)] at hread
      rw [escapedParagraphs_cons, hread]
      refine ⟨hsilent, ?_⟩
      rw [tokens_append, List.map_append, hkinds]
      rfl

/-- Paragraphs that are nothing but text are read as they are. -/
theorem tokenize_writeParagraphs {texts : List String}
    (h : ∀ text ∈ texts, ParagraphText text.toList) :
    (tokenize (writeParagraphs texts)).diagnostics = [] ∧
      contentKinds (writeParagraphs texts) = paragraphKinds texts := by
  have hall : ∀ text ∈ texts.map (·.toList), ParagraphText text := List.forall_mem_map.mpr h
  obtain ⟨hsilent, hkinds⟩ := Lexed.ofText_paragraphs hall .origin
  have htext : documentText (writeParagraphs texts) = escapedParagraphs (texts.map (·.toList)) := by
    have hlist := toList_writeParagraphs texts
    rw [documentText_eq (hlist ▸ getLast?_escapedParagraphs hall), hlist]
  rw [tokenize, contentKinds, htext, hkinds, List.dropLast_concat, List.map_map]
  exact ⟨hsilent, by simp [Function.comp_def]⟩

end Macromark
