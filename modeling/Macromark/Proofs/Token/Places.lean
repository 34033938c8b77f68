import Macromark.Proofs.Text.Position
import Macromark.Token.Lexer
import Mathlib.Data.List.TakeWhile

/-!
# Where tokens stand

The tokens of a document lie one behind the other in its text (`Token.Tiles`):
each stands at the place at which the one before it ends, and there the text reads
what the token was made of (`Token.Stands`). Only the text of a literal argument
of which nothing is kept lies between two tokens. `Lexed.tiles_ofText` says so of
every text; that the positions of tokens never decrease and are positions of the
text follows from it (`Tiles.pairwise`, `Tiles.position_in`).
-/

namespace Macromark

/-- Whether a node takes its position from tokens of this kind. -/
def TokenKind.MakesNode : TokenKind → Prop
  | .plaintext _ | .macroName _ | .paragraphBreak => True
  | _ => False

theorem Literal.content_of_raw {b : Bracket} {run : Nat} {text : List Char}
    (h : (scan b run text).raw = []) : (scan b run text).content = [] := by
  cases text with
  | nil => rw [scan]
  | cons c rest =>
    rw [scan] at h ⊢
    split_ifs at h ⊢
    · simp [prepend] at h
    · simp [prepend] at h
    · rfl
    · simp [prepend] at h

namespace Token

/-- Plain text, and what is written for it. -/
inductive Spelled : List Char → List Char → Prop
  | nil : Spelled [] []
  | plain {c : Char} {written text : List Char} : isPlainChar c = true ∨ c = '\n' →
      Spelled written text → Spelled (c :: written) (c :: text)
  | escaped {c : Char} {written text : List Char} : isEscapable c = true →
      Spelled written text → Spelled (escapeChar :: c :: written) (c :: text)

/-- The name of an argument and what is written for it before `back`: its sign may be missing. -/
inductive Signed : List Char → List Char → List Char → Prop
  | sign {name : List Char} (back : List Char) : (∀ c ∈ name, isNameChar c = true) →
      Signed name (name ++ ['=']) back
  | missing {name back : List Char} : (∀ c ∈ name, isNameChar c = true) →
      (∀ c ∈ back.head?, isNameChar c = false ∧ c ≠ '=') → Signed name name back

/-- What introduces the text of a literal argument: a run of openers and, in braces, a name. -/
inductive Introduction (run : Nat) : Bracket → List Char → List Char → Prop
  | positional {back : List Char} : back.head? ≠ some Bracket.positional.opening →
      Introduction run .positional (Literal.openRun .positional run) back
  | named {name written back : List Char} :
      (written ++ back).head? ≠ some Bracket.named.opening → Signed name written back →
      Introduction run .named (Literal.openRun .named run ++ written) back

/-- The text of a literal argument as it is written, between `front` and `back`. -/
structure Raw (b : Bracket) (run : Nat) (front raw back : List Char) : Prop where
  many : 1 < run
  introduced : ∃ before written, front = before ++ written ∧ Introduction run b written (raw ++ back)
  whole : (Literal.scan b run (raw ++ back)).raw = raw

/-- What is written for a token, between two parts of the text. -/
inductive Stands : List Char → List Char → List Char → TokenKind → Prop
  | macroName {name back : List Char} (front : List Char) : (∀ c ∈ name, isNameChar c = true) →
      (∀ c ∈ back.head?, isNameChar c = false) → (∀ c ∈ (name ++ back).head?, isEscapable c = false) →
      Stands front (escapeChar :: name) back (.macroName (.ofList name))
  | paragraphBreak {count : Nat} {back : List Char} (front : List Char) : 1 < count →
      back.head? ≠ some '\n' → Stands front (List.replicate count '\n') back .paragraphBreak
  | opener {b : Bracket} {run : Nat} {back : List Char} (front : List Char) : 0 < run →
      back.head? ≠ some b.opening → Stands front (Literal.openRun b run) back (.opener b)
  | argumentName {run : Nat} {name written back : List Char} (front : List Char) : 0 < run →
      (written ++ back).head? ≠ some Bracket.named.opening → Signed name written back →
      Stands (front ++ Literal.openRun .named run) written back (.argumentName (.ofList name))
  | text {written text : List Char} (front back : List Char) : Spelled written text → text ≠ [] →
      Stands front written back (.plaintext (.ofList text))
  | closer (b : Bracket) (front back : List Char) : Stands front [b.closing] back (.closer b)
  | literal {b : Bracket} {run : Nat} {front raw back : List Char} : Raw b run front raw back →
      (Literal.scan b run (raw ++ back)).text ≠ [] →
      Stands front raw back (.plaintext (.ofList (Literal.scan b run (raw ++ back)).text))
  | literalCloser {b : Bracket} {run : Nat} {front raw back : List Char} :
      Raw b run front raw (Literal.closeRun b run ++ back) →
      Stands (front ++ raw) (Literal.closeRun b run) back (.closer b)
  | ending (b : Bracket) (front : List Char) : Stands front [] [] (.closer b)

/-- Tokens that lie one behind the other in a text, from behind `front` up to behind `last`. -/
inductive Tiles (whole : List Char) : List Char → List Token → List Char → Prop
  | nil (front : List Char) : Tiles whole front [] front
  | cons {front written back last : List Char} {kind : TokenKind} {rest : List Token} :
      whole = front ++ written ++ back → Stands front written back kind →
      Tiles whole (front ++ written) rest last → Tiles whole front (⟨kind, .behind front⟩ :: rest) last
  /-- The text of a literal argument without any makes no token. -/
  | blank {b : Bracket} {run : Nat} {front raw back last : List Char} {rest : List Token} :
      whole = front ++ raw ++ back → Raw b run front raw back →
      (Literal.scan b run (raw ++ back)).text = [] →
      Tiles whole (front ++ raw) rest last → Tiles whole front rest last

variable {whole front written back last between text : List Char} {first second : List Token}

theorem Spelled.append {more moreText : List Char} (h : Spelled written text)
    (hmore : Spelled more moreText) : Spelled (written ++ more) (text ++ moreText) := by
  induction h with
  | nil => exact hmore
  | plain hc _ ih => exact .plain hc ih
  | escaped hc _ ih => exact .escaped hc ih

theorem Spelled.of_plain (h : ∀ c ∈ text, isPlainChar c = true) : Spelled text text := by
  induction text with
  | nil => exact .nil
  | cons c rest ih =>
    exact .plain (.inl (h c List.mem_cons_self)) (ih fun d hd => h d (List.mem_cons_of_mem c hd))

theorem Spelled.written_ne_nil (h : Spelled written text) (hne : text ≠ []) : written ≠ [] := by
  cases h with
  | nil => exact absurd rfl hne
  | plain | escaped => exact List.cons_ne_nil _ _

theorem Stands.written_ne_nil {kind : TokenKind} (h : Stands front written back kind)
    (hkind : kind.MakesNode) : written ≠ [] := by
  cases h with
  | macroName => exact List.cons_ne_nil _ _
  | paragraphBreak _ hcount => simpa using Nat.ne_of_gt (Nat.lt_of_succ_lt hcount)
  | text _ _ hspelled hne => exact hspelled.written_ne_nil hne
  | literal hraw hne =>
    rintro rfl
    refine hne ?_
    rw [Literal.text, Literal.content_of_raw hraw.whole]
    rfl
  | opener | argumentName | closer | literalCloser | ending => exact hkind.elim

namespace Tiles

theorem one {kind : TokenKind} (hwhole : whole = front ++ written ++ back)
    (h : Stands front written back kind) :
    Tiles whole front [⟨kind, .behind front⟩] (front ++ written) := .cons hwhole h (.nil _)

theorem ending (b : Bracket) (whole : List Char) :
    Tiles whole whole [⟨.closer b, .behind whole⟩] whole := by
  have hwhole : whole = whole ++ [] ++ [] := by rw [List.append_nil, List.append_nil]
  have h := one hwhole (.ending b whole)
  rwa [List.append_nil] at h

theorem append (hfirst : Tiles whole front first between) (hsecond : Tiles whole between second last) :
    Tiles whole front (first ++ second) last := by
  induction hfirst with
  | nil => exact hsecond
  | cons hwhole hstands _ ih => exact .cons hwhole hstands (ih hsecond)
  | blank hwhole hraw htext _ ih => exact .blank hwhole hraw htext (ih hsecond)

/-- Every token stands at a place behind which the text goes on. -/
theorem position (h : Tiles whole front first last) : ∀ token ∈ first,
    ∃ read back, whole = front ++ read ++ back ∧ token.position = .behind (front ++ read) := by
  have hbehind : ∀ {front written : List Char} {rest : List Token},
      (∀ token ∈ rest, ∃ read back, whole = front ++ written ++ read ++ back ∧
        token.position = .behind (front ++ written ++ read)) →
      ∀ token ∈ rest, ∃ read back, whole = front ++ read ++ back ∧
        token.position = .behind (front ++ read) := by
    intro front written rest hrest token htoken
    obtain ⟨read, back, hwhole, hposition⟩ := hrest token htoken
    rw [List.append_assoc front] at hwhole hposition
    exact ⟨written ++ read, back, hwhole, hposition⟩
  induction h with
  | nil => exact fun _ htoken => absurd htoken List.not_mem_nil
  | @cons front written back _ _ _ hwhole _ _ ih =>
    intro token htoken
    rcases List.mem_cons.mp htoken with rfl | htoken
    · refine ⟨[], written ++ back, ?_, ?_⟩
      · rw [List.append_nil, hwhole, List.append_assoc]
      · rw [List.append_nil]
    · exact hbehind ih token htoken
  | blank _ _ _ _ ih => exact hbehind ih

theorem position_in (h : Tiles whole front first last) : ∀ token ∈ first, token.position.In whole := by
  intro token htoken
  obtain ⟨read, back, hwhole, hposition⟩ := h.position token htoken
  exact ⟨front ++ read, back, hwhole, hposition⟩

theorem upto (h : Tiles whole front first last) :
    ∀ token ∈ first, (Position.behind front).Upto token.position := by
  intro token htoken
  obtain ⟨read, -, -, hposition⟩ := h.position token htoken
  rw [hposition, ← Position.after_behind]
  exact Position.upto_after _ _

/-- A token that a node is made of takes up room in the text. -/
theorem lt_behind (h : Tiles whole front first last) :
    ∀ token ∈ first, token.kind.MakesNode → token.position < .behind whole := by
  induction h with
  | nil => exact fun _ htoken => absurd htoken List.not_mem_nil
  | @cons front written back _ kind _ hwhole hstands _ ih =>
    refine List.forall_mem_cons.mpr ⟨fun hkind => ?_, ih⟩
    rw [hwhole, List.append_assoc, ← Position.after_behind]
    exact Position.lt_after _ (by simp [hstands.written_ne_nil hkind])
  | blank _ _ _ _ ih => exact ih

/-- Positions never decrease along tokens that tile a text. -/
theorem pairwise (h : Tiles whole front first last) :
    first.Pairwise fun a b => a.position.Upto b.position := by
  induction h with
  | nil => exact .nil
  | @cons front written _ _ _ _ _ _ hrest ih =>
    refine List.pairwise_cons.mpr ⟨fun token htoken => ?_, ih⟩
    have hupto := hrest.upto token htoken
    rw [← Position.after_behind] at hupto
    exact (Position.upto_after _ _).trans hupto
  | blank _ _ _ _ ih => exact ih

end Tiles
end Token

open Token (Spelled Signed Introduction Raw Stands)

-- ----------------------------------------------------------------------------
-- Lexemes
-- ----------------------------------------------------------------------------

def Lexeme.Read (lexeme : Lexeme) (behind : List Char) : Prop :=
  match lexeme.kind with
  | .escaped => ∃ c, isEscapable c = true ∧ lexeme.text = [escapeChar, c]
  | .macroName => ∃ name, lexeme.text = escapeChar :: name ∧ (∀ c ∈ name, isNameChar c = true) ∧
      (∀ c ∈ behind.head?, isNameChar c = false) ∧
      ∀ c ∈ (name ++ behind).head?, isEscapable c = false
  | .opener b => ∃ run, 0 < run ∧ lexeme.text = Literal.openRun b run ∧
      behind.head? ≠ some b.opening
  | .closer b => lexeme.text = [b.closing]
  | .paragraphBreak => ∃ count, 1 < count ∧ lexeme.text = List.replicate count '\n' ∧
      behind.head? ≠ some '\n'
  | .newline => lexeme.text = ['\n']
  | .text => lexeme.text ≠ [] ∧ ∀ c ∈ lexeme.text, isPlainChar c = true

namespace Lexeme

/-- A run of one character takes all of them. -/
theorem eq_replicate_run (q : Char) (rest : List Char) :
    q :: rest.takeWhile (· == q) = List.replicate (rest.takeWhile (· == q)).length.succ q ∧
      (rest.dropWhile (· == q)).head? ≠ some q := by
  constructor
  · refine List.eq_replicate_iff.mpr ⟨rfl, fun c hc => ?_⟩
    rcases List.mem_cons.mp hc with rfl | hc
    · rfl
    · simpa using List.mem_takeWhile_imp hc
  · intro hnext
    have hnot := List.head?_dropWhile_not (· == q) rest
    rw [hnext] at hnot
    simp at hnot

theorem head?_dropWhile_name (rest : List Char) :
    ∀ c ∈ (rest.dropWhile isNameChar).head?, isNameChar c = false := by
  intro c hc
  have hnext := List.head?_dropWhile_not isNameChar rest
  rw [Option.mem_def.mp hc] at hnext
  simpa using hnext

theorem afterEscape_read (rest : List Char) : (afterEscape rest).1.Read (afterEscape rest).2 := by
  unfold afterEscape
  split
  · next c tail =>
    split
    · next hescapable => exact ⟨c, hescapable, rfl⟩
    · next hplain =>
      refine ⟨_, rfl, fun d hd => List.mem_takeWhile_imp hd, head?_dropWhile_name _, ?_⟩
      rw [List.takeWhile_append_dropWhile]
      simpa using hplain
  · exact ⟨[], rfl, by simp, by simp, by simp⟩

theorem openers_read (b : Bracket) (rest : List Char) : (openers b rest).1.Read (openers b rest).2 :=
  ⟨_, Nat.succ_pos _, eq_replicate_run b.opening rest⟩

theorem lineEnds_read (rest : List Char) : (lineEnds rest).1.Read (lineEnds rest).2 := by
  have hrun := eq_replicate_run '\n' rest
  unfold lineEnds
  split
  · rfl
  · next more hmore =>
    refine ⟨_, Nat.succ_lt_succ ?_, hrun⟩
    exact List.length_pos_iff.mpr hmore

theorem split_read (c : Char) (rest : List Char) : (split c rest).1.Read (split c rest).2 := by
  unfold split
  split
  · exact afterEscape_read rest
  · next hescape =>
    split
    · exact openers_read .positional rest
    · next hopen =>
      split
      · exact openers_read .named rest
      · next hopen' =>
        split
        · next h => exact congrArg ([·]) h
        · next hclose =>
          split
          · next h => exact congrArg ([·]) h
          · next hclose' =>
            split
            · exact lineEnds_read rest
            · next hnewline =>
              have hplain : isPlainChar c = true := by simp [isPlainChar, isEscapable, *]
              refine ⟨List.cons_ne_nil _ _, fun d hd => ?_⟩
              rcases List.mem_cons.mp hd with rfl | hd
              · exact hplain
              · exact List.mem_takeWhile_imp hd

namespace Read

variable {lexeme : Lexeme} {behind : List Char} {b : Bracket}

theorem spelled_escaped (h : lexeme.Read behind) (hkind : lexeme.kind = .escaped) :
    Spelled lexeme.text (lexeme.text.drop 1) ∧ lexeme.text.drop 1 ≠ [] := by
  simp only [Read, hkind] at h
  obtain ⟨c, hescapable, htext⟩ := h
  rw [htext]
  exact ⟨.escaped hescapable .nil, List.cons_ne_nil c []⟩

theorem spelled_text (h : lexeme.Read behind) (hkind : lexeme.kind = .text) :
    Spelled lexeme.text lexeme.text ∧ lexeme.text ≠ [] := by
  simp only [Read, hkind] at h
  exact ⟨.of_plain h.2, h.1⟩

theorem spelled_newline (h : lexeme.Read behind) (hkind : lexeme.kind = .newline) :
    Spelled lexeme.text lexeme.text ∧ lexeme.text ≠ [] := by
  simp only [Read, hkind] at h
  rw [h]
  exact ⟨.plain (.inr rfl) .nil, List.cons_ne_nil _ _⟩

theorem stands_macroName (h : lexeme.Read behind) (hkind : lexeme.kind = .macroName)
    (front : List Char) :
    Stands front lexeme.text behind (.macroName (.ofList (lexeme.text.drop 1))) := by
  simp only [Read, hkind] at h
  obtain ⟨name, htext, hname, hbehind, hescapable⟩ := h
  rw [htext]
  exact .macroName front hname hbehind hescapable

theorem stands_paragraphBreak (h : lexeme.Read behind) (hkind : lexeme.kind = .paragraphBreak)
    (front : List Char) : Stands front lexeme.text behind .paragraphBreak := by
  simp only [Read, hkind] at h
  obtain ⟨count, hcount, htext, hbehind⟩ := h
  rw [htext]
  exact .paragraphBreak front hcount hbehind

theorem stands_closer (h : lexeme.Read behind) (hkind : lexeme.kind = .closer b)
    (front : List Char) : Stands front lexeme.text behind (.closer b) := by
  simp only [Read, hkind] at h
  rw [h]
  exact .closer b front behind

theorem run_opener (h : lexeme.Read behind) (hkind : lexeme.kind = .opener b) :
    0 < lexeme.text.length ∧ lexeme.text = Literal.openRun b lexeme.text.length ∧
      behind.head? ≠ some b.opening := by
  simp only [Read, hkind] at h
  obtain ⟨run, hrun, htext, hbehind⟩ := h
  rw [htext, Literal.openRun, List.length_replicate]
  exact ⟨hrun, rfl, hbehind⟩

end Read
end Lexeme

-- ----------------------------------------------------------------------------
-- Pieces of a text
-- ----------------------------------------------------------------------------

/-- What is read off a text from behind `front` up to behind `last`. -/
structure Lexed.Tiles (whole front : List Char) (l : Lexed) (last : List Char) : Prop where
  tokens : Token.Tiles whole front l.tokens last
  diagnostics : ∀ d ∈ l.diagnostics, d.position.In whole

/-- Plain text that is still growing is all that is written between `front` and `last`. -/
def PendingText.Spans (front last : List Char) : Option PendingText → Prop
  | none => last = front
  | some p => p.start = .behind front ∧ p.text ≠ [] ∧
      ∃ written, last = front ++ written ∧ Spelled written p.text

/-- A reading goes on behind what it has read. -/
def Reading.Tiles (whole front : List Char) (r : Reading) : Prop :=
  ∃ last, r.lexed.Tiles whole front last ∧ whole = last ++ r.rest ∧ r.here = .behind last

variable {whole front last text : List Char} {b : Bracket} {run : Nat}

theorem Lexed.Tiles.append {first second : Lexed} {between : List Char}
    (hfirst : first.Tiles whole front between) (hsecond : second.Tiles whole between last) :
    (first ++ second).Tiles whole front last := by
  refine ⟨hfirst.tokens.append hsecond.tokens, fun d hd => ?_⟩
  rcases List.mem_append.mp hd with hd | hd
  · exact hfirst.diagnostics d hd
  · exact hsecond.diagnostics d hd

/-- What reports nothing. -/
theorem Lexed.Tiles.quiet {tokens : List Token} (h : Token.Tiles whole front tokens last) :
    Lexed.Tiles whole front ⟨tokens, []⟩ last :=
  ⟨h, fun _ hd => absurd hd List.not_mem_nil⟩

namespace PendingText

variable {pending : Option PendingText}

theorem Spans.push {written more : List Char} (h : Spans front last pending)
    (hmore : Spelled written more) (hne : more ≠ []) :
    Spans front (last ++ written) (some (push pending (.behind last) more)) := by
  cases pending with
  | none =>
    obtain rfl : last = front := h
    exact ⟨rfl, hne, written, rfl, hmore⟩
  | some p =>
    obtain ⟨hstart, hfilled, before, rfl, hspelled⟩ := h
    refine ⟨hstart, fun hempty => hne (List.append_eq_nil_iff.mp hempty).2, before ++ written, ?_, ?_⟩
    · rw [List.append_assoc]
    · exact hspelled.append hmore

theorem Spans.flush {back : List Char} (h : Spans front last pending) (hwhole : whole = last ++ back) :
    Token.Tiles whole front (flush pending) last := by
  cases pending with
  | none =>
    obtain rfl : last = front := h
    exact .nil last
  | some p =>
    obtain ⟨⟨start, growing⟩, rfl⟩ : ∃ q, p = q := ⟨p, rfl⟩
    obtain ⟨hstart, hfilled, written, rfl, hspelled⟩ := h
    obtain rfl : start = .behind front := hstart
    exact .one hwhole (.text front back hspelled hfilled)

theorem Spans.flushed {back between : List Char} {lexed : Lexed} (h : Spans front between pending)
    (hwhole : whole = between ++ back) (hlexed : lexed.Tiles whole between last) :
    Lexed.Tiles whole front ⟨PendingText.flush pending ++ lexed.tokens, lexed.diagnostics⟩ last :=
  (Lexed.Tiles.quiet (h.flush hwhole)).append hlexed

end PendingText

-- ----------------------------------------------------------------------------
-- Arguments
-- ----------------------------------------------------------------------------

/-- A scan takes a text apart. -/
theorem Literal.scan_append (b : Bracket) (run : Nat) (text : List Char) :
    text = (scan b run text).raw ++
      match (scan b run text).rest? with
      | some rest => closeRun b run ++ rest
      | none => [] := by
  have hrun : ∀ (q : Char) (rest : List Char), (List.replicate run q).isPrefixOf rest = true →
      rest = List.replicate run q ++ rest.drop run := by
    intro q rest hprefix
    obtain ⟨behind, rfl⟩ := List.isPrefixOf_iff_prefix.mp hprefix
    simp
  have hstep : ∀ (q : Char) (rest : List Char) (l : Literal),
      (List.replicate run q).isPrefixOf rest = true →
      rest.drop run = l.raw ++ (match l.rest? with
        | some rest => closeRun b run ++ rest
        | none => []) →
      escapeChar :: rest = escapeChar :: List.replicate run q ++ l.raw ++ (match l.rest? with
        | some rest => closeRun b run ++ rest
        | none => []) := by
    intro q rest l hprefix hdrop
    rw [List.append_assoc, ← hdrop, List.cons_append, ← hrun q rest hprefix]
  fun_induction scan b run text with
  | case1 => rfl
  | case2 c rest hescaped ih =>
    obtain ⟨rfl, hprefix⟩ := hescaped
    exact hstep _ _ _ hprefix ih
  | case3 c rest _ hescaped ih =>
    obtain ⟨rfl, hprefix⟩ := hescaped
    exact hstep _ _ _ hprefix ih
  | case4 c rest _ _ hfound => exact hrun _ _ hfound
  | case5 c rest _ _ _ ih => exact congrArg (c :: ·) ih

namespace Reading

theorem argumentName_tiles (before : List Char) (hfront : front = before ++ Literal.openRun .named run)
    (hwhole : whole = front ++ text) (hrun : 0 < run)
    (hnext : text.head? ≠ some Bracket.named.opening) :
    ∃ name written, (argumentName (.behind front) text).lexed.Tiles whole front (front ++ written) ∧
      text = written ++ (argumentName (.behind front) text).rest ∧
      (argumentName (.behind front) text).here = .behind (front ++ written) ∧
      Signed name written (argumentName (.behind front) text).rest := by
  have hname : ∀ c ∈ text.takeWhile isNameChar, isNameChar c = true :=
    fun c hc => List.mem_takeWhile_imp hc
  have hsplit := List.takeWhile_append_dropWhile (p := isNameChar) (l := text)
  have hback := Lexeme.head?_dropWhile_name text
  have htoken : ∀ {name written back : List Char}, text = written ++ back → Signed name written back →
      Token.Tiles whole front [⟨.argumentName (.ofList name), .behind front⟩] (front ++ written) := by
    rintro name written back rfl hsigned
    rw [← List.append_assoc] at hwhole
    exact .one hwhole (hfront ▸ .argumentName before hrun hnext hsigned)
  unfold argumentName
  simp only [Position.after_behind]
  split
  · next rest hrest =>
    rw [hrest] at hsplit
    have htext : text = text.takeWhile isNameChar ++ ['='] ++ rest := by simp [hsplit]
    refine ⟨_, _, .quiet (htoken htext (.sign rest hname)), htext, ?_, .sign rest hname⟩
    rw [← List.append_assoc, ← Position.after_behind _ ['=']]
    rfl
  · next hunsigned =>
    have hsigned : Signed (text.takeWhile isNameChar) (text.takeWhile isNameChar)
        (text.dropWhile isNameChar) := by
      refine .missing hname fun c hc => ⟨hback c hc, ?_⟩
      rintro rfl
      obtain ⟨rest, hrest⟩ := List.head?_eq_some_iff.mp (Option.mem_def.mp hc)
      exact hunsigned rest hrest
    refine ⟨_, _, ⟨htoken hsplit.symm hsigned, fun d hd => ?_⟩, hsplit.symm, rfl, hsigned⟩
    obtain rfl := List.mem_singleton.mp hd
    exact ⟨front ++ text.takeWhile isNameChar, _, by rw [List.append_assoc, hsplit, hwhole], rfl⟩

theorem literal_tiles {before introduction : List Char} {start : Position}
    (hfront : front = before ++ introduction) (hintroduction : Introduction run b introduction text)
    (hwhole : whole = front ++ text) (hrun : 1 < run) (hstart : start.In whole) :
    (literal b run start (.behind front) text).Tiles whole front := by
  have hscan := Literal.scan_append b run text
  -- the text without its closer, in a token of its own or not
  have htokens : ∀ {raw back : List Char}, text = raw ++ back → (Literal.scan b run text).raw = raw →
      Raw b run front raw back ∧ whole = front ++ raw ++ back ∧ Token.Tiles whole front
        (if (Literal.scan b run text).text = [] then [] else
          [⟨.plaintext (.ofList (Literal.scan b run text).text), .behind front⟩]) (front ++ raw) := by
    rintro raw back rfl hends
    have hraw : Raw b run front raw back := ⟨hrun, ⟨before, introduction, hfront, hintroduction⟩, hends⟩
    rw [← List.append_assoc] at hwhole
    refine ⟨hraw, hwhole, ?_⟩
    split
    · next hempty => exact .blank hwhole hraw hempty (.nil _)
    · next hfilled => exact .one hwhole (.literal hraw hfilled)
  unfold literal
  simp only [Position.after_behind]
  split
  · next rest hrest =>
    rw [hrest] at hscan
    obtain ⟨hraw, hsplit, htext⟩ := htokens hscan rfl
    rw [← List.append_assoc] at hsplit
    refine ⟨_, .quiet (htext.append (.one hsplit (.literalCloser hraw))), ?_, rfl⟩
    rwa [Literal.rest, hrest, Option.getD_some]
  · next hnone =>
    rw [hnone] at hscan
    obtain ⟨-, hsplit, htext⟩ := htokens hscan rfl
    rw [List.append_nil] at hsplit
    rw [← hsplit] at htext ⊢
    refine ⟨whole, ⟨htext.append (.ending b whole), fun d hd => ?_⟩, ?_, rfl⟩
    · obtain rfl := List.mem_singleton.mp hd
      exact hstart
    · rw [Literal.rest, hnone, Option.getD_none, List.append_nil]

theorem opened_tiles (hwhole : whole = front ++ Literal.openRun b run ++ text) (hrun : 0 < run)
    (hnext : text.head? ≠ some b.opening) :
    let opened : Reading :=
      ⟨⟨[⟨.opener b, .behind front⟩], []⟩, .behind (front ++ Literal.openRun b run), text⟩
    let named := if b = .named then opened.andThen argumentName else opened
    ∃ introduction, named.lexed.Tiles whole front (front ++ introduction) ∧
      whole = front ++ introduction ++ named.rest ∧ named.here = .behind (front ++ introduction) ∧
      Introduction run b introduction named.rest := by
  intro opened named
  have hopener : Lexed.Tiles whole front ⟨[⟨.opener b, .behind front⟩], []⟩
      (front ++ Literal.openRun b run) := .quiet (.one hwhole (.opener front hrun hnext))
  cases b with
  | positional => exact ⟨_, hopener, hwhole, rfl, .positional hnext⟩
  | named =>
    obtain ⟨name, written, htiles, htext, hhere, hsigned⟩ :=
      argumentName_tiles front rfl hwhole hrun hnext
    refine ⟨Literal.openRun .named run ++ written, ?_, ?_, ?_, .named (htext ▸ hnext) hsigned⟩
    · rw [← List.append_assoc]
      exact hopener.append htiles
    · rw [← List.append_assoc, List.append_assoc]
      exact hwhole.trans (congrArg _ htext)
    · rw [← List.append_assoc]
      exact hhere

theorem argument_tiles (hwhole : whole = front ++ Literal.openRun b run ++ text) (hrun : 0 < run)
    (hnext : text.head? ≠ some b.opening) :
    (argument b run (.behind front) (.behind (front ++ Literal.openRun b run)) text).Tiles whole front := by
  obtain ⟨introduction, hlexed, hbehind, hhere, hintroduction⟩ := opened_tiles hwhole hrun hnext
  have hstart : (Position.behind front).In whole :=
    ⟨front, _, by rw [hwhole, List.append_assoc], rfl⟩
  unfold argument
  simp only
  generalize (if b = .named then andThen ⟨⟨[⟨.opener b, .behind front⟩], []⟩,
      .behind (front ++ Literal.openRun b run), text⟩ argumentName
    else ⟨⟨[⟨.opener b, .behind front⟩], []⟩, .behind (front ++ Literal.openRun b run), text⟩)
    = named at hlexed hbehind hhere hintroduction ⊢
  split
  · next hliteral =>
    obtain ⟨last, htiles, hrest, hend⟩ := literal_tiles rfl hintroduction hbehind hliteral hstart
    rw [andThen, hhere]
    exact ⟨last, hlexed.append htiles, hrest, hend⟩
  · exact ⟨_, hlexed, hbehind, hhere⟩

end Reading

-- ----------------------------------------------------------------------------
-- Whole texts
-- ----------------------------------------------------------------------------

open Token.Tiles (one) in
open Lexed.Tiles (quiet) in
/-- The tokens that are read off a text tile it, with plain text that is still growing before it. -/
theorem Lexed.tiles_ofText (whole : List Char) (pending : Option PendingText) (here : Position)
    (text : List Char) : ∀ front last, PendingText.Spans front last pending → whole = last ++ text →
      here = .behind last → (Lexed.ofText pending here text).Tiles whole front whole := by
  have hgo : ∀ (c : Char) (last text : List Char), whole = last ++ c :: text →
      whole = last ++ (Lexeme.split c text).1.text ++ (Lexeme.split c text).2 := by
    intro c last text hwhole
    rw [List.append_assoc, Lexeme.split_append, hwhole]
  have hnone : ∀ last, PendingText.Spans last last none := fun _ => rfl
  fun_induction Lexed.ofText pending here text with
  | case1 pending here =>
    rintro front last hspans hwhole rfl
    rw [List.append_nil] at hwhole
    subst hwhole
    exact hspans.flushed (List.append_nil _).symm (quiet (.ending .positional whole))
  | case2 pending here c text lexeme behind hkind ih =>
    rintro front last hspans hwhole rfl
    obtain ⟨hspelled, hne⟩ := (Lexeme.split_read c text).spelled_escaped hkind
    exact ih _ _ (hspans.push hspelled hne) (hgo c last text hwhole) (Position.after_behind last _)
  | case3 pending here c text lexeme behind hkind ih =>
    rintro front last hspans hwhole rfl
    obtain ⟨hspelled, hne⟩ := (Lexeme.split_read c text).spelled_text hkind
    exact ih _ _ (hspans.push hspelled hne) (hgo c last text hwhole) (Position.after_behind last _)
  | case4 pending here c text lexeme behind hkind ih =>
    rintro front last hspans hwhole rfl
    obtain ⟨hspelled, hne⟩ := (Lexeme.split_read c text).spelled_newline hkind
    exact ih _ _ (hspans.push hspelled hne) (hgo c last text hwhole) (Position.after_behind last _)
  | case5 pending here c text lexeme behind hkind name ih =>
    rintro front last hspans hwhole rfl
    have hbehind := hgo c last text hwhole
    have htoken := one hbehind ((Lexeme.split_read c text).stands_macroName hkind last)
    exact (hspans.flushed hwhole (quiet htoken)).append
      (ih _ _ (hnone _) hbehind (Position.after_behind last _))
  | case6 pending here c text lexeme behind hkind count surplus ih =>
    rintro front last hspans hwhole rfl
    have hbehind := hgo c last text hwhole
    have htoken := one hbehind ((Lexeme.split_read c text).stands_paragraphBreak hkind last)
    have hbreak : Lexed.Tiles whole last ⟨[⟨.paragraphBreak, .behind last⟩], surplus⟩
        (last ++ lexeme.text) := by
      refine ⟨htoken, fun d hd => ?_⟩
      simp only [surplus] at hd
      split at hd
      · obtain rfl := List.mem_singleton.mp hd
        exact ⟨last, _, hwhole, rfl⟩
      · cases hd
    exact (hspans.flushed hwhole hbreak).append
      (ih _ _ (hnone _) hbehind (Position.after_behind last _))
  | case7 pending here c text lexeme behind b hkind ih =>
    rintro front last hspans hwhole rfl
    have hbehind := hgo c last text hwhole
    have htoken := one hbehind ((Lexeme.split_read c text).stands_closer hkind last)
    exact (hspans.flushed hwhole (quiet htoken)).append
      (ih _ _ (hnone _) hbehind (Position.after_behind last _))
  | case8 pending here c text lexeme behind b hkind read ih =>
    rintro front last hspans hwhole rfl
    obtain ⟨hpos, hrun, hnext⟩ := (Lexeme.split_read c text).run_opener hkind
    have hbehind := hgo c last text hwhole
    rw [hrun] at hbehind
    obtain ⟨end', htiles, hrest, hend⟩ := Reading.argument_tiles hbehind hpos hnext
    have hread : read = Reading.argument b lexeme.text.length (.behind last)
        (.behind (last ++ Literal.openRun b lexeme.text.length)) (Lexeme.split c text).2 := by
      rw [← show lexeme.text = Literal.openRun b lexeme.text.length from hrun]
      exact congrArg (Reading.argument b _ _ · _) (Position.after_behind last _)
    rw [hread] at ih ⊢
    exact (hspans.flushed hwhole htiles).append (ih _ _ (hnone _) hrest hend)

-- ----------------------------------------------------------------------------
-- Documents
-- ----------------------------------------------------------------------------

theorem tokenize_tiles (source : String) :
    (tokenize source).tokens.take 2 =
        [⟨.macroName MacroName.toplevel, .origin⟩, ⟨.opener .positional, .origin⟩] ∧
      Token.Tiles (documentText source) [] ((tokenize source).tokens.drop 2) (documentText source) ∧
      ∀ d ∈ (tokenize source).diagnostics, d.position.In (documentText source) := by
  have htiles := Lexed.tiles_ofText (documentText source) none .origin _ [] [] rfl rfl rfl
  exact ⟨rfl, htiles.tokens, htiles.diagnostics⟩

theorem tokenize_position_in (source : String) :
    ∀ token ∈ (tokenize source).tokens, token.position.In (documentText source) := by
  obtain ⟨hopening, htiles, -⟩ := tokenize_tiles source
  intro token htoken
  rw [← List.take_append_drop 2 (tokenize source).tokens, hopening] at htoken
  simp only [List.cons_append, List.nil_append, List.mem_cons] at htoken
  rcases htoken with rfl | rfl | htoken
  · exact .origin _
  · exact .origin _
  · exact htiles.position_in token htoken

/-- Positions never decrease along the tokens of a document. -/
theorem tokenize_pairwise (source : String) :
    (tokenize source).tokens.Pairwise fun a b => a.position.Upto b.position := by
  obtain ⟨hopening, htiles, -⟩ := tokenize_tiles source
  rw [← List.take_append_drop 2 (tokenize source).tokens, hopening]
  simp only [List.cons_append, List.nil_append, List.pairwise_cons, List.mem_cons, forall_eq_or_imp]
  exact ⟨⟨.refl _, htiles.upto⟩, htiles.upto, htiles.pairwise⟩

end Macromark
