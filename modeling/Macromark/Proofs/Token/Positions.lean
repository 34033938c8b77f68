import Macromark.Proofs.Text.Position
import Macromark.Token.Lexer

/-!
# Where macros and arguments begin

No two macros begin at one position, no two arguments do, and no macro begins
where an argument does: their positions ascend through the document
(`Lexed.rising_ofText`). Only the macro around the document, which stands in no
text, shares its position with another one.
-/

namespace Macromark

namespace Token

/-- The position of a macro or of an argument. -/
def start? (token : Token) : Option Position :=
  match token.kind with
  | .macroName _ | .opener _ => some token.position
  | _ => none

def starts (tokens : List Token) : List Position := tokens.filterMap start?

@[simp] theorem starts_append (first second : List Token) :
    starts (first ++ second) = starts first ++ starts second := List.filterMap_append

/-- Macros and arguments begin one after another, the first of them at `here` or later. -/
structure Rising (here : Position) (tokens : List Token) : Prop where
  ascending : (starts tokens).Pairwise (· < ·)
  behind : ∀ p ∈ starts tokens, here.Upto p

variable {here behind : Position} {first second : List Token}

theorem Rising.quiet (h : starts second = []) : Rising here second :=
  ⟨h ▸ .nil, by simp [h]⟩

theorem Rising.upto (hbehind : here.Upto behind) (h : Rising behind second) : Rising here second :=
  ⟨h.ascending, fun p hp => hbehind.trans (h.behind p hp)⟩

theorem Rising.after (hfirst : starts first = []) (hbehind : here.Upto behind)
    (h : Rising behind second) : Rising here (first ++ second) := by
  refine ⟨?_, fun p hp => ?_⟩
  · rw [starts_append, hfirst]
    exact h.ascending
  · rw [starts_append, hfirst] at hp
    exact hbehind.trans (h.behind p hp)

theorem Rising.begin (hfirst : starts first = [here]) (hbehind : here < behind)
    (h : Rising behind second) : Rising here (first ++ second) := by
  refine ⟨?_, fun p hp => ?_⟩
  · rw [starts_append, hfirst]
    exact List.pairwise_cons.mpr ⟨fun p hp => (h.behind p hp).lt_of_lt hbehind, h.ascending⟩
  · rw [starts_append, hfirst] at hp
    rcases List.mem_cons.mp hp with rfl | hp
    · exact .refl p
    · exact .inr ((h.behind p hp).lt_of_lt hbehind)

end Token

open Token (Rising starts)

theorem PendingText.starts_flush (pending : Option PendingText) : starts (flush pending) = [] := by
  cases pending <;> rfl

namespace Reading

theorem argumentName_starts (here : Position) (text : List Char) :
    starts (argumentName here text).lexed.tokens = [] ∧
      here.Upto (argumentName here text).here := by
  unfold argumentName
  split
  · exact ⟨rfl, (here.upto_after _).trans (.inr (Position.lt_next _ _))⟩
  · exact ⟨rfl, here.upto_after _⟩

theorem literal_starts (b : Bracket) (run : Nat) (start here : Position) (text : List Char) :
    starts (literal b run start here text).lexed.tokens = [] ∧
      here.Upto (literal b run start here text).here := by
  have htokens : ∀ (content : List Char) (behind : Position),
      starts ((if content = [] then [] else [⟨.plaintext (.ofList content), here⟩]) ++
        [⟨.closer b, behind⟩]) = [] := by
    intro content behind
    split <;> rfl
  unfold literal
  simp only
  split
  · exact ⟨htokens _ _, (here.upto_after _).trans (Position.upto_after _ _)⟩
  · exact ⟨htokens _ _, here.upto_after _⟩

/-- A run of openers begins one argument. -/
theorem argument_starts (b : Bracket) (run : Nat) (start here : Position) (text : List Char) :
    starts (argument b run start here text).lexed.tokens = [start] ∧
      here.Upto (argument b run start here text).here := by
  have hnamed : ∀ opened : Reading, opened.here = here → starts opened.lexed.tokens = [start] →
      starts (if b = .named then opened.andThen argumentName else opened).lexed.tokens = [start] ∧
        here.Upto (if b = .named then opened.andThen argumentName else opened).here := by
    rintro opened rfl hopened
    split
    · obtain ⟨hname, hbehind⟩ := argumentName_starts opened.here opened.rest
      exact ⟨by rw [andThen, Lexed.tokens_append, Token.starts_append, hopened, hname]; rfl, hbehind⟩
    · exact ⟨hopened, .refl _⟩
  unfold argument
  simp only
  obtain ⟨hstarts, hbehind⟩ := hnamed ⟨⟨[⟨.opener b, start⟩], []⟩, here, text⟩ rfl rfl
  generalize (if b = .named then andThen ⟨⟨[⟨.opener b, start⟩], []⟩, here, text⟩ argumentName
    else ⟨⟨[⟨.opener b, start⟩], []⟩, here, text⟩) = named at hstarts hbehind
  split
  · obtain ⟨hliteral, hbehind'⟩ := literal_starts b run start named.here named.rest
    refine ⟨?_, hbehind.trans hbehind'⟩
    rw [andThen, Lexed.tokens_append, Token.starts_append, hstarts, hliteral]
    rfl
  · exact ⟨hstarts, hbehind⟩

end Reading

theorem Lexed.rising_ofText (pending : Option PendingText) (here : Position) (text : List Char) :
    Rising here (Lexed.ofText pending here text).tokens := by
  have hbehind : ∀ (here : Position) (c : Char) (text : List Char),
      here < here.after (Lexeme.split c text).1.text := fun here c text =>
    here.lt_after (Lexeme.split_text_ne_nil c text)
  fun_induction Lexed.ofText pending here text with
  | case1 pending here => exact .quiet (by rw [Token.starts_append, PendingText.starts_flush]; rfl)
  | case2 _ here c text _ _ _ ih => exact ih.upto (.inr (hbehind here c text))
  | case3 _ here c text _ _ _ ih => exact ih.upto (.inr (hbehind here c text))
  | case4 _ here c text _ _ _ ih => exact ih.upto (.inr (hbehind here c text))
  | case5 pending here c text _ _ _ _ ih =>
    refine .begin ?_ (hbehind here c text) ih
    rw [Token.starts_append, PendingText.starts_flush]
    rfl
  | case6 pending here c text _ _ _ _ _ ih =>
    refine .after ?_ (.inr (hbehind here c text)) ih
    rw [Token.starts_append, PendingText.starts_flush]
    rfl
  | case7 pending here c text _ _ b _ ih =>
    refine .after ?_ (.inr (hbehind here c text)) ih
    rw [Token.starts_append, PendingText.starts_flush]
    rfl
  | case8 pending here c text lexeme behind b _ read ih =>
    obtain ⟨hstarts, hread⟩ := Reading.argument_starts b _ here behind _
    refine .begin ?_ (hread.lt_of_lt (hbehind here c text)) ih
    rw [Token.starts_append, PendingText.starts_flush]
    exact hstarts

/-- Behind the two tokens around the document. -/
theorem nodup_starts (source : String) :
    (starts (Lexed.ofText none .origin (documentText source)).tokens).Nodup := by
  refine (Lexed.rising_ofText none .origin (documentText source)).ascending.imp ?_
  rintro p _ hlt rfl
  exact Std.Irrefl.irrefl p hlt

end Macromark
