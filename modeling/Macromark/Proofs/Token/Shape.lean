import Macromark.Token.Lexer
import Mathlib.Data.List.Chain

/-!
# The shape of a row of tokens

Behind the brace that opens a named argument stands the name of the argument
(`Token.Named`) and nowhere else does (`Token.Regular`), and the last token of a
document is its own closer (`tokens_tokenize`).
-/

namespace Macromark

namespace Token

/-- Every brace that opens an argument is followed by a name. -/
structure Named (tokens : List Token) : Prop where
  chain : tokens.IsChain fun a b => a.kind = .opener .named → ∃ name, b.kind = .argumentName name
  last : ∀ token ∈ tokens.getLast?, token.kind ≠ .opener .named

variable {first second : List Token} {token : Token}

theorem Named.nil : Named [] := ⟨.nil, by simp⟩

theorem Named.append (hfirst : Named first) (hsecond : Named second) : Named (first ++ second) := by
  refine ⟨hfirst.chain.append hsecond.chain ?_, ?_⟩
  · intro a ha b _ hkind
    exact absurd hkind (hfirst.last a ha)
  · intro token htoken
    rw [List.getLast?_append, Option.mem_def, Option.or_eq_some_iff] at htoken
    rcases htoken with htoken | ⟨-, htoken⟩
    · exact hsecond.last token htoken
    · exact hfirst.last token htoken

theorem Named.one (h : token.kind ≠ .opener .named) : Named [token] :=
  ⟨.singleton _, by simpa using h⟩

theorem Named.opener (start here : Position) (name : String) :
    Named [⟨.opener .named, start⟩, ⟨.argumentName name, here⟩] := by
  refine ⟨.cons_cons ?_ (.singleton _), by simp⟩
  exact fun _ => ⟨name, rfl⟩

theorem Named.tail (h : Named (token :: first)) : Named first := by
  refine ⟨h.chain.tail, fun last hlast => h.last last ?_⟩
  cases first with
  | nil => simp at hlast
  | cons next rest => simpa [List.getLast?_cons_cons] using hlast

theorem Named.of_append (h : Named (first ++ second)) : Named second := by
  induction first with
  | nil => exact h
  | cons token rest ih => exact ih h.tail

theorem Named.name (h : Named (token :: first)) (hkind : token.kind = .opener .named) :
    ∃ name position rest, first = ⟨.argumentName name, position⟩ :: rest := by
  cases first with
  | nil => exact absurd hkind (h.last token rfl)
  | cons next rest =>
    obtain ⟨name, hname⟩ := (List.isChain_cons_cons.mp h.chain).1 hkind
    obtain ⟨kind, position⟩ := next
    cases hname
    exact ⟨name, position, rest, rfl⟩

/-- No name of an argument stands anywhere else, and no plain text is empty. -/
structure Regular (tokens : List Token) : Prop where
  chain : tokens.IsChain fun a b => ∀ name, b.kind = .argumentName name → a.kind = .opener .named
  head : ∀ token ∈ tokens.head?, ∀ name, token.kind ≠ .argumentName name
  text : ∀ token ∈ tokens, token.kind ≠ .plaintext ""

theorem Regular.nil : Regular [] := ⟨.nil, by simp, by simp⟩

theorem Regular.append (hfirst : Regular first) (hsecond : Regular second) :
    Regular (first ++ second) := by
  refine ⟨hfirst.chain.append hsecond.chain ?_, ?_, ?_⟩
  · intro a _ b hb name hkind
    exact absurd hkind (hsecond.head b hb name)
  · intro token htoken
    rw [List.head?_append, Option.mem_def, Option.or_eq_some_iff] at htoken
    rcases htoken with htoken | ⟨-, htoken⟩
    · exact hfirst.head token htoken
    · exact hsecond.head token htoken
  · intro token htoken
    rcases List.mem_append.mp htoken with htoken | htoken
    · exact hfirst.text token htoken
    · exact hsecond.text token htoken

theorem Regular.one (hname : ∀ name, token.kind ≠ .argumentName name)
    (htext : token.kind ≠ .plaintext "") : Regular [token] :=
  ⟨.singleton _, by simpa using hname, by simpa using htext⟩

theorem Regular.opener (start here : Position) (name : String) :
    Regular [⟨.opener .named, start⟩, ⟨.argumentName name, here⟩] := by
  refine ⟨.cons_cons ?_ (.singleton _), by simp, by simp⟩
  exact fun _ _ => rfl

/-- The same, up to the closer of the document at the end. -/
def Closed (tokens : List Token) : Prop :=
  ∃ content last, tokens = content ++ [⟨.closer .positional, last⟩] ∧ Named content

theorem Closed.behind (hfirst : Named first) (h : Closed second) : Closed (first ++ second) := by
  obtain ⟨content, last, rfl, hcontent⟩ := h
  exact ⟨first ++ content, last, (List.append_assoc ..).symm, hfirst.append hcontent⟩

end Token

open Token (Named Closed Regular)

theorem PendingText.named_flush (pending : Option PendingText) : Named (flush pending) := by
  cases pending with
  | none => exact .nil
  | some p => exact .one nofun

/-- There is no plain text before its first character. -/
def PendingText.Begun (pending : Option PendingText) : Prop := ∀ p ∈ pending, p.text ≠ []

theorem PendingText.begun_push (pending : Option PendingText) (here : Position) {more : List Char}
    (hmore : more ≠ []) : Begun (some (push pending here more)) := by
  rintro p ⟨⟩
  cases pending <;> simp [push, hmore]

theorem PendingText.regular_flush {pending : Option PendingText} (h : Begun pending) :
    Regular (flush pending) := by
  cases pending with
  | none => exact .nil
  | some p =>
    refine .one nofun ?_
    simpa [← String.ofList_nil] using h p rfl

namespace Reading

theorem argumentName_tokens (here : Position) (text : List Char) :
    ∃ name, (argumentName here text).lexed.tokens = [⟨.argumentName name, here⟩] := by
  unfold argumentName
  split <;> exact ⟨_, rfl⟩

theorem literal_named (b : Bracket) (run : Nat) (start here : Position) (text : List Char) :
    Named (literal b run start here text).lexed.tokens := by
  have htokens : ∀ content : List Char, Named ((if content = [] then []
      else [⟨.plaintext (.ofList content), here⟩]) ++
        [⟨.closer b, here.after (Literal.scan b run text).raw⟩]) := by
    intro content
    refine Named.append ?_ (.one nofun)
    split
    · exact .nil
    · exact .one nofun
  unfold literal
  simp only
  split <;> exact htokens _

theorem argument_named (b : Bracket) (run : Nat) (start here : Position) (text : List Char) :
    Named (argument b run start here text).lexed.tokens := by
  have hopened : Named (if b = .named then
      andThen ⟨⟨[⟨.opener b, start⟩], []⟩, here, text⟩ argumentName
      else ⟨⟨[⟨.opener b, start⟩], []⟩, here, text⟩).lexed.tokens := by
    cases b with
    | positional => exact .one nofun
    | named =>
      obtain ⟨name, hname⟩ := argumentName_tokens here text
      simp only [if_true, andThen, Lexed.tokens_append, hname]
      exact .opener start here name
  unfold argument
  simp only
  split
  · exact hopened.append (literal_named _ _ _ _ _)
  · exact hopened

theorem literal_regular (b : Bracket) (run : Nat) (start here : Position) (text : List Char) :
    Regular (literal b run start here text).lexed.tokens := by
  have htokens : ∀ content : List Char, Regular ((if content = [] then []
      else [⟨.plaintext (.ofList content), here⟩]) ++
        [⟨.closer b, here.after (Literal.scan b run text).raw⟩]) := by
    intro content
    refine Regular.append ?_ (.one nofun nofun)
    split
    · exact .nil
    · next hcontent =>
      refine .one nofun ?_
      simpa [← String.ofList_nil] using hcontent
  unfold literal
  simp only
  split <;> exact htokens _

theorem argument_regular (b : Bracket) (run : Nat) (start here : Position) (text : List Char) :
    Regular (argument b run start here text).lexed.tokens := by
  have hopened : Regular (if b = .named then
      andThen ⟨⟨[⟨.opener b, start⟩], []⟩, here, text⟩ argumentName
      else ⟨⟨[⟨.opener b, start⟩], []⟩, here, text⟩).lexed.tokens := by
    cases b with
    | positional => exact .one nofun nofun
    | named =>
      obtain ⟨name, hname⟩ := argumentName_tokens here text
      simp only [if_true, andThen, Lexed.tokens_append, hname]
      exact .opener start here name
  unfold argument
  simp only
  split
  · exact hopened.append (literal_regular _ _ _ _ _)
  · exact hopened

end Reading

theorem Lexed.closed_ofText (pending : Option PendingText) (here : Position) (text : List Char) :
    Closed (Lexed.ofText pending here text).tokens := by
  fun_induction Lexed.ofText pending here text with
  | case1 pending here => exact ⟨_, here, rfl, PendingText.named_flush pending⟩
  | case2 _ _ _ _ _ _ _ ih => exact ih
  | case3 _ _ _ _ _ _ _ ih => exact ih
  | case4 _ _ _ _ _ _ _ ih => exact ih
  | case5 _ _ _ _ _ _ _ _ ih =>
    exact ih.behind ((PendingText.named_flush _).append (.one nofun))
  | case6 _ _ _ _ _ _ _ _ _ ih =>
    exact ih.behind ((PendingText.named_flush _).append (.one nofun))
  | case7 _ _ _ _ _ _ _ _ ih =>
    exact ih.behind ((PendingText.named_flush _).append (.one nofun))
  | case8 _ _ _ _ _ _ _ _ _ ih =>
    exact ih.behind ((PendingText.named_flush _).append (Reading.argument_named ..))

theorem Lexeme.escaped_ne_nil {c : Char} {text : List Char}
    (h : (split c text).1.kind = .escaped) : (split c text).1.text.drop 1 ≠ [] := by
  unfold split at h ⊢
  split at h
  · next hescape =>
    rw [if_pos hescape]
    unfold afterEscape at h ⊢
    split at h
    · split at h
      · next hescapable => simp [hescapable]
      · cases h
    · cases h
  · unfold openers lineEnds at h
    repeat' split at h
    all_goals cases h

theorem Lexed.regular_ofText {pending : Option PendingText} (hbegun : PendingText.Begun pending)
    (here : Position) (text : List Char) : Regular (Lexed.ofText pending here text).tokens := by
  have hnone : PendingText.Begun none := by simp [PendingText.Begun]
  fun_induction Lexed.ofText pending here text with
  | case1 pending here => exact (PendingText.regular_flush hbegun).append (.one (by simp) (by simp))
  | case2 _ _ c text _ _ hkind ih => exact ih (PendingText.begun_push _ _ (Lexeme.escaped_ne_nil hkind))
  | case3 _ _ c text _ _ hkind ih => exact ih (PendingText.begun_push _ _ (Lexeme.split_text_ne_nil c text))
  | case4 _ _ c text _ _ hkind ih => exact ih (PendingText.begun_push _ _ (Lexeme.split_text_ne_nil c text))
  | case5 _ _ _ _ _ _ _ _ ih =>
    exact ((PendingText.regular_flush hbegun).append (.one (by simp) (by simp))).append (ih hnone)
  | case6 _ _ _ _ _ _ _ _ _ ih =>
    exact ((PendingText.regular_flush hbegun).append (.one (by simp) (by simp))).append (ih hnone)
  | case7 _ _ _ _ _ _ _ _ ih =>
    exact ((PendingText.regular_flush hbegun).append (.one (by simp) (by simp))).append (ih hnone)
  | case8 _ _ _ _ _ _ _ _ _ ih =>
    exact ((PendingText.regular_flush hbegun).append (Reading.argument_regular ..)).append (ih hnone)

theorem regular_tokenize (source : String) : Regular (tokenize source).tokens := by
  have htop : Regular [⟨.macroName MacroName.toplevel, .origin⟩, ⟨.opener .positional, .origin⟩] :=
    Regular.append (.one (by simp) (by simp)) (.one (by simp) (by simp))
  exact htop.append (Lexed.regular_ofText (by simp [PendingText.Begun]) _ _)

theorem tokens_tokenize (source : String) : ∃ content last,
    (tokenize source).tokens =
      ⟨.macroName MacroName.toplevel, .origin⟩ :: ⟨.opener .positional, .origin⟩ ::
        (content ++ [⟨.closer .positional, last⟩]) ∧ Named content := by
  obtain ⟨content, last, htokens, hnamed⟩ :=
    Lexed.closed_ofText none .origin (documentText source)
  exact ⟨content, last, by rw [tokenize, Lexed.tokens_append, htokens]; rfl, hnamed⟩

end Macromark
