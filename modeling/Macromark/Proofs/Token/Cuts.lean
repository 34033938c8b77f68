import Macromark.Proofs.Token.Literals

/-!
# Cutting a text in two

The tokens of two texts one after the other are those of the first and those of
the second (`Lexed.ofText_cut`), if nothing at the end of the first text is read
together with what follows: no literal argument is left open, and the last token
ends there.
-/

namespace Macromark

/-- A text that begins with the name of a macro. -/
def BeginsMacro : List Char → Prop
  | escape :: c :: _ => escape = escapeChar ∧ isNameChar c = true
  | _ => False

instance : (text : List Char) → Decidable (BeginsMacro text)
  | escape :: c :: _ => inferInstanceAs (Decidable (escape = escapeChar ∧ isNameChar c = true))
  | [] | [_] => inferInstanceAs (Decidable False)

/-- A token of this kind at the end of a text is the same if `behind` follows. -/
def TokenKind.EndsBefore (behind : List Char) : TokenKind → Prop
  | .closer _ => True
  | .macroName name => (∀ c ∈ behind.head?, isNameChar c = false) ∧
      ∀ c ∈ (name.toList ++ behind).head?, isEscapable c = false
  | _ => BeginsMacro behind

instance (behind : List Char) : (kind : TokenKind) → Decidable (kind.EndsBefore behind)
  | .closer _ => inferInstanceAs (Decidable True)
  | .macroName name => inferInstanceAs (Decidable ((∀ c ∈ behind.head?, isNameChar c = false) ∧
      ∀ c ∈ (name.toList ++ behind).head?, isEscapable c = false))
  | .plaintext _ | .paragraphBreak | .opener _ | .argumentName _ =>
    inferInstanceAs (Decidable (BeginsMacro behind))

variable {behind text : List Char} {pending : Option PendingText} {here start : Position}
variable {b : Bracket} {run : Nat}

theorem BeginsMacro.split (h : BeginsMacro behind) :
    ∃ c rest, behind = escapeChar :: c :: rest ∧
      (Lexeme.split escapeChar (c :: rest)).1.kind = .macroName := by
  match behind, h with
  | _ :: c :: rest, ⟨rfl, hc⟩ =>
    refine ⟨c, rest, rfl, ?_⟩
    simp [Lexeme.split, Lexeme.afterEscape, isEscapable_of_isNameChar hc]

theorem BeginsMacro.head (h : BeginsMacro behind) : ∀ c ∈ behind.head?, c = escapeChar := by
  obtain ⟨c, rest, rfl, -⟩ := h.split
  simp

/-- The name of a macro goes on with nothing but a name. -/
theorem BeginsMacro.stops {lexeme : Lexeme} (h : BeginsMacro behind) (hkind : lexeme.kind ≠ .macroName) :
    lexeme.Stops behind := by
  unfold Lexeme.Stops
  split
  · trivial
  · trivial
  · next hstarts => exact absurd hstarts hkind
  · next b _ =>
    rintro c hc rfl
    cases b <;> exact absurd (h.head _ hc) (by decide)
  · rintro c hc rfl
    exact absurd (h.head _ hc) (by decide)
  · rintro c hc rfl
    exact absurd (h.head _ hc) (by decide)
  · intro c hc
    rw [h.head c hc]
    decide

namespace Lexed

open Reading (Closes)

theorem tokens_ofText_ne_nil : (ofText pending here text).tokens ≠ [] := by
  obtain ⟨content, last, htokens, -⟩ := closed_ofText pending here text
  simp [htokens]

/-- Plain text ends where a macro begins. -/
theorem ofText_flush (pending : Option PendingText) (here : Position) (h : BeginsMacro behind) :
    (ofText pending here behind).tokens =
      PendingText.flush pending ++ (ofText none here behind).tokens := by
  obtain ⟨c, rest, rfl, hkind⟩ := h.split
  rw [ofText, ofText]
  simp only [hkind, tokens_append, List.append_assoc]
  rfl

/-- What is read of a text is the same if `behind` follows. -/
structure Ends (l : Lexed) (behind : List Char) : Prop where
  closes : Closes l.diagnostics
  last : ∀ token ∈ l.tokens.dropLast.getLast?, token.kind.EndsBefore behind

instance (l : Lexed) (behind : List Char) : Decidable (l.Ends behind) :=
  decidable_of_iff (Closes l.diagnostics ∧
    ∀ token ∈ l.tokens.dropLast.getLast?, token.kind.EndsBefore behind)
    ⟨fun h => ⟨h.1, h.2⟩, fun h => ⟨h.closes, h.last⟩⟩

variable {first l : Lexed}

theorem Ends.rest (h : (first ++ l).Ends behind) (hne : l.tokens ≠ []) : l.Ends behind := by
  refine ⟨fun d hd => h.closes d (List.mem_append_right _ hd), fun token htoken => h.last token ?_⟩
  rw [tokens_append, List.dropLast_append_of_ne_nil hne, List.getLast?_append,
    Option.mem_def.mp htoken]
  rfl

theorem Ends.beginsMacro {p : PendingText} (h : (ofText (some p) here []).Ends behind) :
    BeginsMacro behind := by
  have hlast := h.last
  rw [ofText] at hlast
  exact hlast ⟨.plaintext (.ofList p.text), p.start⟩ rfl

/-- The last token of a text is the one before the end of the document. -/
theorem Ends.token (h : (first ++ ofText none start []).Ends behind) :
    ∀ token ∈ first.tokens.getLast?, token.kind.EndsBefore behind := by
  have hlast := h.last
  rw [tokens_append, ofText] at hlast
  simpa [PendingText.flush] using hlast

end Lexed

-- ----------------------------------------------------------------------------
-- Arguments
-- ----------------------------------------------------------------------------

namespace Reading

theorem argumentName_after (here : Position) (text : List Char) :
    (argumentName here text).here.after (argumentName here text).rest = here.after text := by
  have hsplit := List.takeWhile_append_dropWhile (p := isNameChar) (l := text)
  unfold argumentName
  split
  · next rest hrest =>
    rw [hrest] at hsplit
    rw [← Position.after_cons, ← Position.after_append, hsplit]
  · next hrest => rw [← Position.after_append, hsplit]

theorem literal_after (b : Bracket) (run : Nat) (start here : Position) (text : List Char) :
    (literal b run start here text).here.after (literal b run start here text).rest =
      here.after text := by
  have hscan := Literal.scan_append b run text
  unfold literal
  simp only
  split
  · next rest hrest =>
    rw [hrest] at hscan
    rw [Literal.rest, hrest, Option.getD_some, ← Position.after_append, ← Position.after_append]
    exact congrArg _ hscan.symm
  · next hrest =>
    rw [hrest, List.append_nil] at hscan
    rw [Literal.rest, hrest, Option.getD_none, Position.after_nil, ← hscan]

/-- An argument is read up to where the rest of the text begins. -/
theorem argument_after (b : Bracket) (run : Nat) (start here : Position) (text : List Char) :
    (argument b run start here text).here.after (argument b run start here text).rest =
      here.after text := by
  have hname := argumentName_after here text
  unfold argument
  simp only
  split <;> split <;> simp only [andThen]
  · rw [literal_after, hname]
  · rw [literal_after]
  · exact hname

/-- An argument up to its text: a run of openers and, in braces, the name. -/
def heading (b : Bracket) (start here : Position) (text : List Char) : Reading :=
  let opened : Reading := ⟨⟨[⟨.opener b, start⟩], []⟩, here, text⟩
  if b = .named then opened.andThen argumentName else opened

theorem argument_eq (b : Bracket) (run : Nat) (start here : Position) (text : List Char) :
    argument b run start here text =
      if 1 < run then (heading b start here text).andThen (literal b run start)
      else heading b start here text := rfl

theorem heading_suffix (b : Bracket) (start here : Position) (text : List Char) :
    (heading b start here text).rest <:+ text := by
  cases b with
  | positional => exact List.suffix_refl _
  | named => exact argumentName_suffix here text

/-- Only a macro may follow an argument that is cut off behind its heading. -/
theorem heading_last (b : Bracket) (start here : Position) (text : List Char) :
    ∃ token, (heading b start here text).lexed.tokens.getLast? = some token ∧
      ∀ behind, token.kind.EndsBefore behind → BeginsMacro behind := by
  cases b with
  | positional => exact ⟨_, rfl, fun _ h => h⟩
  | named =>
    obtain ⟨name, htokens⟩ := argumentName_tokens here text
    refine ⟨⟨.argumentName name, here⟩, ?_, fun _ h => h⟩
    simp [heading, andThen, htokens]

theorem heading_ending (start here : Position)
    (h : text = [] ∨ b = .named ∧ text.dropWhile isNameChar = []) :
    (heading b start here text).rest = [] := by
  rcases h with rfl | ⟨rfl, hdrop⟩
  · exact List.suffix_nil.mp (heading_suffix b start here [])
  · simp [heading, andThen, argumentName, hdrop]

/-- A literal argument that is closed ends in a bracket. -/
theorem getLast?_of_literal (hrun : 1 < run)
    (hcloses : Closes (literal b run start here text).lexed.diagnostics)
    (hrest : (literal b run start here text).rest = []) : text.getLast? = some b.closing := by
  have hscan := Literal.scan_append b run text
  cases hfound : (Literal.scan b run text).rest? with
  | none => simp [literal, hfound, Closes, leavesOpen] at hcloses
  | some left =>
    obtain rfl : left = [] := by simpa [literal, hfound, Literal.rest] using hrest
    simp only [hfound, List.append_nil] at hscan
    have hne : Literal.closeRun b run ≠ [] := by simp [Literal.closeRun]; omega
    rw [hscan, List.getLast?_append_of_ne_nil _ hne, Literal.closeRun, List.getLast?_replicate,
      if_neg (by omega)]

/-- An argument that ends with a text is cut off behind its heading, or has ended in a bracket. -/
theorem argument_end (hcloses : Closes (argument b run start here text).lexed.diagnostics)
    (hrest : (argument b run start here text).rest = []) :
    (∃ token, (argument b run start here text).lexed.tokens.getLast? = some token ∧
      ∀ behind, token.kind.EndsBefore behind → BeginsMacro behind) ∨
      text.getLast? = some b.closing := by
  rw [argument_eq] at hcloses hrest ⊢
  split
  · next hrun =>
    rw [if_pos hrun] at hcloses hrest
    have hlast := getLast?_of_literal hrun (fun d hd => hcloses d (List.mem_append_right _ hd)) hrest
    obtain ⟨front, hfront⟩ := heading_suffix b start here text
    rw [← hfront, List.getLast?_append, hlast]
    exact .inr rfl
  · exact .inl (heading_last b start here text)

/-- Where a text ends in what an argument begins with, only a macro may follow. -/
theorem argument_ending (hcloses : Closes (argument b run start here text).lexed.diagnostics)
    (hend : text = [] ∨ b = .named ∧ text.dropWhile isNameChar = []) :
    (argument b run start here text).rest = [] ∧
      ∃ token, (argument b run start here text).lexed.tokens.getLast? = some token ∧
        ∀ behind, token.kind.EndsBefore behind → BeginsMacro behind := by
  have hrest := heading_ending start here hend
  rw [argument_eq] at hcloses ⊢
  split
  · next hrun =>
    rw [if_pos hrun, andThen, hrest] at hcloses
    have hlast := getLast?_of_literal hrun (fun d hd => hcloses d (List.mem_append_right _ hd))
      (List.suffix_nil.mp (literal_suffix b run start _ []))
    simp at hlast
  · exact ⟨hrest, heading_last b start here text⟩

end Reading

theorem Lexeme.after_split (here : Position) (c : Char) (text : List Char) :
    (here.after (split c text).1.text).after (split c text).2 = here.after (c :: text) := by
  rw [← Position.after_append, split_append]

namespace Lexed

open Reading (Closes)

theorem tokens_append_cut {first l joined : Lexed} {behind : List Token} (hne : l.tokens ≠ [])
    (h : joined.tokens = l.tokens.dropLast ++ behind) :
    (first ++ joined).tokens = (first ++ l).tokens.dropLast ++ behind := by
  rw [tokens_append, tokens_append, List.dropLast_append_of_ne_nil hne, h, List.append_assoc]

/-- Only a macro follows a text that ends in what an argument begins with. -/
theorem Ends.argument {b : Bracket} {run : Nat} {front : List Token} {read : Reading}
    (hread : read = Reading.argument b run start here text)
    (h : (⟨front ++ read.lexed.tokens, read.lexed.diagnostics⟩ ++
      ofText none read.here read.rest : Lexed).Ends behind) :
    Closes read.lexed.diagnostics ∧
      (text = [] ∨ b = .named ∧ text.dropWhile isNameChar = [] → BeginsMacro behind) := by
  have hcloses : Closes read.lexed.diagnostics := fun d hd => h.closes d (List.mem_append_left _ hd)
  refine ⟨hcloses, fun hend => ?_⟩
  subst hread
  obtain ⟨hrest, token, htoken, hstarts⟩ := Reading.argument_ending hcloses hend
  rw [hrest] at h
  exact hstarts behind (h.token token (by simp [List.getLast?_append, htoken]))

/-- The tokens of two texts are those of the first and those of the second. -/
theorem ofText_cut (pending : Option PendingText) (here : Position) (text : List Char)
    (h : (ofText pending here text).Ends behind) :
    (ofText pending here (text ++ behind)).tokens =
      (ofText pending here text).tokens.dropLast ++ (ofText none (here.after text) behind).tokens := by
  fun_induction ofText pending here text with
  | case1 pending here =>
    cases pending with
    | none => rfl
    | some p =>
      have hends : (ofText (some p) here []).Ends behind := by rwa [ofText]
      exact ofText_flush (some p) here hends.beginsMacro
  | case2 pending here c text lexeme next hkind ih | case3 pending here c text lexeme next hkind ih
  | case4 pending here c text lexeme next hkind ih =>
    have hsplit := Lexeme.split_before c text behind fun hnil => by
      rw [hnil] at h
      exact h.beginsMacro.stops (by simp [lexeme] at hkind; simp [hkind])
    rw [List.cons_append, ofText, hsplit]
    simp only [lexeme] at hkind
    simp only [hkind]
    rw [← Lexeme.after_split]
    exact ih h
  | case5 pending here c text lexeme next hkind name ih =>
    have hsplit := Lexeme.split_before c text behind fun hnil => by
      rw [hnil] at h
      have hends := h.token ⟨.macroName name, here⟩ (by simp)
      simp only [lexeme] at hkind
      simpa [Lexeme.Stops, hkind, TokenKind.EndsBefore, name] using hends
    rw [List.cons_append, ofText, hsplit]
    simp only [lexeme] at hkind
    simp only [hkind]
    rw [← Lexeme.after_split]
    exact tokens_append_cut tokens_ofText_ne_nil (ih (h.rest tokens_ofText_ne_nil))
  | case6 pending here c text lexeme next hkind count surplus ih =>
    have hsplit := Lexeme.split_before c text behind fun hnil => by
      rw [hnil] at h
      have hstarts : BeginsMacro behind := h.token ⟨.paragraphBreak, here⟩ (by simp)
      exact hstarts.stops (by simp [lexeme] at hkind; simp [hkind])
    rw [List.cons_append, ofText, hsplit]
    simp only [lexeme] at hkind
    simp only [hkind]
    rw [← Lexeme.after_split]
    exact tokens_append_cut tokens_ofText_ne_nil (ih (h.rest tokens_ofText_ne_nil))
  | case7 pending here c text lexeme next b hkind ih =>
    have hsplit := Lexeme.split_before c text behind fun _ => by
      simp only [lexeme] at hkind
      simp [Lexeme.Stops, hkind]
    rw [List.cons_append, ofText, hsplit]
    simp only [lexeme] at hkind
    simp only [hkind]
    rw [← Lexeme.after_split]
    exact tokens_append_cut tokens_ofText_ne_nil (ih (h.rest tokens_ofText_ne_nil))
  | case8 pending here c text lexeme next b hkind read ih =>
    obtain ⟨hcloses, hstarts⟩ := Ends.argument rfl h
    have hsplit := Lexeme.split_before c text behind fun hnil =>
      (hstarts (.inl hnil)).stops (by simp [lexeme] at hkind; simp [hkind])
    have hread := Reading.argument_before b lexeme.text.length here next (Lexeme.split c text).2
      behind (fun hb hnil c hc => by
        rw [(hstarts (.inr ⟨hb, hnil⟩)).head c hc]
        decide) hcloses
    have hhere : read.here.after read.rest = here.after (c :: text) := by
      rw [Reading.argument_after, Lexeme.after_split]
    rw [List.cons_append, ofText, hsplit]
    simp only [lexeme, next] at hkind hread
    simp only [hkind]
    rw [hread, ← hhere]
    exact tokens_append_cut tokens_ofText_ne_nil (ih (h.rest tokens_ofText_ne_nil))

end Lexed
-- ----------------------------------------------------------------------------
-- Line ends
-- ----------------------------------------------------------------------------

theorem getLast?_eq_of_suffix {c : Char} {text rest : List Char} (h : rest <:+ c :: text)
    (hne : rest ≠ []) : (c :: text).getLast? = rest.getLast? := by
  obtain ⟨front, heq⟩ := h
  rw [← heq, List.getLast?_append_of_ne_nil _ hne]

/-- Neither a name nor a bracket is a line end. -/
theorem Lexeme.getLast?_ne {c : Char} {text : List Char} (hnil : (split c text).2 = [])
    (hkind : (split c text).1.kind = .macroName ∨ ∃ b, (split c text).1.kind = .closer b) :
    (c :: text).getLast? ≠ some '\n' := by
  have hread := split_read c text
  have hwhole : (split c text).1.text = c :: text := by
    simpa [hnil] using split_append c text
  rw [← hwhole]
  rcases hkind with hkind | ⟨b, hkind⟩
  · simp only [Lexeme.Read, hkind] at hread
    obtain ⟨letters, hletters, hname, -⟩ := hread
    rw [hletters]
    intro hline
    rcases List.mem_cons.mp (List.mem_of_getLast? hline) with hline | hline
    · exact absurd hline (by decide)
    · exact absurd (hname _ hline) (by decide)
  · simp only [Lexeme.Read, hkind] at hread
    rw [hread]
    cases b <;> decide

namespace Lexed

/-- What can be followed by a closing bracket does not end in a line end. -/
theorem Ends.getLast?_ne (h : (ofText pending here text).Ends [']']) : text.getLast? ≠ some '\n' := by
  have hstarts : ¬ BeginsMacro [']'] := id
  fun_induction ofText pending here text with
  | case1 => simp
  | case2 pending here c text lexeme next hkind ih | case3 pending here c text lexeme next hkind ih
  | case4 pending here c text lexeme next hkind ih =>
    by_cases hnil : (Lexeme.split c text).2 = []
    · rw [hnil] at h
      exact absurd h.beginsMacro hstarts
    · rw [getLast?_eq_of_suffix (Lexeme.split_suffix c text) hnil]
      exact ih h
  | case5 pending here c text lexeme next hkind name ih =>
    by_cases hnil : (Lexeme.split c text).2 = []
    · exact Lexeme.getLast?_ne hnil (.inl hkind)
    · rw [getLast?_eq_of_suffix (Lexeme.split_suffix c text) hnil]
      exact ih (h.rest tokens_ofText_ne_nil)
  | case6 pending here c text lexeme next hkind count surplus ih =>
    by_cases hnil : (Lexeme.split c text).2 = []
    · rw [hnil] at h
      exact absurd (h.token ⟨.paragraphBreak, here⟩ (by simp)) hstarts
    · rw [getLast?_eq_of_suffix (Lexeme.split_suffix c text) hnil]
      exact ih (h.rest tokens_ofText_ne_nil)
  | case7 pending here c text lexeme next b hkind ih =>
    by_cases hnil : (Lexeme.split c text).2 = []
    · exact Lexeme.getLast?_ne hnil (.inr ⟨b, hkind⟩)
    · rw [getLast?_eq_of_suffix (Lexeme.split_suffix c text) hnil]
      exact ih (h.rest tokens_ofText_ne_nil)
  | case8 pending here c text lexeme next b hkind read ih =>
    have hcloses : Reading.Closes read.lexed.diagnostics :=
      fun d hd => h.closes d (List.mem_append_left _ hd)
    have hsuffix := Reading.argument_suffix b lexeme.text.length here next (Lexeme.split c text).2
    have hsplit := Lexeme.split_suffix c text
    by_cases hnil : read.rest = []
    · rw [hnil] at h
      rcases Reading.argument_end hcloses hnil with ⟨token, htoken, hends⟩ | hbracket
      · exact absurd (hends _ (h.token token (by simp [List.getLast?_append, read, htoken]))) hstarts
      · obtain ⟨front, hfront⟩ := hsplit
        rw [← hfront, List.getLast?_append, hbracket, Option.some_or]
        cases b <;> decide
    · rw [getLast?_eq_of_suffix (hsuffix.trans hsplit) hnil]
      exact ih (h.rest tokens_ofText_ne_nil)

end Lexed

-- ----------------------------------------------------------------------------
-- The tokens of a text
-- ----------------------------------------------------------------------------

/-- The tokens of a text that stands in a document. -/
def textTokens (here : Position) (text : List Char) : List Token :=
  (Lexed.ofText none here text).tokens.dropLast

theorem exists_ofText_eq (here : Position) (text : List Char) : ∃ last,
    (Lexed.ofText none here text).tokens = textTokens here text ++ [⟨.closer .positional, last⟩] := by
  obtain ⟨content, last, htokens, -⟩ := Lexed.closed_ofText none here text
  exact ⟨last, by simp [textTokens, htokens]⟩

theorem kinds_textTokens (here here' : Position) (text : List Char) :
    (textTokens here' text).map (·.kind) = (textTokens here text).map (·.kind) := by
  rw [textTokens, textTokens, List.map_dropLast, List.map_dropLast,
    Lexed.kinds_ofText none here text none here' rfl]

theorem Lexed.Ends.of_alike {l m : Lexed} (h : l.Ends behind) (halike : l.Alike m) :
    m.Ends behind := by
  refine ⟨fun d hd => ?_, fun token htoken => ?_⟩
  · have hproblem : d.problem ∈ l.diagnostics.map (·.problem) :=
      halike.problems ▸ List.mem_map_of_mem hd
    obtain ⟨d', hd', heq⟩ := List.mem_map.mp hproblem
    exact heq ▸ h.closes d' hd'
  · have hlast := congrArg (fun kinds => kinds.dropLast.getLast?) halike.kinds
    simp only [← List.map_dropLast, List.getLast?_map, Option.mem_def.mp htoken, Option.map_some]
      at hlast
    obtain ⟨token', htoken', heq⟩ := Option.map_eq_some_iff.mp hlast.symm
    exact heq ▸ h.last token' htoken'

theorem textTokens_append (here : Position) (text : List Char)
    (h : (Lexed.ofText none .origin text).Ends behind) :
    textTokens here (text ++ behind) =
      textTokens here text ++ textTokens (here.after text) behind := by
  have hends := h.of_alike (Lexed.alike_ofText none .origin text none here rfl)
  rw [textTokens, Lexed.ofText_cut none here text hends,
    List.dropLast_append_of_ne_nil Lexed.tokens_ofText_ne_nil]
  rfl

theorem Lexed.Ends.of_beginsMacro {l : Lexed} {behind' : List Char} (h : l.Ends behind)
    (hstarts : BeginsMacro behind) (hstarts' : BeginsMacro behind') : l.Ends behind' := by
  have hhead : behind'.head? = behind.head? := by
    obtain ⟨c, rest, rfl, -⟩ := hstarts.split
    obtain ⟨c', rest', rfl, -⟩ := hstarts'.split
    rfl
  refine ⟨h.closes, fun token htoken => ?_⟩
  have hlast := h.last token htoken
  cases hkind : token.kind <;> simp only [hkind, TokenKind.EndsBefore] at hlast ⊢
  case macroName name => simpa [List.head?_append, hhead] using hlast
  all_goals exact hstarts'

/-- What ends in front of a closing bracket ends in front of what begins like `behind`, too. -/
theorem Lexed.Ends.of_closed {l : Lexed} {behind' : List Char} (hclosed : l.Ends [']'])
    (h : l.Ends behind) (hhead : ∀ c ∈ behind'.head?, c ∈ behind.head?) : l.Ends behind' := by
  refine ⟨h.closes, fun token htoken => ?_⟩
  have hlast := h.last token htoken
  have hbracket := hclosed.last token htoken
  cases hkind : token.kind <;> simp only [hkind, TokenKind.EndsBefore] at hlast hbracket ⊢
  case macroName name =>
    refine ⟨fun c hc => hlast.1 c (hhead c hc), ?_⟩
    cases hletters : name.toList with
    | nil => simp [hletters, isEscapable] at hbracket
    | cons d rest => simpa [hletters] using hlast.2
  all_goals exact absurd hbracket id

theorem textTokens_closer (here : Position) (rest : List Char) :
    textTokens here (']' :: rest) =
      ⟨.closer .positional, here⟩ :: textTokens (here.next ']') rest := by
  have hsplit : Lexeme.split ']' rest = (⟨.closer .positional, [']']⟩, rest) := rfl
  rw [textTokens, Lexed.ofText, hsplit]
  simp only [Lexed.tokens_append]
  rw [List.dropLast_append_of_ne_nil Lexed.tokens_ofText_ne_nil]
  rfl

/-- A macro with one argument. -/
theorem textTokens_macro (here : Position) {name rest : List Char} (hne : name ≠ [])
    (hname : ∀ c ∈ name, isNameChar c = true) (hrest : rest.head? ≠ some '[') :
    textTokens here (escapeChar :: (name ++ '[' :: rest)) =
      ⟨.macroName (.ofList name), here⟩ :: ⟨.opener .positional, here.after (escapeChar :: name)⟩ ::
        textTokens ((here.after (escapeChar :: name)).next '[') rest := by
  have hstarts : Lexeme.split escapeChar (name ++ '[' :: rest) =
      (⟨.macroName, escapeChar :: name⟩, '[' :: rest) :=
    Lexeme.split_macroName hne hname (by rintro c ⟨⟩; decide)
  have hopener : Lexeme.split '[' rest = (⟨.opener .positional, ['[']⟩, rest) :=
    @Lexeme.split_openRun .positional 0 rest hrest
  have hargument : textTokens (here.after (escapeChar :: name)) ('[' :: rest) =
      ⟨.opener .positional, here.after (escapeChar :: name)⟩ ::
        textTokens ((here.after (escapeChar :: name)).next '[') rest := by
    rw [textTokens, Lexed.ofText, hopener]
    simp only [Lexed.tokens_append]
    rw [List.dropLast_append_of_ne_nil Lexed.tokens_ofText_ne_nil]
    rfl
  rw [← hargument, textTokens, Lexed.ofText, hstarts]
  simp only [Lexed.tokens_append]
  rw [List.dropLast_append_of_ne_nil Lexed.tokens_ofText_ne_nil]
  rfl

theorem BeginsMacro.textTokens (h : BeginsMacro text) (here : Position) :
    ∃ name position rest, textTokens here text = ⟨.macroName name, position⟩ :: rest := by
  obtain ⟨c, rest, rfl, hkind⟩ := h.split
  rw [Macromark.textTokens, Lexed.ofText]
  simp only [hkind, Lexed.tokens_append]
  rw [List.dropLast_append_of_ne_nil Lexed.tokens_ofText_ne_nil]
  exact ⟨_, _, _, rfl⟩

/-- Where the tokens of a text stand. -/
theorem textTokens_position (front text : List Char) :
    ∀ token ∈ textTokens (.behind front) text, (Position.behind front).Upto token.position ∧
      (token.kind.MakesNode → token.position < .behind (front ++ text)) := by
  have htiles := (Lexed.tiles_ofText (front ++ text) none (.behind front) text front front rfl rfl
    rfl).tokens
  intro token htoken
  have hmem := List.dropLast_subset _ htoken
  exact ⟨htiles.upto token hmem, htiles.lt_behind token hmem⟩

end Macromark
