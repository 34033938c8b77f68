import Macromark.Proofs.Token.Places
import Macromark.Proofs.Token.Shape

/-!
# Where two texts meet

A blank line between two texts is a lexeme of its own. So the tokens of both
together are those of the first, a paragraph break, and those of the second
(`kinds_tokenize_seam`), unless the first one lacks the end of an argument.
-/

namespace Macromark

theorem takeWhile_before {α : Type} {p : α → Bool} (xs ys : List α)
    (h : xs.dropWhile p = [] → ∀ y ∈ ys.head?, p y = false) :
    (xs ++ ys).takeWhile p = xs.takeWhile p ∧ (xs ++ ys).dropWhile p = xs.dropWhile p ++ ys := by
  induction xs with
  | nil =>
    cases ys with
    | nil => simp
    | cons y ys => simpa using h rfl y rfl
  | cons x xs ih =>
    cases hx : p x with
    | true => simpa [hx] using ih (by simpa [hx] using h)
    | false => simp [hx]

namespace Lexeme

/-- The lexeme at the end of a text is the same if `behind` follows. -/
def Stops (lexeme : Lexeme) (behind : List Char) : Prop :=
  match lexeme.kind with
  | .escaped | .closer _ => True
  | .macroName => (∀ c ∈ behind.head?, isNameChar c = false) ∧
      ∀ c ∈ (lexeme.text.drop 1 ++ behind).head?, isEscapable c = false
  | .opener b => ∀ c ∈ behind.head?, c ≠ b.opening
  | .paragraphBreak | .newline => ∀ c ∈ behind.head?, c ≠ '\n'
  | .text => ∀ c ∈ behind.head?, isPlainChar c = false

theorem openers_before (b : Bracket) (rest behind : List Char)
    (h : (openers b rest).2 = [] → (openers b rest).1.Stops behind) :
    openers b (rest ++ behind) = ((openers b rest).1, (openers b rest).2 ++ behind) := by
  obtain ⟨htake, hdrop⟩ := takeWhile_before (p := (· == b.opening)) rest behind
    fun hnil c hc => by simpa using h hnil c hc
  simp [openers, htake, hdrop]

theorem afterEscape_before (rest behind : List Char)
    (h : (afterEscape rest).2 = [] → (afterEscape rest).1.Stops behind) :
    afterEscape (rest ++ behind) = ((afterEscape rest).1, (afterEscape rest).2 ++ behind) := by
  cases rest with
  | nil =>
    obtain ⟨hname, hescapable⟩ := h rfl
    cases behind with
    | nil => rfl
    | cons c behind =>
      have hc : isNameChar c = false := hname c rfl
      have hc' : isEscapable c = false := hescapable c rfl
      simp [afterEscape, hc, hc']
  | cons c rest =>
    simp only [afterEscape, List.cons_append] at h ⊢
    split
    · rfl
    · next hplain =>
      rw [if_neg hplain] at h
      obtain ⟨htake, hdrop⟩ := takeWhile_before (p := isNameChar) (c :: rest) behind
        fun hnil => (h hnil).1
      simp only [List.cons_append] at htake hdrop
      rw [htake, hdrop]

theorem lineEnds_before (rest behind : List Char)
    (h : (lineEnds rest).2 = [] → (lineEnds rest).1.Stops behind) :
    lineEnds (rest ++ behind) = ((lineEnds rest).1, (lineEnds rest).2 ++ behind) := by
  have hbreak : rest.dropWhile (· == '\n') = [] → ∀ c ∈ behind.head?, (c == '\n') = false := by
    intro hnil c hc
    have hall := List.takeWhile_append_dropWhile (p := (· == '\n')) (l := rest)
    have hrest : (lineEnds rest).2 = [] := by
      unfold lineEnds
      split
      · next hmore =>
        rw [← hall, hmore, hnil]
        rfl
      · exact hnil
    have hstops := h hrest
    have hc : c ≠ '\n' := by
      unfold lineEnds at hstops
      split at hstops <;> exact hstops c hc
    simpa using hc
  obtain ⟨htake, hdrop⟩ := takeWhile_before rest behind hbreak
  unfold lineEnds
  rw [htake, hdrop]
  split <;> rfl

/-- What follows a text does not change its first lexeme, unless it goes on there. -/
theorem split_before (c : Char) (rest behind : List Char)
    (h : (split c rest).2 = [] → (split c rest).1.Stops behind) :
    split c (rest ++ behind) = ((split c rest).1, (split c rest).2 ++ behind) := by
  unfold split at h ⊢
  split
  · next hc =>
    rw [if_pos hc] at h
    exact afterEscape_before rest behind h
  · next hescape =>
    rw [if_neg hescape] at h
    split
    · next hc => exact openers_before .positional rest behind (by rwa [if_pos hc] at h)
    · next hopen =>
      rw [if_neg hopen] at h
      split
      · next hc => exact openers_before .named rest behind (by rwa [if_pos hc] at h)
      · next hopen' =>
        rw [if_neg hopen'] at h
        split
        · rfl
        · next hclose =>
          rw [if_neg hclose] at h
          split
          · rfl
          · next hclose' =>
            rw [if_neg hclose'] at h
            split
            · next hc => exact lineEnds_before rest behind (by rwa [if_pos hc] at h)
            · next hnewline =>
              rw [if_neg hnewline] at h
              obtain ⟨htake, hdrop⟩ := takeWhile_before rest behind h
              rw [htake, hdrop]

/-- A line end goes on with no lexeme but other line ends. -/
theorem stops_newline (c : Char) (rest behind : List Char) (h : (c :: rest).getLast? ≠ some '\n')
    (hnil : (split c rest).2 = []) : (split c rest).1.Stops ('\n' :: behind) := by
  have htext : (split c rest).1.text = c :: rest := by
    simpa [hnil] using split_append c rest
  have hread := split_read c rest
  rw [← htext] at h
  unfold Stops
  unfold Read at hread
  generalize (split c rest).1 = lexeme at h hread ⊢
  obtain ⟨kind, text⟩ := lexeme
  cases kind with
  | escaped | closer => trivial
  | macroName =>
    obtain ⟨name, rfl, -, -, hescapable⟩ := hread
    refine ⟨by rintro d ⟨⟩; decide, fun d hd => ?_⟩
    cases name with
    | nil =>
      obtain rfl : '\n' = d := by simpa using hd
      decide
    | cons d' name => exact hescapable d (by simpa using hd)
  | opener b =>
    rintro d ⟨⟩
    cases b <;> decide
  | paragraphBreak =>
    obtain ⟨count, hcount, rfl, -⟩ := hread
    simp [List.getLast?_replicate] at h
    omega
  | newline =>
    obtain rfl := hread
    exact absurd rfl h
  | text =>
    rintro d ⟨⟩
    decide

theorem split_suffix (c : Char) (rest : List Char) : (split c rest).2 <:+ c :: rest :=
  ⟨_, split_append c rest⟩

end Lexeme

theorem isPrefixOf_replicate_before {ch : Char} {run : Nat} {xs ys : List Char}
    (h : xs.length < run → ys.head? ≠ some ch) :
    (List.replicate run ch).isPrefixOf (xs ++ ys) = (List.replicate run ch).isPrefixOf xs := by
  induction run generalizing xs with
  | zero => simp
  | succ run ih =>
    cases xs with
    | nil =>
      have hhead := h (Nat.succ_pos run)
      cases ys with
      | nil => rfl
      | cons y ys =>
        have hy : ch ≠ y := by simpa [eq_comm] using hhead
        simp [List.replicate_succ, List.isPrefixOf, hy]
    | cons x xs =>
      have hrest := @ih xs fun hlt => h (Nat.succ_lt_succ hlt)
      simp [List.replicate_succ, List.isPrefixOf, hrest]

namespace Literal

theorem run_le_length {ch : Char} {run : Nat} {text : List Char}
    (h : (List.replicate run ch).isPrefixOf text = true) : run ≤ text.length := by
  simpa using (List.isPrefixOf_iff_prefix.mp h).length_le

/-- A text is as long as the closing run that is found in it. -/
theorem length_of_scan (b : Bracket) (run : Nat) (text : List Char) {left : List Char}
    (h : (scan b run text).rest? = some left) : run ≤ text.length := by
  have hscan := congrArg List.length (scan_append b run text)
  rw [h] at hscan
  simp [closeRun] at hscan
  omega

/-- A closing run that is found in a text is found there whatever follows. -/
theorem scan_before (b : Bracket) (run : Nat) (text behind : List Char) {left : List Char}
    (h : (scan b run text).rest? = some left) :
    scan b run (text ++ behind) =
      { scan b run text with rest? := some (left ++ behind) } := by
  have hlength := length_of_scan b run text h
  have hopen : ∀ {text}, run ≤ text.length →
      (openRun b run).isPrefixOf (text ++ behind) = (openRun b run).isPrefixOf text :=
    fun hle => isPrefixOf_replicate_before fun hlt => absurd hle (Nat.not_le_of_lt hlt)
  have hclose : ∀ {text}, run ≤ text.length →
      (closeRun b run).isPrefixOf (text ++ behind) = (closeRun b run).isPrefixOf text :=
    fun hle => isPrefixOf_replicate_before fun hlt => absurd hle (Nat.not_le_of_lt hlt)
  have hdrop : ∀ {ch text}, (List.replicate run ch).isPrefixOf text = true →
      (text ++ behind).drop run = text.drop run ++ behind :=
    fun hfront => List.drop_append_of_le_length (run_le_length hfront)
  fun_induction scan b run text with
  | case1 => simp at h
  | case2 c rest hescaped ih =>
    have hle := run_le_length hescaped.2
    rw [List.cons_append, scan, hopen hle, if_pos hescaped, hdrop hescaped.2,
      ih h (length_of_scan b run _ h)]
    rfl
  | case3 c rest hopener hescaped ih =>
    have hle := run_le_length hescaped.2
    rw [List.cons_append, scan, hopen hle, hclose hle, if_neg hopener, if_pos hescaped,
      hdrop hescaped.2, ih h (length_of_scan b run _ h)]
    rfl
  | case4 c rest hopener hcloser hfound =>
    have hc : c ≠ escapeChar := by
      rintro rfl
      cases run with
      | zero => exact hopener ⟨rfl, rfl⟩
      | succ run =>
        rw [closeRun, List.replicate_succ, List.isPrefixOf, Bool.and_eq_true, beq_iff_eq] at hfound
        cases b <;> exact absurd hfound.1 (by decide)
    rw [List.cons_append, scan, if_neg fun hescaped => hc hescaped.1,
      if_neg fun hescaped => hc hescaped.1, ← List.cons_append, hclose hlength, if_pos hfound,
      hdrop hfound]
    cases h
    rfl
  | case5 c rest hopener hcloser hfound ih =>
    have hle := length_of_scan b run rest h
    rw [List.cons_append, scan, hopen hle, hclose hle, if_neg hopener, if_neg hcloser,
      ← List.cons_append, hclose hlength, if_neg hfound, ih h hle]
    rfl

theorem scan_suffix (b : Bracket) (run : Nat) (text : List Char) :
    (scan b run text).rest <:+ text := by
  fun_induction scan b run text with
  | case1 => exact List.suffix_refl _
  | case2 c rest _ ih | case3 c rest _ _ ih =>
    exact ih.trans ((List.drop_suffix run rest).trans (List.suffix_cons c rest))
  | case4 c rest => exact List.drop_suffix run (c :: rest)
  | case5 c rest _ _ _ ih => exact ih.trans (List.suffix_cons c rest)

end Literal

namespace Reading

def before (r : Reading) (behind : List Char) : Reading :=
    { r with rest := r.rest ++ behind }

/-- Whether the sign behind the name of an argument can be read, or be found to be missing. -/
def NameStops (text behind : List Char) : Prop :=
  text.dropWhile isNameChar = [] → ∀ c ∈ behind.head?, isNameChar c = false ∧ c ≠ '='

theorem argumentName_before (here : Position) {text behind : List Char} (h : NameStops text behind) :
    argumentName here (text ++ behind) = (argumentName here text).before behind := by
  obtain ⟨htake, hdrop⟩ := takeWhile_before (p := isNameChar) text behind
    fun hnil c hc => (h hnil c hc).1
  unfold argumentName
  rw [htake, hdrop]
  cases hrest : text.dropWhile isNameChar with
  | nil =>
    have hsign : behind.head? ≠ some '=' := fun hc => (h hrest '=' hc).2 rfl
    cases behind with
    | nil => rfl
    | cons c behind =>
      have hc : c ≠ '=' := by simpa using hsign
      simp [before, hc]
  | cons c rest =>
    by_cases hc : c = '='
    · subst hc
      rfl
    · simp [before, hc]

theorem nameStops_of_silent (here : Position) {text : List Char} (behind : List Char)
    (h : (argumentName here text).lexed.diagnostics = []) : NameStops text behind := by
  intro hnil
  unfold argumentName at h
  rw [hnil] at h
  simp at h

def leavesOpen : Problem → Bool
  | .unterminatedLiteral .. => true
  | _ => false

/-- No literal argument is left open. -/
def Closes (diagnostics : List Diagnostic) : Prop :=
  ∀ d ∈ diagnostics, leavesOpen d.problem = false

instance (diagnostics : List Diagnostic) : Decidable (Closes diagnostics) :=
  inferInstanceAs (Decidable (∀ d ∈ diagnostics, leavesOpen d.problem = false))

theorem literal_before (b : Bracket) (run : Nat) (start here : Position) (text behind : List Char)
    (h : Closes (literal b run start here text).lexed.diagnostics) :
    literal b run start here (text ++ behind) = (literal b run start here text).before behind := by
  cases hrest : (Literal.scan b run text).rest? with
  | none => simp [literal, hrest, Closes, leavesOpen] at h
  | some left =>
    unfold literal
    rw [Literal.scan_before b run text behind hrest]
    simp only [hrest, before, Literal.rest, Option.getD_some]
    rfl

/-- What an argument begins with is read off the first text if it is complete there. -/
theorem argument_before (b : Bracket) (run : Nat) (start here : Position) (text behind : List Char)
    (hname : b = .named → NameStops text behind)
    (h : Closes (argument b run start here text).lexed.diagnostics) :
    argument b run start here (text ++ behind) =
      (argument b run start here text).before behind := by
  have hnamed : ∀ opened : Reading, opened.rest = text →
      (if b = .named then (opened.before behind).andThen argumentName else opened.before behind) =
        (if b = .named then opened.andThen argumentName else opened).before behind := by
    rintro opened rfl
    split
    · next hb => simp only [andThen, before, argumentName_before opened.here (hname hb)]
    · rfl
  have hopened := hnamed ⟨⟨[⟨.opener b, start⟩], []⟩, here, text⟩ rfl
  rw [before] at hopened
  unfold argument at h ⊢
  simp only at h hopened ⊢
  rw [hopened]
  generalize (if b = .named then andThen ⟨⟨[⟨.opener b, start⟩], []⟩, here, text⟩ argumentName
    else ⟨⟨[⟨.opener b, start⟩], []⟩, here, text⟩) = named at h
  split
  · next hrun =>
    rw [if_pos hrun] at h
    have hliteral : Closes (literal b run start named.here named.rest).lexed.diagnostics :=
      fun d hd => h d (List.mem_append_right _ hd)
    simp only [andThen, before, literal_before b run start named.here named.rest behind hliteral]
  · rfl

theorem argument_before_of_silent (b : Bracket) (run : Nat) (start here : Position)
    (text behind : List Char) (h : (argument b run start here text).lexed.diagnostics = []) :
    argument b run start here (text ++ behind) =
      (argument b run start here text).before behind := by
  refine argument_before b run start here text behind ?_ (by simp [h, Closes])
  rintro rfl
  refine nameStops_of_silent here behind ?_
  unfold argument at h
  simp only [if_true] at h
  split at h
  · exact (List.append_eq_nil_iff.mp (List.append_eq_nil_iff.mp h).1).2
  · exact (List.append_eq_nil_iff.mp h).2

theorem argumentName_suffix (here : Position) (text : List Char) :
    (argumentName here text).rest <:+ text := by
  have h := List.dropWhile_suffix (l := text) isNameChar
  unfold argumentName
  split
  · next heq => exact (List.suffix_cons _ _).trans (heq ▸ h)
  · exact h

theorem literal_suffix (b : Bracket) (run : Nat) (start here : Position) (text : List Char) :
    (literal b run start here text).rest <:+ text := by
  have h := Literal.scan_suffix b run text
  unfold literal
  simp only
  split <;> exact h

theorem argument_suffix (b : Bracket) (run : Nat) (start here : Position) (text : List Char) :
    (argument b run start here text).rest <:+ text := by
  have hname := argumentName_suffix here text
  unfold argument
  simp only
  split <;> split
  · exact (literal_suffix ..).trans hname
  · exact literal_suffix ..
  · exact hname
  · exact List.suffix_refl _

end Reading

-- ----------------------------------------------------------------------------
-- The seam
-- ----------------------------------------------------------------------------

theorem getLast?_of_suffix {xs ys : List Char} (h : xs <:+ ys) (hlast : ys.getLast? ≠ some '\n') :
    xs.getLast? ≠ some '\n' := by
  obtain ⟨front, rfl⟩ := h
  intro hxs
  rw [List.getLast?_append, hxs] at hlast
  exact hlast rfl

theorem lineEnds_seam {behind : List Char} (h : behind.head? ≠ some '\n') :
    Lexeme.split '\n' ('\n' :: behind) = (⟨.paragraphBreak, ['\n', '\n']⟩, behind) := by
  have hsplit : Lexeme.split '\n' ('\n' :: behind) = Lexeme.lineEnds ('\n' :: behind) := rfl
  rw [hsplit]
  cases behind with
  | nil => rfl
  | cons c rest =>
    have hc : (c == '\n') = false := by simpa using h
    simp [Lexeme.lineEnds, hc]

namespace Lexed

def Joins (behind : List Char) (whole joined : Lexed) : Prop :=
  ∃ content last, whole.tokens = content ++ [⟨.closer .positional, last⟩] ∧
    joined.tokens = content ++ ⟨.paragraphBreak, last⟩ ::
      (ofText none (last.after ['\n', '\n']) behind).tokens

theorem Joins.behind {behind : List Char} {whole joined : Lexed} (h : Joins behind whole joined)
    (first : Lexed) : Joins behind (first ++ whole) (first ++ joined) := by
  obtain ⟨content, last, hwhole, hjoined⟩ := h
  exact ⟨first.tokens ++ content, last, by simp [hwhole], by simp [hjoined]⟩

theorem ofText_seam (pending : Option PendingText) (here : Position) (text : List Char)
    {behind : List Char} (hsilent : (ofText pending here text).diagnostics = [])
    (hend : text.getLast? ≠ some '\n') (hbegin : behind.head? ≠ some '\n') :
    Joins behind (ofText pending here text)
      (ofText pending here (text ++ '\n' :: '\n' :: behind)) := by
  have hrest : ∀ c text, (c :: text).getLast? ≠ some '\n' →
      (Lexeme.split c text).2.getLast? ≠ some '\n' :=
    fun c text => getLast?_of_suffix (Lexeme.split_suffix c text)
  have hsplit : ∀ c text, (c :: text).getLast? ≠ some '\n' →
      Lexeme.split c (text ++ '\n' :: '\n' :: behind) =
        ((Lexeme.split c text).1, (Lexeme.split c text).2 ++ '\n' :: '\n' :: behind) :=
    fun c text h => Lexeme.split_before c text _ (Lexeme.stops_newline c text _ h)
  fun_induction ofText pending here text with
  | case1 pending here =>
    refine ⟨PendingText.flush pending, here, rfl, ?_⟩
    rw [List.nil_append, ofText, lineEnds_seam hbegin]
    simp
  | case2 pending here c text lexeme next hkind ih | case3 pending here c text lexeme next hkind ih
  | case4 pending here c text lexeme next hkind ih =>
    rw [List.cons_append, ofText, hsplit c text hend]
    simp only [lexeme] at hkind
    simp only [hkind]
    exact ih hsilent (hrest c text hend)
  | case5 pending here c text lexeme next hkind name ih | case7 pending here c text lexeme next b hkind ih =>
    rw [List.cons_append, ofText, hsplit c text hend]
    simp only [lexeme] at hkind
    simp only [hkind]
    exact (ih hsilent (hrest c text hend)).behind _
  | case6 pending here c text lexeme next hkind count surplus ih =>
    rw [List.cons_append, ofText, hsplit c text hend]
    simp only [lexeme] at hkind
    simp only [hkind]
    exact (ih (List.append_eq_nil_iff.mp hsilent).2 (hrest c text hend)).behind _
  | case8 pending here c text lexeme next b hkind read ih =>
    obtain ⟨hargument, hsilent⟩ := List.append_eq_nil_iff.mp hsilent
    have hread := Reading.argument_before_of_silent b lexeme.text.length here next
      (Lexeme.split c text).2 ('\n' :: '\n' :: behind) hargument
    rw [List.cons_append, ofText, hsplit c text hend]
    simp only [lexeme, next] at hkind hread
    simp only [hkind]
    rw [hread]
    have hend' := getLast?_of_suffix (Reading.argument_suffix b lexeme.text.length here next
      (Lexeme.split c text).2) (hrest c text hend)
    exact (ih hsilent hend').behind _

end Lexed

-- ----------------------------------------------------------------------------
-- Positions do not matter
-- ----------------------------------------------------------------------------

namespace PendingText

variable {pending pending' : Option PendingText}

theorem kinds_flush (h : pending'.map (·.text) = pending.map (·.text)) :
    (flush pending').map (·.kind) = (flush pending).map (·.kind) := by
  cases pending <;> cases pending' <;> simp_all [flush]

theorem text_push (h : pending'.map (·.text) = pending.map (·.text)) (here here' : Position)
    (more : List Char) :
    (push pending' here' more).text = (push pending here more).text := by
  cases pending <;> cases pending' <;> simp_all [push]

end PendingText

/-- The same tokens and reports at different positions. -/
structure Lexed.Alike (l m : Lexed) : Prop where
  kinds : m.tokens.map (·.kind) = l.tokens.map (·.kind)
  problems : m.diagnostics.map (·.problem) = l.diagnostics.map (·.problem)

theorem Lexed.Alike.append {l m l' m' : Lexed} (h : l.Alike m) (h' : l'.Alike m') :
    (l ++ l').Alike (m ++ m') := by
  constructor
  · rw [tokens_append, tokens_append, List.map_append, List.map_append, h.kinds, h'.kinds]
  · rw [diagnostics_append, diagnostics_append, List.map_append, List.map_append, h.problems,
      h'.problems]

theorem Lexed.Alike.flushed {pending pending' : Option PendingText}
    (h : pending'.map (·.text) = pending.map (·.text)) {tokens tokens' : List Token}
    {diagnostics diagnostics' : List Diagnostic}
    (halike : Lexed.Alike ⟨tokens, diagnostics⟩ ⟨tokens', diagnostics'⟩) :
    Lexed.Alike ⟨PendingText.flush pending ++ tokens, diagnostics⟩
      ⟨PendingText.flush pending' ++ tokens', diagnostics'⟩ :=
  append (l := ⟨PendingText.flush pending, []⟩) (m := ⟨PendingText.flush pending', []⟩)
    ⟨PendingText.kinds_flush h, rfl⟩ halike

namespace Reading

/-- Two readings of one text from different positions. -/
structure Alike (r s : Reading) : Prop where
  lexed : r.lexed.Alike s.lexed
  rest : s.rest = r.rest

theorem Alike.andThen {r s : Reading} (h : r.Alike s) {next next' : Position → List Char → Reading}
    (hnext : ∀ here here' text, (next here text).Alike (next' here' text)) :
    (r.andThen next).Alike (s.andThen next') := by
  obtain ⟨hlexed, hrest⟩ := hnext r.here s.here r.rest
  refine ⟨?_, ?_⟩ <;> simp only [Reading.andThen, h.rest, hrest]
  exact h.lexed.append hlexed

theorem argumentName_alike (here here' : Position) (text : List Char) :
    (argumentName here text).Alike (argumentName here' text) := by
  unfold argumentName
  split <;> exact ⟨⟨rfl, rfl⟩, rfl⟩

theorem literal_alike (b : Bracket) (run : Nat) (start start' here here' : Position)
    (text : List Char) :
    (literal b run start here text).Alike (literal b run start' here' text) := by
  unfold literal
  simp only
  split <;> refine ⟨⟨?_, rfl⟩, rfl⟩ <;> split <;> rfl

theorem argument_alike (b : Bracket) (run : Nat) (start start' here here' : Position)
    (text : List Char) :
    (argument b run start here text).Alike (argument b run start' here' text) := by
  have hopened : Alike ⟨⟨[⟨.opener b, start⟩], []⟩, here, text⟩
      ⟨⟨[⟨.opener b, start'⟩], []⟩, here', text⟩ := ⟨⟨rfl, rfl⟩, rfl⟩
  unfold argument
  simp only
  split <;> split
  · exact (hopened.andThen argumentName_alike).andThen (literal_alike b run start start')
  · exact hopened.andThen (literal_alike b run start start')
  · exact hopened.andThen argumentName_alike
  · exact hopened

end Reading

theorem Lexed.alike_ofText (pending : Option PendingText) (here : Position) (text : List Char) :
    ∀ (pending' : Option PendingText) (here' : Position),
      pending'.map (·.text) = pending.map (·.text) →
      (ofText pending here text).Alike (ofText pending' here' text) := by
  fun_induction ofText pending here text with
  | case1 pending here =>
    intro pending' here' h
    rw [ofText]
    exact .flushed h ⟨rfl, rfl⟩
  | case2 pending here c text lexeme next hkind ih | case3 pending here c text lexeme next hkind ih
  | case4 pending here c text lexeme next hkind ih =>
    intro pending' here' h
    rw [ofText]
    simp only [lexeme] at hkind
    simp only [hkind]
    exact ih _ _ (by simp [PendingText.text_push h here here', lexeme])
  | case5 pending here c text lexeme next hkind name ih =>
    intro pending' here' h
    rw [ofText]
    simp only [lexeme] at hkind
    simp only [hkind]
    refine .append (.flushed h ?_) (ih none _ rfl)
    exact ⟨rfl, rfl⟩
  | case6 pending here c text lexeme next hkind count surplus ih =>
    intro pending' here' h
    rw [ofText]
    simp only [lexeme] at hkind
    simp only [hkind]
    refine .append (.flushed h ⟨rfl, ?_⟩) (ih none _ rfl)
    simp only [surplus, count, lexeme]
    split <;> rfl
  | case7 pending here c text lexeme next b hkind ih =>
    intro pending' here' h
    rw [ofText]
    simp only [lexeme] at hkind
    simp only [hkind]
    refine .append (.flushed h ?_) (ih none _ rfl)
    exact ⟨rfl, rfl⟩
  | case8 pending here c text lexeme next b hkind read ih =>
    intro pending' here' h
    obtain ⟨hlexed, hrest⟩ := Reading.argument_alike b lexeme.text.length here here' next
      (here'.after lexeme.text) (Lexeme.split c text).2
    rw [ofText]
    simp only [lexeme] at hkind
    simp only [hkind]
    rw [hrest]
    exact (Alike.flushed h hlexed).append (ih none _ rfl)

/-- Positions do not matter to the kinds. -/
theorem Lexed.kinds_ofText (pending : Option PendingText) (here : Position) (text : List Char)
    (pending' : Option PendingText) (here' : Position)
    (h : pending'.map (·.text) = pending.map (·.text)) :
    (ofText pending' here' text).tokens.map (·.kind) =
      (ofText pending here text).tokens.map (·.kind) :=
  (alike_ofText pending here text pending' here' h).kinds

-- ----------------------------------------------------------------------------
-- Documents
-- ----------------------------------------------------------------------------

/-- The kinds of the tokens in a document, without those around it. -/
def contentKinds (source : String) : List TokenKind :=
  ((Lexed.ofText none .origin (documentText source)).tokens.map (·.kind)).dropLast

theorem kinds_ofText_document (source : String) :
    (Lexed.ofText none .origin (documentText source)).tokens.map (·.kind) =
      contentKinds source ++ [.closer .positional] := by
  obtain ⟨content, last, htokens, -⟩ := Lexed.closed_ofText none .origin (documentText source)
  simp [contentKinds, htokens]

theorem kinds_tokenize (source : String) : (tokenize source).tokens.map (·.kind) =
    .macroName MacroName.toplevel :: .opener .positional ::
      (contentKinds source ++ [.closer .positional]) := by
  rw [← kinds_ofText_document]
  rfl

theorem Literal.dropLastNewline_append {front behind : List Char}
    (hfront : behind = [] → front.getLast? ≠ some '\n') :
    dropLastNewline (front ++ behind) = front ++ dropLastNewline behind := by
  cases behind with
  | nil => simp [dropLastNewline, hfront rfl]
  | cons c rest =>
    have hne : c :: rest ≠ [] := List.cons_ne_nil c rest
    rw [dropLastNewline, dropLastNewline, List.getLast?_append_of_ne_nil front hne,
      List.dropLast_append_of_ne_nil hne]
    split <;> rfl

theorem documentText_seam (first : String) {second : String} (hsecond : second ≠ "") :
    documentText (first ++ "\n\n" ++ second) =
      first.toList ++ '\n' :: '\n' :: documentText second := by
  have hlist : second.toList ≠ [] := by simpa using hsecond
  have htext : (first ++ "\n\n" ++ second).toList = (first.toList ++ ['\n', '\n']) ++ second.toList := by
    simp
  rw [documentText, htext, Literal.dropLastNewline_append fun hnil => absurd hnil hlist,
    List.append_assoc]
  rfl

theorem documentText_eq {source : String} (h : source.toList.getLast? ≠ some '\n') :
    documentText source = source.toList := by
  rw [documentText, Literal.dropLastNewline, if_neg h]

theorem head?_documentText {source : String} (h : source.toList.head? ≠ some '\n') :
    (documentText source).head? ≠ some '\n' := by
  intro hhead
  have hfront : documentText source <+: source.toList := by
    unfold documentText Literal.dropLastNewline
    split
    · exact List.dropLast_prefix _
    · exact List.prefix_refl _
  obtain ⟨behind, heq⟩ := hfront
  rw [← heq, List.head?_append, hhead] at h
  exact h rfl

/-- Two documents with a blank line between them. -/
theorem contentKinds_seam {first second : String} (hsilent : (tokenize first).diagnostics = [])
    (hend : first.toList.getLast? ≠ some '\n') (hbegin : second.toList.head? ≠ some '\n')
    (hsecond : second ≠ "") :
    contentKinds (first ++ "\n\n" ++ second) =
      contentKinds first ++ .paragraphBreak :: contentKinds second := by
  have hfirst := documentText_eq hend
  have hquiet : (Lexed.ofText none .origin first.toList).diagnostics = [] := by
    rw [← hfirst]
    exact hsilent
  obtain ⟨content, last, hwhole, hjoined⟩ :=
    Lexed.ofText_seam none .origin first.toList hquiet hend (head?_documentText hbegin)
  have hcontent : contentKinds first = content.map (·.kind) := by
    simp [contentKinds, hfirst, hwhole]
  have hboth := kinds_ofText_document (first ++ "\n\n" ++ second)
  rw [documentText_seam first hsecond, hjoined, List.map_append, List.map_cons, ← hcontent,
    Lexed.kinds_ofText none .origin _ none _ rfl, kinds_ofText_document, ← List.cons_append,
    ← List.append_assoc] at hboth
  exact (List.append_cancel_right hboth).symm

end Macromark
