import Macromark.Proofs.Tree.Grammar
import Macromark.Registry.Builtin

/-!
# The parser accepts its grammar

What is read without a report up to a closer is a row of the grammar
(`items_of_silent`). With `items_readOn` the parser has nothing to report
exactly if the text of the document is such a row (`parse_silent_iff`).
-/

namespace Macromark

open Grammar (Fits Items Arguments fits_positional_iff fits_named_iff)
open Token (Named)

namespace Parser.State

variable {registry : Registry} {s t : State} {call : OpenCall} {a : OpenArgument}
variable {below : List OpenArgument} {used : List (Option String)} {tokens : List Token}

-- ----------------------------------------------------------------------------
-- What is always reported
-- ----------------------------------------------------------------------------

theorem Inside.reported_finish (h : s.Inside a below) : s.finish.Reported := by
  obtain ⟨children, hstack⟩ := h
  unfold State.finish
  split
  · next hnil => simp [hstack] at hnil
  · exact ((reported_report _ _ _).close _ _).settle.finish

/-- The arguments of a macro end before the end of the tokens. -/
theorem Calling.reported_end (h : s.Calling call a below) :
    (s.readAll registry []).Reported := by
  cases hdef : call.definition with
  | none => exact (h.reported hdef).finish
  | some d => exact (h.ready hdef).inside.reported_finish

theorem Ready.reported_end (h : s.Ready a below) : (s.readAll registry []).Reported :=
  h.inside.reported_finish

/-- Behind content no argument begins. -/
theorem Ready.reported_opener (h : s.Ready a below) (b : Bracket) (position : Position)
    (isLast : Bool) : (s.settle.readContent registry ⟨.opener b, position⟩ isLast).Reported := by
  obtain ⟨children, hstack⟩ := h.inside
  cases b <;> simp [readContent, hstack, Reported, report, enter]

theorem Ready.reported_argumentName (h : s.Ready a below) (name : String) (position : Position)
    (isLast : Bool) :
    (s.settle.readContent registry ⟨.argumentName name, position⟩ isLast).Reported := by
  obtain ⟨children, hstack⟩ := h.inside
  simp [readContent, hstack, Reported, report]

/-- The next token is none of the arguments that a macro may have. -/
def ReadsContent (registry : Registry) (s : State) (tokens : List Token) : Prop :=
  ∀ token ∈ tokens.head?, ∀ isLast,
    s.read registry token isLast = s.settle.readContent registry token isLast

theorem readsContent (h : s.expecting = .content) (tokens : List Token) :
    s.ReadsContent registry tokens := by
  intro token _ isLast
  simp [read, h]

theorem Ready.readsContent_plaintext (h : s.Ready a below) (text : String) (position : Position)
    (isLast : Bool) :
    (s.read registry ⟨.plaintext text, position⟩ isLast).ReadsContent registry tokens := by
  obtain ⟨children, hstack⟩ := h.inside
  apply readsContent
  simpa [read, readContent, hstack, leaf, deliver] using h.expecting

theorem Ready.readsContent_paragraphBreak (h : s.Ready a below) (position : Position)
    (isLast : Bool) :
    (s.read registry ⟨.paragraphBreak, position⟩ isLast).ReadsContent registry tokens := by
  obtain ⟨children, hstack⟩ := h.inside
  apply readsContent
  simpa [read, readContent, hstack, leaf, deliver] using h.expecting

theorem Calling.readsContent (h : s.Calling call a below) (registry : Registry)
    (hhead : ∀ token ∈ tokens.head?, ∀ b, token.kind ≠ .opener b) :
    s.ReadsContent registry tokens := by
  intro token htoken isLast
  unfold State.read
  split
  · next hkind => exact absurd hkind (hhead token htoken _)
  · next hkind => exact absurd hkind (hhead token htoken _)
  · next hexpecting _ => simp [h.expecting] at hexpecting
  · rfl

-- ----------------------------------------------------------------------------
-- What is read silently
-- ----------------------------------------------------------------------------

def Silent (registry : Registry) (s : State) (tokens : List Token) : Prop :=
  ¬ (s.readAll registry tokens).Reported

theorem Silent.step {token : Token} {rest : List Token}
    (h : s.Silent registry (token :: rest)) :
    (s.read registry token rest.isEmpty).Silent registry rest := h

theorem Silent.read {token : Token} {rest : List Token}
    (h : s.Silent registry (token :: rest)) : ¬ (s.read registry token rest.isEmpty).Reported :=
  fun hreported => h (hreported.readAll registry rest)

theorem Silent.readOn {first rest : List Token} (h : s.Silent registry (first ++ rest))
    (hrest : rest ≠ []) : (s.readOn registry first).Silent registry rest := by
  rwa [Silent, readAll_append first hrest] at h

theorem Silent.settle (h : s.Silent registry tokens) (hreads : s.ReadsContent registry tokens) :
    ¬ s.settle.Reported := by
  intro hreported
  cases tokens with
  | nil => exact h hreported.finish
  | cons token rest =>
    refine h.read ?_
    rw [hreads token rfl]
    exact hreported.readContent registry token _

/-- The argument of a call that has been opened is closed by its own closer. -/
theorem Silent.closer {b found : Bracket} {position : Position} {rest : List Token}
    (h : s.Silent registry (⟨.closer found, position⟩ :: rest)) (hs : s.Ready a below)
    (hinner : a.outermost = false) (hbracket : a.bracket = b) : found = b ∧ rest ≠ [] := by
  have hread := h.read
  constructor
  · by_contra hfound
    exact hread (hs.reported_closer hinner found position _ (.inr (hbracket ▸ hfound)))
  · rintro rfl
    exact hread (hs.reported_closer hinner found position _ (.inl rfl))

def BeginsWithItems (registry : Registry) (tokens : List Token) : Prop :=
  ∃ items b position rest, tokens = items ++ ⟨.closer b, position⟩ :: rest ∧
    Items registry (items.map (·.kind))

/-- There are arguments at the front that a macro may have which has been given some already. Behind
them comes no other one. -/
def BeginsWithArguments (registry : Registry) (definition : Option MacroDef)
    (used : List (Option String)) (tokens : List Token) : Prop :=
  ∃ written arguments rest, tokens = arguments ++ rest ∧
    Arguments registry written (arguments.map (·.kind)) ∧
    (∀ d, definition = some d → Fits d (used ++ written)) ∧ rest ≠ [] ∧
    ∀ token ∈ rest.head?, ∀ b, token.kind ≠ .opener b

/-- Where the parser is at content and finds nothing to report, there is content. -/
def ItemsOfSilent (registry : Registry) (tokens : List Token) : Prop :=
  ∀ (s : State) (a : OpenArgument) (below : List OpenArgument), s.Ready a below →
    s.ReadsContent registry tokens → Named tokens → s.Silent registry tokens →
    BeginsWithItems registry tokens

/-- Where the parser is behind the name of a macro and finds nothing to report, its arguments follow. -/
def ArgumentsOfSilent (registry : Registry) (tokens : List Token) : Prop :=
  ∀ (s : State) (call : OpenCall) (a : OpenArgument) (below : List OpenArgument)
    (used : List (Option String)), s.Calling call a below → Took used call →
    (∀ d, call.definition = some d → Fits d used) → Named tokens → s.Silent registry tokens →
    BeginsWithArguments registry call.definition used tokens

/-- The tokens after a token and the items at their front still begin with items. -/
theorem BeginsWithItems.leaf {token : Token} {others : List Token}
    (h : BeginsWithItems registry others)
    (hleaf : ∀ items, Items registry (items.map (·.kind)) →
      Items registry ((token :: items).map (·.kind))) :
    BeginsWithItems registry (token :: others) := by
  obtain ⟨items, b, last, rest, rfl, hitems⟩ := h
  exact ⟨token :: items, b, last, rest, rfl, hleaf items hitems⟩

section
variable (hr : registry.Coherent)
  (ih : ∀ shorter : List Token, shorter.length < tokens.length →
    ItemsOfSilent registry shorter ∧ ArgumentsOfSilent registry shorter)
include hr ih

/-- The content of an argument, its closer, and the arguments behind it. -/
theorem argument_of_silent {inner : OpenCall} {argument : OpenArgument} {b : Bracket}
    {others : List Token} (hlength : others.length < tokens.length) (hs : s.Calling call a below)
    (hopens : Opens s t b call.definition used inner argument)
    (hfits : ∀ d, call.definition = some d → Fits d used) (hnamed : Named others)
    (hsilent : t.Silent registry others) : ∃ items last arguments,
      others = items ++ ⟨.closer b, last⟩ :: arguments ∧ Items registry (items.map (·.kind)) ∧
      BeginsWithArguments registry call.definition used arguments := by
  have hready := ready_of_opens hopens hs.silent
  obtain ⟨items, found, last, behind, rfl, hitems⟩ := (ih others hlength).1 t argument _ hready
    (readsContent (hopens.entered ▸ rfl) _) hnamed hsilent
  have hu := items_readOn hr hitems hready rfl
  have hcloser := hsilent.readOn (by simp)
  obtain ⟨rfl, hbehind⟩ := hcloser.closer hu hopens.inner hopens.bracket
  obtain ⟨children, hcalling⟩ := calling_of_opens hopens hs.inside hu registry last
  have hmore := hcloser.step
  rw [List.isEmpty_eq_false_iff.mpr hbehind] at hmore
  have hshorter : behind.length < tokens.length := by
    rw [List.length_append, List.length_cons] at hlength
    omega
  have harguments := (ih behind hshorter).2 _ _ _ _ _ hcalling (hopens.took children)
    (hopens.definition ▸ hfits) hnamed.of_append.tail hmore
  exact ⟨items, last, behind, rfl, hitems, hopens.definition ▸ harguments⟩

/-- A macro with its arguments, and the items behind it. -/
theorem items_of_macroName {name : String} {position : Position} {others : List Token}
    (hlength : others.length < tokens.length) (hs : s.Ready a below) (hnamed : Named others)
    (hsilent : s.Silent registry (⟨.macroName name, position⟩ :: others)) :
    BeginsWithItems registry (⟨.macroName name, position⟩ :: others) := by
  have hcalling := hs.macroName registry name position others.isEmpty
  obtain ⟨written, arguments, rest, rfl, harguments, hfits, hmore, hhead⟩ :=
    (ih others hlength).2 _ _ _ _ _ hcalling (took_nothing hr name position) (by simp [Fits.nil])
      hnamed hsilent.step
  obtain ⟨after, ht, hdef⟩ :=
    arguments_readOn hr harguments hcalling (took_nothing hr name position) hfits rfl
  have hrest := hsilent.step.readOn hmore
  have hreads := ht.readsContent registry hhead
  have hshorter : rest.length < tokens.length := by
    rw [List.length_append] at hlength
    omega
  cases hget : registry.get? name with
  | none => exact absurd (ht.reported (hdef.trans hget)) (hrest.settle hreads)
  | some d =>
    obtain ⟨items, b, last, behind, rfl, hitems⟩ :=
      (ih rest hshorter).1 _ _ _ (ht.ready (hdef.trans hget)) hreads hnamed.of_append hrest
    refine ⟨⟨.macroName name, position⟩ :: (arguments ++ items), b, last, behind, by simp, ?_⟩
    simpa using Items.call name d written _ _ hget (hfits d hget) harguments hitems

theorem itemsOfSilent : ItemsOfSilent registry tokens := by
  intro s a below hs hcontent hnamed hsilent
  match tokens with
  | [] => exact absurd hs.reported_end hsilent
  | ⟨kind, position⟩ :: others =>
    have hread := hsilent.read
    have hstep := hsilent.step
    have hlength : others.length < (⟨kind, position⟩ :: others : List Token).length := by simp
    rw [hcontent _ rfl] at hread
    cases kind with
    | plaintext text =>
      have hnext := hs.plaintext registry text position others.isEmpty
      have hitems := (ih others hlength).1 _ _ _ hnext
        (hs.readsContent_plaintext text position _) hnamed.tail hstep
      exact hitems.leaf fun _ hitems => .plaintext text _ hitems
    | paragraphBreak =>
      have hnext := hs.paragraphBreak registry position others.isEmpty
      have hitems := (ih others hlength).1 _ _ _ hnext
        (hs.readsContent_paragraphBreak position _) hnamed.tail hstep
      exact hitems.leaf fun _ hitems => .paragraphBreak _ hitems
    | macroName name =>
      exact items_of_macroName hr ih hlength hs hnamed.tail hsilent
    | opener b => exact absurd (hs.reported_opener b position _) hread
    | closer b => exact ⟨[], b, position, others, rfl, .nil⟩
    | argumentName name => exact absurd (hs.reported_argumentName name position _) hread

theorem arguments_positional {position : Position} {others : List Token}
    (hlength : others.length < tokens.length) (hs : s.Calling call a below) (htook : Took used call)
    (hfits : ∀ d, call.definition = some d → Fits d used) (hnamed : Named others)
    (hsilent : s.Silent registry (⟨.opener .positional, position⟩ :: others)) :
    BeginsWithArguments registry call.definition used (⟨.opener .positional, position⟩ :: others) := by
  have hstep := hsilent.step
  rw [read_opener_positional hs] at hstep
  rcases openPositional_cases htook position with ⟨harity, inner, argument, hopens⟩ | hwrong
  · obtain ⟨items, last, _, rfl, hitems, written, arguments, rest, rfl, harguments, hfits, hend⟩ :=
      argument_of_silent hr ih hlength hs hopens
        (fun d hd => fits_positional_iff.mpr ⟨hfits d hd, harity d hd⟩) hnamed hstep
    refine ⟨none :: written, ⟨.opener .positional, position⟩ :: (items ++
      ⟨.closer .positional, last⟩ :: arguments), rest, by simp, ?_, by simpa using hfits, hend⟩
    simpa using Arguments.positional written _ _ hitems harguments
  · exact absurd (hwrong.2.readAll registry others) hstep

theorem arguments_named {position here : Position} {name : String} {others : List Token}
    (hlength : others.length < tokens.length) (hs : s.Calling call a below) (htook : Took used call)
    (hfits : ∀ d, call.definition = some d → Fits d used) (hnamed : Named others)
    (hsilent : s.Silent registry
      (⟨.opener .named, position⟩ :: ⟨.argumentName name, here⟩ :: others)) :
    BeginsWithArguments registry call.definition used
      (⟨.opener .named, position⟩ :: ⟨.argumentName name, here⟩ :: others) := by
  have hstep := hsilent
  rw [Silent, readAll_opener_named hs] at hstep
  rcases openNamed_cases htook position name with ⟨hnew, inner, argument, hopens⟩ | hwrong
  · obtain ⟨items, last, _, rfl, hitems, written, arguments, rest, rfl, harguments, hfits, hend⟩ :=
      argument_of_silent hr ih hlength hs hopens
        (fun d hd => fits_named_iff.mpr ⟨hfits d hd, hnew d hd⟩) hnamed hstep
    refine ⟨some name :: written, ⟨.opener .named, position⟩ :: ⟨.argumentName name, here⟩ ::
      (items ++ ⟨.closer .named, last⟩ :: arguments), rest, by simp, ?_, by simpa using hfits, hend⟩
    simpa using Arguments.named name written _ _ hitems harguments
  · exact absurd (hwrong.2.readAll registry others) hstep

theorem argumentsOfSilent : ArgumentsOfSilent registry tokens := by
  intro s call a below used hs htook hfits hnamed hsilent
  match tokens with
  | [] => exact absurd hs.reported_end hsilent
  | ⟨kind, position⟩ :: others =>
    by_cases hopener : ∃ b, kind = .opener b
    · obtain ⟨b, rfl⟩ := hopener
      cases b with
      | positional =>
        exact arguments_positional hr ih (by simp) hs htook hfits hnamed.tail hsilent
      | named =>
        obtain ⟨name, here, content, rfl⟩ := hnamed.name rfl
        have hshorter : content.length < content.length + 1 + 1 := by omega
        exact arguments_named hr ih hshorter hs htook hfits hnamed.tail.tail hsilent
    · refine ⟨[], [], _, rfl, .nil, by simpa using hfits, by simp, ?_⟩
      intro token htoken b hkind
      cases htoken
      exact hopener ⟨b, hkind⟩

end

/-- By the number of tokens: what an argument or a macro is followed by is shorter. -/
theorem reads_of_silent (hr : registry.Coherent) (tokens : List Token) :
    ItemsOfSilent registry tokens ∧ ArgumentsOfSilent registry tokens := by
  induction hlength : tokens.length using Nat.strongRecOn generalizing tokens with
  | ind length ih =>
    subst hlength
    have hshorter : ∀ shorter : List Token, shorter.length < tokens.length →
        ItemsOfSilent registry shorter ∧ ArgumentsOfSilent registry shorter :=
      fun shorter hlt => ih shorter.length hlt shorter rfl
    exact ⟨itemsOfSilent hr hshorter, argumentsOfSilent hr hshorter⟩

theorem items_of_silent (hr : registry.Coherent) (hs : s.Ready a below)
    (hcontent : s.ReadsContent registry tokens) (hnamed : Named tokens)
    (hsilent : s.Silent registry tokens) : BeginsWithItems registry tokens :=
  (reads_of_silent hr tokens).1 s a below hs hcontent hnamed hsilent

-- ----------------------------------------------------------------------------
-- The text of the document
-- ----------------------------------------------------------------------------

theorem closeDocument_outermost (hstack : s.stack = a :: below) (houtermost : a.outermost = true)
    (closer : TokenKind) (position : Position) :
    s.closeDocument closer position = s.close a below := by
  unfold closeDocument
  split
  · next hnil => simp [hstack] at hnil
  · next argument rest heq =>
    obtain ⟨rfl, rfl⟩ := List.cons.inj (hstack.symm.trans heq)
    simp [houtermost]

theorem finish_nil (h : s.stack = []) : s.finish = s := by
  unfold State.finish
  split
  · rfl
  · next heq => simp [h] at heq

/-- The last token closes the document, and the macro around it is complete. -/
theorem readAll_last {children : List NodeId} (hstack : s.settle.stack = [{ a with children }])
    (houtermost : a.outermost = true) (howner : a.owner = some call) (last : Position) :
    s.readAll registry [⟨.closer .positional, last⟩] =
      State.completeCall
        { s.settle with stack := [], expecting := .arguments (returned call a children) }
        (returned call a children) := by
  have hread : s.read registry ⟨.closer .positional, last⟩ true =
      { s.settle with stack := [], expecting := .arguments (returned call a children) } := by
    have hcontent : s.read registry ⟨.closer .positional, last⟩ true =
        s.settle.closeDocument (.closer .positional) last := by
      simp [read, readContent, hstack]
    rw [hcontent, closeDocument_outermost hstack houtermost, close_owned (a := { a with children }) howner]
    rfl
  rw [State.readAll, List.isEmpty_nil, hread, State.readAll]
  refine finish_nil ?_
  rw [← List.length_eq_zero_iff, State.settle]
  simp

theorem Ready.silent_last (h : s.Ready a []) (houtermost : a.outermost = true)
    (howner : a.owner = some call) (hdef : call.definition = some d) (last : Position) :
    s.Silent registry [⟨.closer .positional, last⟩] := by
  obtain ⟨children, hstack⟩ := h.inside
  have hdef' : (returned call a children).definition = some d := hdef
  rw [Silent, readAll_last hstack houtermost howner]
  simp [completeCall, hdef', content, h.silent, Reported]

/-- No token before the last closes the document. -/
theorem Ready.reported_stray (h : s.Ready a below) (houtermost : a.outermost = true)
    (b : Bracket) (position : Position) :
    (s.settle.readContent registry ⟨.closer b, position⟩ false).Reported := by
  obtain ⟨children, hstack⟩ := h.inside
  simp [readContent, hstack, houtermost, Reported, report]

theorem silent_iff_items (hr : registry.Coherent) (hs : s.Ready a [])
    (hexpecting : s.expecting = .content) (houtermost : a.outermost = true)
    (howner : a.owner = some call) (hdef : call.definition = some d) (hnamed : Named tokens)
    (last : Position) :
    s.Silent registry (tokens ++ [⟨.closer .positional, last⟩]) ↔
      Items registry (tokens.map (·.kind)) := by
  constructor
  · intro hsilent
    have hlast : Named [⟨.closer .positional, last⟩] := .one nofun
    obtain ⟨items, b, position, rest, hsplit, hitems⟩ :=
      items_of_silent hr hs (readsContent hexpecting _) (hnamed.append hlast) hsilent
    have ht := items_readOn hr hitems hs rfl
    rw [hsplit] at hsilent
    have hcloser := hsilent.readOn (by simp)
    cases rest with
    | nil =>
      obtain ⟨rfl, -⟩ := List.append_inj' hsplit rfl
      exact hitems
    | cons next rest =>
      refine absurd ?_ hcloser.read
      have hread : (s.readOn registry items).read registry ⟨.closer b, position⟩ false =
          (s.readOn registry items).settle.readContent registry ⟨.closer b, position⟩ false := by
        simp [read]
      exact hread ▸ ht.reported_stray houtermost b position
  · intro hitems
    have ht := items_readOn hr hitems hs rfl
    rw [Silent, readAll_append tokens (by simp)]
    exact ht.silent_last houtermost howner hdef last

end Parser.State

/-- The parser reports nothing exactly if the text of the document is a row of the grammar. -/
theorem parse_silent_iff {registry : Registry} (hcoherent : registry.Coherent)
    (htoplevel : ∃ d, registry.get? MacroName.toplevel = some d ∧ d.positional ≠ [])
    (source : String) : ∃ content,
      (tokenize source).tokens.map (·.kind) =
        .macroName MacroName.toplevel :: .opener .positional ::
          (content ++ [.closer .positional]) ∧
      ((parse registry (tokenize source).tokens).diagnostics = [] ↔ Items registry content) := by
  obtain ⟨d, hget, hpositional⟩ := htoplevel
  obtain ⟨content, last, htokens, hnamed⟩ := tokens_tokenize source
  refine ⟨content.map (·.kind), by simp [htokens], ?_⟩
  obtain ⟨name, names, hnames⟩ := List.exists_cons_of_ne_nil hpositional
  have hparse : parse registry (tokenize source).tokens =
      let s := Parser.State.readAll registry
        (Parser.State.openPositional
          (Parser.State.initial.beginCall registry MacroName.toplevel .origin true)
          ⟨MacroName.toplevel, .origin, some d, true, [], 0⟩ .origin)
        (content ++ [⟨.closer .positional, last⟩])
      ⟨s.tree, s.diagnostics, s.trace⟩ := by
    rw [htokens, ← hget]
    rfl
  obtain ⟨name, names, hnames⟩ := List.exists_cons_of_ne_nil hpositional
  have hopened : ∃ a call, a.outermost = true ∧ a.owner = some call ∧ call.definition = some d ∧
      Parser.State.openPositional
          (Parser.State.initial.beginCall registry MacroName.toplevel .origin true)
          ⟨MacroName.toplevel, .origin, some d, true, [], 0⟩ .origin =
        (Parser.State.initial.beginCall registry MacroName.toplevel .origin true).enter a := by
    simp only [Parser.State.openPositional, hnames, List.getElem?_cons_zero]
    exact ⟨_, _, rfl, rfl, rfl, rfl⟩
  obtain ⟨a, call, houtermost, howner, hdef, hopened⟩ := hopened
  have hsilent := Parser.State.silent_iff_items hcoherent
    (s := (Parser.State.initial.beginCall registry MacroName.toplevel .origin true).enter a)
    (Parser.State.ready_of_content rfl ⟨a.children, rfl⟩ rfl) rfl houtermost howner hdef hnamed last
  rw [← hsilent, hparse, hopened]
  simp [Parser.State.Silent, Parser.State.Reported]

theorem parse_silent_iff_geese : Registry.builtin.Coherent ∧
    (∃ d, Registry.builtin.get? MacroName.toplevel = some d ∧ d.positional ≠ []) ∧
    ∃ content,
      (tokenize "\\h[1][Geese]\x7bid= geese\x7d \\b[see \\x[geese] \x7b").tokens.map (·.kind) =
        .macroName MacroName.toplevel :: .opener .positional ::
          (content ++ [.closer .positional]) ∧
      ((parse .builtin (tokenize "\\h[1][Geese]\x7bid= geese\x7d \\b[see \\x[geese] \x7b").tokens).diagnostics = []
        ↔ Items .builtin content) :=
  ⟨Registry.coherent_builtin, ⟨_, rfl, by decide⟩,
    parse_silent_iff Registry.coherent_builtin ⟨_, rfl, by decide⟩ _⟩

end Macromark
