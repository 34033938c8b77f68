import Macromark.Proofs.Token.Shape
import Macromark.Tree.Parser

/-!
# The grammar of documents

`Grammar.Items` derives the rows of tokens that may stand in an argument. The
parser reads such a row up to the closer behind it and reports nothing
(`items_readOn`).
-/

namespace Macromark

namespace Grammar

/-- The arguments of a macro are those that it takes. A positional argument has
no name. -/
structure Fits (d : MacroDef) (written : List (Option String)) : Prop where
  arity : written.count none ≤ d.positional.length
  declared : ∀ name, some name ∈ written → name ∈ d.named
  distinct : ∀ name, written.count (some name) ≤ 1

mutual
/-- What may stand in an argument. No row begins with an opener, so a macro has
all arguments that follow it directly. -/
inductive Items (r : Registry) : List TokenKind → Prop
  | nil : Items r []
  | plaintext (text : String) (rest : List TokenKind) : Items r rest →
      Items r (.plaintext text :: rest)
  | paragraphBreak (rest : List TokenKind) : Items r rest → Items r (.paragraphBreak :: rest)
  | call (name : String) (d : MacroDef) (written : List (Option String))
      (arguments rest : List TokenKind) : r.get? name = some d → Fits d written →
      Arguments r written arguments → Items r rest →
      Items r (.macroName name :: arguments ++ rest)
/-- The arguments of a macro, and under which names they are written. -/
inductive Arguments (r : Registry) : List (Option String) → List TokenKind → Prop
  | nil : Arguments r [] []
  | positional (written : List (Option String)) (inner rest : List TokenKind) : Items r inner →
      Arguments r written rest →
      Arguments r (none :: written) (.opener .positional :: inner ++ .closer .positional :: rest)
  | named (name : String) (written : List (Option String)) (inner rest : List TokenKind) :
      Items r inner → Arguments r written rest →
      Arguments r (some name :: written)
        (.opener .named :: .argumentName name :: inner ++ .closer .named :: rest)
end

variable {d : MacroDef} {used written : List (Option String)} {name : String}

theorem Fits.nil (d : MacroDef) : Fits d [] := ⟨by simp, by simp, by simp⟩

theorem Fits.of_append (h : Fits d (used ++ written)) : Fits d used := by
  refine ⟨?_, fun name hname => h.declared name (List.mem_append_left _ hname), fun name => ?_⟩
  · have harity := h.arity
    rw [List.count_append] at harity
    omega
  · have hdistinct := h.distinct name
    rw [List.count_append] at hdistinct
    omega

theorem fits_positional_iff :
    Fits d (used ++ [none]) ↔ Fits d used ∧ used.count none < d.positional.length := by
  constructor
  · intro h
    refine ⟨h.of_append, ?_⟩
    have harity := h.arity
    rwa [List.count_append, List.count_singleton_self] at harity
  · rintro ⟨h, harity⟩
    refine ⟨?_, ?_, ?_⟩
    · rw [List.count_append, List.count_singleton_self]
      exact harity
    · intro name hname
      exact h.declared name (by simpa using hname)
    · intro name
      simpa using h.distinct name

theorem fits_named_iff :
    Fits d (used ++ [some name]) ↔ Fits d used ∧ name ∈ d.named ∧ some name ∉ used := by
  constructor
  · intro h
    refine ⟨h.of_append, h.declared name (by simp), ?_⟩
    have hdistinct := h.distinct name
    rw [List.count_append, List.count_singleton_self] at hdistinct
    exact List.count_eq_zero.mp (by omega)
  · rintro ⟨h, hdeclared, hnew⟩
    refine ⟨by simpa using h.arity, ?_, ?_⟩
    · intro other hother
      rcases List.mem_append.mp hother with hother | hother
      · exact h.declared other hother
      · cases List.mem_singleton.mp hother
        exact hdeclared
    · intro other
      by_cases heq : other = name
      · subst heq
        simp [List.count_eq_zero.mpr hnew]
      · have hcount : [some name].count (some other) = 0 :=
          List.count_eq_zero.mpr (by simpa using heq)
        rw [List.count_append, hcount]
        exact h.distinct other

end Grammar

open Grammar (Fits Items Arguments fits_positional_iff fits_named_iff)

namespace Parser.State

variable {registry : Registry} {s t u : State} {call : OpenCall} {a outer : OpenArgument}
variable {definition : Option MacroDef} {b : Bracket} {below : List OpenArgument} {used written : List (Option String)}

-- ----------------------------------------------------------------------------
-- Nothing that has been reported is taken back
-- ----------------------------------------------------------------------------

def Reported (s : State) : Prop := s.diagnostics ≠ []

theorem reported_report (s : State) (position : Position) (problem : Problem) :
    (s.report position problem).Reported := by
  simp [Reported, report]

@[simp] theorem diagnostics_deliver (s : State) (nodes : List NodeId) :
    (s.deliver nodes).diagnostics = s.diagnostics := by
  unfold deliver
  split <;> rfl

@[simp] theorem diagnostics_leaf (s : State) (kind : NodeKind) (position : Position) :
    (s.leaf kind position).diagnostics = s.diagnostics := by
  simp [leaf]

@[simp] theorem diagnostics_close (s : State) (a : OpenArgument) (below : List OpenArgument) :
    (s.close a below).diagnostics = s.diagnostics := by
  unfold close
  simp only
  split
  · simp [content]
  · rfl

theorem Reported.completeCall (h : s.Reported) (call : OpenCall) :
    (s.completeCall call).Reported := by
  unfold State.completeCall
  split
  · simp [Reported, content, report]
  · simpa [Reported, content] using h

theorem Reported.openPositional (h : s.Reported) (call : OpenCall) (position : Position) :
    (s.openPositional call position).Reported := by
  unfold State.openPositional
  simp only
  split
  · exact h
  · split
    · exact h
    · exact reported_report s position _

theorem Reported.openNamed (h : s.Reported) (owner : Option OpenCall) (position : Position)
    (name : String) : (s.openNamed owner position name).Reported := by
  unfold State.openNamed
  simp only
  split
  · exact h
  · split
    · exact h
    · split
      · exact reported_report s position _
      · split
        · exact reported_report s position _
        · exact h

theorem Reported.settle (h : s.Reported) : s.settle.Reported := by
  unfold State.settle
  split
  · exact h.completeCall _
  · exact h.openNamed _ _ _
  · exact h

theorem Reported.close (h : s.Reported) (a : OpenArgument) (below : List OpenArgument) :
    (s.close a below).Reported := by
  simpa [Reported] using h

theorem Reported.closeDocument (h : s.Reported) (closer : TokenKind) (position : Position) :
    (s.closeDocument closer position).Reported := by
  fun_induction State.closeDocument s closer position with
  | case1 s => exact reported_report s position _
  | case2 s a below => exact h.close a below
  | case3 s a below _ _ ih => exact ih ((reported_report s _ _).close a below).settle

theorem Reported.finish (h : s.Reported) : s.finish.Reported := by
  fun_induction State.finish s with
  | case1 => exact h
  | case2 s a below _ ih => exact ih ((reported_report s _ _).close a below).settle

theorem Reported.readContent (h : s.Reported) (registry : Registry) (token : Token)
    (isLast : Bool) : (s.readContent registry token isLast).Reported := by
  unfold State.readContent
  split
  · exact reported_report s _ _
  · split
    · simpa [Reported] using h
    · simpa [Reported] using h
    · exact h
    · exact reported_report s _ _
    · exact reported_report s _ _
    · exact reported_report s _ _
    · split
      · exact h.closeDocument _ _
      · split
        · exact reported_report s _ _
        · split
          · exact h.close _ _
          · exact (reported_report s _ _).close _ _

theorem Reported.read (h : s.Reported) (registry : Registry) (token : Token) (isLast : Bool) :
    (s.read registry token isLast).Reported := by
  unfold State.read
  split
  · exact h.openPositional _ _
  · exact h
  · exact h.openNamed _ _ _
  · exact h.settle.readContent _ _ _

theorem Reported.readAll (h : s.Reported) (registry : Registry) (tokens : List Token) :
    (s.readAll registry tokens).Reported := by
  induction tokens generalizing s with
  | nil => exact h.settle.finish
  | cons token rest ih => exact ih (h.read registry token rest.isEmpty)

-- ----------------------------------------------------------------------------
-- Where the parser stands
-- ----------------------------------------------------------------------------

/-- The innermost open argument is `a`, whatever stands in it. -/
def Inside (s : State) (a : OpenArgument) (below : List OpenArgument) : Prop :=
  ∃ children, s.stack = { a with children } :: below

/-- Nothing is wrong so far, and `a` goes on behind what has been read. -/
structure Ready (s : State) (a : OpenArgument) (below : List OpenArgument) : Prop where
  expecting : s.settle.expecting = .content
  inside : s.settle.Inside a below
  silent : s.settle.diagnostics = []

/-- Nothing is wrong so far, and the arguments of `call`, which stands in `a`, may go on. -/
structure Calling (s : State) (call : OpenCall) (a : OpenArgument) (below : List OpenArgument) :
    Prop where
  expecting : s.expecting = .arguments call
  inside : s.Inside a below
  silent : s.diagnostics = []

/-- What a call that is not the document knows of the arguments it has got. -/
structure Took (used : List (Option String)) (call : OpenCall) : Prop where
  nested : call.isRoot = false
  coherent : ∀ d, call.definition = some d → d.Coherent
  positionals : call.positionals = used.count none
  names : ∀ d, call.definition = some d → ∀ name ∈ d.named,
    call.arguments.any (·.name == name) = true ↔ some name ∈ used

theorem Inside.deliver (h : s.Inside a below) (nodes : List NodeId) :
    (s.deliver nodes).Inside a below := by
  obtain ⟨children, hstack⟩ := h
  refine ⟨children ++ nodes, ?_⟩
  simp [State.deliver, hstack]

theorem ready_of_content (hexpecting : s.expecting = .content) (hinside : s.Inside a below)
    (hsilent : s.diagnostics = []) : s.Ready a below := by
  have hsettle : s.settle = s := by simp [settle, hexpecting]
  exact ⟨by rwa [hsettle], by rwa [hsettle], by rwa [hsettle]⟩

theorem Calling.ready (h : s.Calling call a below) (hdef : call.definition = some d) :
    s.Ready a below := by
  have hsettle : s.settle = s.completeCall call := by simp [settle, h.expecting]
  rw [completeCall, hdef] at hsettle
  simp only at hsettle
  generalize fillArguments call.position d.argumentNames call.arguments s.tree = filled at hsettle
  refine ⟨?_, ?_, ?_⟩ <;> rw [hsettle]
  · rfl
  · exact Inside.deliver (s := { s with tree := (filled.2.pushCall _ _).2 }) h.inside _
  · simpa [content] using h.silent

theorem Calling.reported (h : s.Calling call a below) (hdef : call.definition = none) :
    s.settle.Reported := by
  have hsettle : s.settle = s.completeCall call := by simp [settle, h.expecting]
  rw [hsettle, completeCall, hdef]
  simp [Reported, content, report]

-- ----------------------------------------------------------------------------
-- Opening and closing an argument of a call
-- ----------------------------------------------------------------------------

/-- The call to which an open argument returns. -/
def returned (call : OpenCall) (a : OpenArgument) (children : List NodeId) : OpenCall :=
  { call with
    arguments := match a.name with
      | some name => call.arguments ++ [⟨name, children, a.position, true⟩]
      | none => call.arguments }

theorem close_owned (howner : a.owner = some call) (s : State) (below : List OpenArgument) :
    s.close a below =
      { s with stack := below, expecting := .arguments (returned call a a.children) } := by
  cases hname : a.name <;> simp [State.close, howner, returned, hname]

structure Opens (s t : State) (b : Bracket) (definition : Option MacroDef)
    (used : List (Option String)) (call : OpenCall) (a : OpenArgument) : Prop where
  entered : t = s.enter a
  owner : a.owner = some call
  bracket : a.bracket = b
  inner : a.outermost = false
  definition : call.definition = definition
  took : ∀ children, Took used (returned call a children)

theorem openPositional_cases (htook : Took used call) (position : Position) :
    ((∀ d, call.definition = some d → used.count none < d.positional.length) ∧
      ∃ inner a, Opens s (s.openPositional call position) .positional call.definition
        (used ++ [none]) inner a) ∨
    (¬ (∀ d, call.definition = some d → used.count none < d.positional.length) ∧
      (s.openPositional call position).Reported) := by
  have houtermost : opensDocument call = false := by simp [opensDocument, htook.nested]
  have hpositionals := htook.positionals
  unfold State.openPositional
  simp only [houtermost]
  cases hdef : call.definition with
  | none =>
    refine .inl ⟨nofun, _, _, rfl, rfl, rfl, rfl, rfl, fun children => ?_⟩
    exact ⟨htook.nested, by simp [returned], by simp [returned, hpositionals],
      by simp [returned]⟩
  | some d =>
    simp only [Option.some.injEq, forall_eq']
    cases hname : d.positional[call.positionals]? with
    | none =>
      rw [List.getElem?_eq_none_iff] at hname
      exact .inr ⟨by omega, reported_report s position _⟩
    | some name =>
      obtain ⟨hlt, hname⟩ := List.getElem?_eq_some_iff.mp hname
      have hcoherent := htook.coherent d hdef
      refine .inl ⟨by omega, _, _, rfl, rfl, rfl, rfl, rfl, fun children => ?_⟩
      refine ⟨htook.nested, by simpa [returned] using hcoherent,
        by simp [returned, hpositionals], ?_⟩
      intro d' hdef' other hother
      cases hdef'
      have hne : name ≠ other := by
        rintro rfl
        have hdisjoint := (List.nodup_append.mp hcoherent).2.2
        exact hdisjoint _ (hname ▸ List.getElem_mem hlt) _ hother rfl
      have hnames := htook.names d hdef other hother
      simp [returned, List.any_append, hne, hnames]

theorem openNamed_cases (htook : Took used call) (position : Position) (name : String) :
    ((∀ d, call.definition = some d → name ∈ d.named ∧ some name ∉ used) ∧
      ∃ inner a, Opens s (s.openNamed (some call) position name) .named call.definition
        (used ++ [some name]) inner a) ∨
    (¬ (∀ d, call.definition = some d → name ∈ d.named ∧ some name ∉ used) ∧
      (s.openNamed (some call) position name).Reported) := by
  have houtermost : opensDocument call = false := by simp [opensDocument, htook.nested]
  have hpositionals := htook.positionals
  unfold State.openNamed
  simp only [houtermost]
  cases hdef : call.definition with
  | none =>
    refine .inl ⟨nofun, _, _, rfl, rfl, rfl, rfl, hdef, fun children => ?_⟩
    exact ⟨htook.nested, by simp [returned, hdef], by simp [returned, hpositionals],
      by simp [returned, hdef]⟩
  | some d =>
    simp only [Option.some.injEq, forall_eq']
    have hnames := htook.names d hdef
    split
    · next hundeclared =>
      refine .inr ⟨?_, reported_report s position _⟩
      simp only [Bool.not_eq_true', List.contains_eq_mem, decide_eq_false_iff_not] at hundeclared
      exact fun h => hundeclared h.1
    · next hdeclared =>
      simp only [Bool.not_eq_true', List.contains_eq_mem, decide_eq_false_iff_not,
        not_not] at hdeclared
      split
      · next hrepeated =>
        exact .inr ⟨fun h => h.2 ((hnames name hdeclared).mp hrepeated),
          reported_report s position _⟩
      · next hnew =>
        refine .inl ⟨⟨hdeclared, fun hused => hnew ((hnames name hdeclared).mpr hused)⟩,
          _, _, rfl, rfl, rfl, rfl, hdef, fun children => ?_⟩
        refine ⟨htook.nested, by simpa [returned] using htook.coherent,
          by simp [returned, hpositionals], ?_⟩
        intro d' hdef' other hother
        obtain rfl := Option.some.inj (hdef.symm.trans hdef')
        simp only [returned, List.any_append, Bool.or_eq_true, hnames other hother,
          List.mem_append, List.any_cons, List.any_nil, Bool.or_false, beq_iff_eq,
          List.mem_singleton, Option.some.injEq]
        rw [eq_comm (a := other)]

theorem ready_of_opens (h : Opens s t b definition used call a) (hsilent : s.diagnostics = []) :
    t.Ready a s.stack := by
  rw [h.entered]
  exact ready_of_content rfl ⟨a.children, rfl⟩ hsilent

/-- An argument of a call is closed by a closer of its kind that is not the last token. -/
theorem read_closer (h : Opens s t b definition used call a) {children : List NodeId}
    (hstack : u.settle.stack = { a with children } :: s.stack) (registry : Registry)
    (position : Position) : u.read registry ⟨.closer b, position⟩ false =
      { u.settle with stack := s.stack, expecting := .arguments (returned call a children) } := by
  have hread : u.read registry ⟨.closer b, position⟩ false =
      u.settle.close { a with children } s.stack := by
    simp [read, readContent, hstack, h.inner, h.bracket]
  rw [hread, close_owned (a := { a with children }) h.owner]
  rfl

theorem calling_of_opens (h : Opens s t b definition used call a) (hinside : s.Inside outer below)
    (hready : u.Ready a s.stack) (registry : Registry) (position : Position) :
    ∃ children, Calling (u.read registry ⟨.closer b, position⟩ false)
      (returned call a children) outer below := by
  obtain ⟨children, hstack⟩ := hready.inside
  obtain ⟨outerChildren, houter⟩ := hinside
  refine ⟨children, ?_⟩
  rw [read_closer h hstack]
  exact ⟨rfl, ⟨outerChildren, houter⟩, hready.silent⟩

/-- Any other closer is reported. -/
theorem Ready.reported_closer (h : s.Ready a below) (hinner : a.outermost = false)
    (found : Bracket) (position : Position) (isLast : Bool)
    (hwrong : isLast = true ∨ found ≠ a.bracket) :
    (s.read registry ⟨.closer found, position⟩ isLast).Reported := by
  obtain ⟨children, hstack⟩ := h.inside
  have hread : s.read registry ⟨.closer found, position⟩ isLast =
      s.settle.readContent registry ⟨.closer found, position⟩ isLast := by
    simp [read]
  rw [hread]
  unfold State.readContent
  rw [hstack]
  cases isLast with
  | true =>
    simp only [if_true]
    unfold State.closeDocument
    split
    · next hnil => simp [hstack] at hnil
    · next argument rest heq =>
      obtain ⟨rfl, rfl⟩ := List.cons.inj (hstack.symm.trans heq)
      simp only [hinner, Bool.false_eq_true, if_false]
      exact ((reported_report _ _ _).close _ _).settle.closeDocument _ _
  | false =>
    have hfound : found ≠ a.bracket := by simpa using hwrong
    simp only [hinner, hfound, if_false, Bool.false_eq_true]
    exact (reported_report _ _ _).close _ _

-- ----------------------------------------------------------------------------
-- Rows are read
-- ----------------------------------------------------------------------------

theorem ready_leaf (hexpecting : s.expecting = .content) (hinside : s.Inside a below)
    (hsilent : s.diagnostics = []) (kind : NodeKind) (position : Position) :
    (s.leaf kind position).Ready a below := by
  have hleaf : (s.leaf kind position).Inside a below :=
    Inside.deliver (s := { s with tree := (s.tree.push kind position).2 }) hinside _
  obtain ⟨children, hstack⟩ := hinside
  refine ready_of_content ?_ hleaf (by simpa using hsilent)
  simpa [leaf, deliver, hstack] using hexpecting

theorem Ready.plaintext (h : s.Ready a below) (registry : Registry) (text : String)
    (position : Position) (isLast : Bool) :
    (s.read registry ⟨.plaintext text, position⟩ isLast).Ready a below := by
  obtain ⟨children, hstack⟩ := h.inside
  have hread : s.read registry ⟨.plaintext text, position⟩ isLast =
      s.settle.leaf (.plaintext text) position := by
    simp [read, readContent, hstack]
  rw [hread]
  exact ready_leaf h.expecting h.inside h.silent _ _

theorem Ready.paragraphBreak (h : s.Ready a below) (registry : Registry) (position : Position)
    (isLast : Bool) :
    (s.read registry ⟨.paragraphBreak, position⟩ isLast).Ready a below := by
  obtain ⟨children, hstack⟩ := h.inside
  have hread : s.read registry ⟨.paragraphBreak, position⟩ isLast =
      s.settle.leaf .paragraphBreak position := by
    simp [read, readContent, hstack]
  rw [hread]
  exact ready_leaf h.expecting h.inside h.silent _ _

theorem Ready.macroName (h : s.Ready a below) (registry : Registry) (name : String)
    (position : Position) (isLast : Bool) :
    (s.read registry ⟨.macroName name, position⟩ isLast).Calling
      ⟨name, position, registry.get? name, false, [], 0⟩ a below := by
  obtain ⟨children, hstack⟩ := h.inside
  have hread : s.read registry ⟨.macroName name, position⟩ isLast =
      s.settle.beginCall registry name position false := by
    simp [read, readContent, hstack]
  rw [hread]
  exact ⟨rfl, h.inside, h.silent⟩

theorem took_nothing (hr : registry.Coherent) (name : String) (position : Position) :
    Took [] ⟨name, position, registry.get? name, false, [], 0⟩ :=
  ⟨rfl, fun _ hd => hr _ (List.mem_of_find?_eq_some hd), rfl, by simp⟩

/-- Reads tokens of which none is the last. -/
def readOn (registry : Registry) (s : State) (tokens : List Token) : State :=
  tokens.foldl (fun s token => s.read registry token false) s

@[simp] theorem readOn_nil : s.readOn registry [] = s := rfl

@[simp] theorem readOn_cons (token : Token) (tokens : List Token) :
    s.readOn registry (token :: tokens) = (s.read registry token false).readOn registry tokens := rfl

@[simp] theorem readOn_append (first second : List Token) :
    s.readOn registry (first ++ second) = (s.readOn registry first).readOn registry second :=
  List.foldl_append

theorem readAll_append (first : List Token) {rest : List Token} (hrest : rest ≠ []) :
    s.readAll registry (first ++ rest) = (s.readOn registry first).readAll registry rest := by
  induction first generalizing s with
  | nil => rfl
  | cons token first ih =>
    have hmore : (first ++ rest).isEmpty = false := by simp [hrest]
    rw [List.cons_append, readAll, hmore, ih, readOn_cons]

theorem map_kind_eq_cons {kind : TokenKind} {tokens : List Token} {kinds : List TokenKind}
    (h : tokens.map (·.kind) = kind :: kinds) :
    ∃ position rest, tokens = ⟨kind, position⟩ :: rest ∧ rest.map (·.kind) = kinds := by
  obtain ⟨⟨_, position⟩, rest, rfl, rfl, hrest⟩ := List.map_eq_cons_iff.mp h
  exact ⟨position, rest, rfl, hrest⟩

theorem read_opener_positional (hs : s.Calling call a below) (position : Position)
    (isLast : Bool) : s.read registry ⟨.opener .positional, position⟩ isLast =
      s.openPositional call position := by
  simp [read, hs.expecting]

theorem read_opener_named (hs : s.Calling call a below) (position here : Position)
    (name : String) (isLast isLast' : Bool) :
    (s.read registry ⟨.opener .named, position⟩ isLast).read registry ⟨.argumentName name, here⟩ isLast' =
      s.openNamed (some call) position name := by
  simp [read, hs.expecting, openNamed, enter, report]

theorem readAll_opener_named (hs : s.Calling call a below) (position here : Position)
    (name : String) (rest : List Token) :
    s.readAll registry (⟨.opener .named, position⟩ :: ⟨.argumentName name, here⟩ :: rest) =
      (s.openNamed (some call) position name).readAll registry rest := by
  rw [readAll, readAll, read_opener_named hs]

mutual
theorem items_readOn (hr : registry.Coherent) {kinds : List TokenKind}
    (h : Items registry kinds) {s : State} {a : OpenArgument} {below : List OpenArgument}
    {tokens : List Token} (hs : s.Ready a below) (hkinds : tokens.map (·.kind) = kinds) :
    (s.readOn registry tokens).Ready a below := by
  match h with
  | .nil =>
    obtain rfl := List.map_eq_nil_iff.mp hkinds
    exact hs
  | .plaintext text rest hrest =>
    obtain ⟨position, others, rfl, hothers⟩ := map_kind_eq_cons hkinds
    rw [readOn_cons]
    exact items_readOn hr hrest (hs.plaintext registry text position false) hothers
  | .paragraphBreak rest hrest =>
    obtain ⟨position, others, rfl, hothers⟩ := map_kind_eq_cons hkinds
    rw [readOn_cons]
    exact items_readOn hr hrest (hs.paragraphBreak registry position false) hothers
  | .call name d written arguments rest hget hfits harguments hrest =>
    obtain ⟨position, others, rfl, hothers⟩ := map_kind_eq_cons hkinds
    obtain ⟨first, second, rfl, hfirst, hsecond⟩ := List.map_eq_append_iff.mp hothers
    obtain ⟨call, hcalling, hdef⟩ := arguments_readOn hr harguments
      (hs.macroName registry name position false) (took_nothing hr name position)
      (fun d' hd' => Option.some.inj (hget.symm.trans hd') ▸ hfits) hfirst
    rw [readOn_cons, readOn_append]
    exact items_readOn hr hrest (hcalling.ready (hdef.trans hget)) hsecond
theorem arguments_readOn (hr : registry.Coherent) {kinds : List TokenKind}
    {written : List (Option String)} (h : Arguments registry written kinds) {s : State}
    {call : OpenCall} {a : OpenArgument} {below : List OpenArgument} {used : List (Option String)}
    {tokens : List Token} (hs : s.Calling call a below) (htook : Took used call)
    (hfits : ∀ d, call.definition = some d → Fits d (used ++ written))
    (hkinds : tokens.map (·.kind) = kinds) :
    ∃ after, (s.readOn registry tokens).Calling after a below ∧
      after.definition = call.definition := by
  match h with
  | .nil =>
    obtain rfl := List.map_eq_nil_iff.mp hkinds
    exact ⟨call, hs, rfl⟩
  | .positional written inner rest hinner hrest =>
    have hfits : ∀ d, call.definition = some d → Fits d (used ++ [none] ++ written) := by
      simpa using hfits
    obtain ⟨position, others, rfl, hothers⟩ := map_kind_eq_cons hkinds
    obtain ⟨first, closed, rfl, hfirst, hclosed⟩ := List.map_eq_append_iff.mp hothers
    obtain ⟨last, second, rfl, hsecond⟩ := map_kind_eq_cons hclosed
    rcases openPositional_cases htook position with ⟨-, call', argument, hopens⟩ | ⟨hsurplus, -⟩
    · have hready := items_readOn hr hinner (ready_of_opens hopens hs.silent) hfirst
      obtain ⟨children, hcalling⟩ := calling_of_opens hopens hs.inside hready registry last
      obtain ⟨after, hafter, hdef⟩ := arguments_readOn hr hrest hcalling
        (hopens.took children) (hopens.definition ▸ hfits) hsecond
      rw [readOn_cons, readOn_append, readOn_cons, read_opener_positional hs]
      exact ⟨after, hafter, hdef.trans hopens.definition⟩
    · exact absurd (fun d hd => (fits_positional_iff.mp (hfits d hd).of_append).2) hsurplus
  | .named name written inner rest hinner hrest =>
    have hfits : ∀ d, call.definition = some d → Fits d (used ++ [some name] ++ written) := by
      simpa using hfits
    obtain ⟨position, others, rfl, hothers⟩ := map_kind_eq_cons hkinds
    obtain ⟨here, content, rfl, hcontent⟩ := map_kind_eq_cons hothers
    obtain ⟨first, closed, rfl, hfirst, hclosed⟩ := List.map_eq_append_iff.mp hcontent
    obtain ⟨last, second, rfl, hsecond⟩ := map_kind_eq_cons hclosed
    rcases openNamed_cases htook position name with ⟨-, call', argument, hopens⟩ | ⟨hwrong, -⟩
    · have hready := items_readOn hr hinner (ready_of_opens hopens hs.silent) hfirst
      obtain ⟨children, hcalling⟩ := calling_of_opens hopens hs.inside hready registry last
      obtain ⟨after, hafter, hdef⟩ := arguments_readOn hr hrest hcalling
        (hopens.took children) (hopens.definition ▸ hfits) hsecond
      rw [readOn_cons, readOn_cons, readOn_append, readOn_cons, read_opener_named hs]
      exact ⟨after, hafter, hdef.trans hopens.definition⟩
    · exact absurd (fun d hd => (fits_named_iff.mp (hfits d hd).of_append).2) hwrong
end

end Parser.State
end Macromark
