import Macromark.Compile
import Macromark.Proofs.Assembly.Names

/-!
# What is known of an analyzed document

Reading a text reports problems of its form and none of its meaning, whatever
the text: neither the lexer (`tokenize_formal`) nor the parser (`parse_formal`)
knows an identifier. With what the assembly enters, this gives
`Analysis.Sound`, all that the compilation of several documents relies on.
-/

namespace Macromark

/-- A problem of the text or of its structure. -/
def Diagnostic.Formal (d : Diagnostic) : Prop := d.problem.category ≠ .semantic

theorem Diagnostic.Formal.local {d : Diagnostic} (h : d.Formal) (document : String) :
    d.problem.Local document := by
  obtain ⟨problem, position, owner⟩ := d
  cases problem <;> first | exact trivial | exact absurd rfl h

-- ----------------------------------------------------------------------------
-- The lexer
-- ----------------------------------------------------------------------------

def Lexed.Formal (l : Lexed) : Prop := ∀ d ∈ l.diagnostics, d.Formal

theorem Lexed.Formal.append {a b : Lexed} (ha : a.Formal) (hb : b.Formal) : (a ++ b).Formal := by
  intro d hd
  rcases List.mem_append.mp hd with hd | hd
  · exact ha d hd
  · exact hb d hd

theorem Lexed.formal_silent (tokens : List Token) : Lexed.Formal ⟨tokens, []⟩ := by
  simp [Lexed.Formal]

theorem Lexed.formal_one {d : Diagnostic} (tokens : List Token) (h : d.Formal) :
    Lexed.Formal ⟨tokens, [d]⟩ := by
  simpa [Lexed.Formal] using h

namespace Reading

variable {r : Reading} {position : Position} {text : List Char}

theorem andThen_formal (h : r.lexed.Formal)
    (hnext : ∀ position text, (next position text).lexed.Formal) :
    (andThen r next).lexed.Formal := h.append (hnext _ _)

theorem argumentName_formal : (argumentName position text).lexed.Formal := by
  unfold argumentName
  split
  · exact Lexed.formal_silent _
  · exact Lexed.formal_one _ nofun

theorem literal_formal : (literal b run start position text).lexed.Formal := by
  unfold literal
  simp only
  split
  · exact Lexed.formal_silent _
  · exact Lexed.formal_one _ nofun

theorem argument_formal : (argument b run start position text).lexed.Formal := by
  unfold argument
  have hopened : ∀ tokens, Lexed.Formal ⟨tokens, []⟩ := Lexed.formal_silent
  have hnamed : ∀ opened : Reading, opened.lexed.Formal →
      (if b = .named then opened.andThen argumentName else opened).lexed.Formal := by
    intro opened h
    split
    · exact andThen_formal h fun _ _ => argumentName_formal
    · exact h
  simp only
  split
  · exact andThen_formal (hnamed _ (hopened _)) fun _ _ => literal_formal
  · exact hnamed _ (hopened _)

end Reading

theorem Lexed.ofText_formal (pending : Option PendingText) (position : Position)
    (text : List Char) : (Lexed.ofText pending position text).Formal := by
  fun_induction Lexed.ofText pending position text with
  | case1 => exact formal_silent _
  | case2 _ _ _ _ _ _ hkind ih => exact ih
  | case3 _ _ _ _ _ _ hkind ih => exact ih
  | case4 _ _ _ _ _ _ hkind ih => exact ih
  | case5 _ _ _ _ _ _ hkind _ ih => exact (formal_silent _).append ih
  | case6 _ _ _ _ _ _ hkind count surplus ih =>
    refine Lexed.Formal.append ?_ ih
    intro d hd
    simp only [surplus] at hd
    split at hd
    · obtain rfl := List.mem_singleton.mp hd
      nofun
    · simp at hd
  | case7 _ _ _ _ _ _ _ hkind ih => exact (formal_silent _).append ih
  | case8 _ _ _ _ _ _ _ hkind _ ih => exact Lexed.Formal.append Reading.argument_formal ih

theorem tokenize_formal (source : String) : ∀ d ∈ (tokenize source).diagnostics, d.Formal :=
  (Lexed.formal_silent _).append (Lexed.ofText_formal _ _ _)

-- ----------------------------------------------------------------------------
-- The parser
-- ----------------------------------------------------------------------------

namespace Parser.State

def Formal (s : State) : Prop := ∀ d ∈ s.diagnostics, d.Formal

variable {s : State} {call : OpenCall} {argument : OpenArgument}

theorem Formal.report (h : s.Formal) (position : Position) (problem : Problem)
    (hp : problem.category ≠ .semantic) : (s.report position problem).Formal := by
  intro d hd
  rcases List.mem_append.mp hd with hd | hd
  · exact h d hd
  · obtain rfl := List.mem_singleton.mp hd
    exact hp

theorem Formal.deliver (h : s.Formal) (nodes : List NodeId) : (s.deliver nodes).Formal := by
  unfold State.deliver
  split <;> exact h

theorem Formal.leaf (h : s.Formal) (kind : NodeKind) (position : Position) :
    (s.leaf kind position).Formal :=
  Formal.deliver (s := { s with tree := (s.tree.push kind position).2 }) h _

theorem Formal.beginCall (h : s.Formal) (registry : Registry) (name : String)
    (position : Position) (isRoot : Bool) : (s.beginCall registry name position isRoot).Formal := h

theorem Formal.completeCall (h : s.Formal) (call : OpenCall) : (s.completeCall call).Formal := by
  unfold State.completeCall
  split
  · exact (h.report call.position (.unknownMacro _) nofun).leaf _ _
  · next definition _ =>
    generalize fillArguments call.position definition.argumentNames call.arguments s.tree = filled
    exact Formal.deliver (s := { s with tree := (filled.2.pushCall _ _).2 }) h _

theorem Formal.openPositional (h : s.Formal) (call : OpenCall) (position : Position) :
    (s.openPositional call position).Formal := by
  unfold State.openPositional
  simp only
  split
  · exact h
  · split
    · exact h
    · exact h.report _ (.surplusArgument _ _) nofun

theorem Formal.openNamed (h : s.Formal) (owner : Option OpenCall) (position : Position)
    (name : String) : (s.openNamed owner position name).Formal := by
  unfold State.openNamed
  simp only
  split
  · exact h
  · split
    · exact h
    · split
      · exact h.report _ (.unknownArgument _ _) nofun
      · split
        · exact h.report _ (.repeatedArgument _ _) nofun
        · exact h

theorem Formal.close (h : s.Formal) (argument : OpenArgument) (below : List OpenArgument) :
    (s.close argument below).Formal := by
  unfold State.close
  simp only
  split
  · exact Formal.deliver (s := { s with stack := below }) h _
  · exact h

theorem Formal.settle (h : s.Formal) : s.settle.Formal := by
  unfold State.settle
  split
  · exact h.completeCall _
  · exact h.openNamed _ _ _
  · exact h

theorem Formal.closeDocument (h : s.Formal) (closer : TokenKind) (position : Position) :
    (s.closeDocument closer position).Formal := by
  fun_induction State.closeDocument s closer position with
  | case1 => exact h.report _ (.trailingToken _) nofun
  | case2 => exact h.close _ _
  | case3 s argument below _ _ ih =>
    exact ih ((h.report _ (.unclosedArgument _) nofun).close _ _).settle

theorem Formal.finish (h : s.Formal) : s.finish.Formal := by
  fun_induction State.finish s with
  | case1 => exact h
  | case2 s argument below _ ih =>
    exact ih ((h.report _ .unterminatedArgument nofun).close _ _).settle

theorem Formal.readContent (h : s.Formal) (registry : Registry) (token : Token) (isLast : Bool) :
    (s.readContent registry token isLast).Formal := by
  unfold State.readContent
  split
  · exact h.report _ (.trailingToken _) nofun
  · split
    · exact h.leaf _ _
    · exact h.leaf _ _
    · exact h.beginCall _ _ _ _
    · exact h.report _ (.unexpectedToken _) nofun
    · exact h.report _ .orphanArgument nofun
    · exact h.report _ .orphanArgument nofun
    · split
      · exact h.closeDocument _ _
      · split
        · exact h.report _ (.strayCloser _) nofun
        · split
          · exact h.close _ _
          · exact (h.report _ (.mismatchedCloser _ _) nofun).close _ _

theorem Formal.read (h : s.Formal) (registry : Registry) (token : Token) (isLast : Bool) :
    (s.read registry token isLast).Formal := by
  unfold State.read
  split
  · exact h.openPositional _ _
  · exact h
  · exact h.openNamed _ _ _
  · exact h.settle.readContent _ _ _

theorem Formal.readAll (h : s.Formal) (registry : Registry) (tokens : List Token) :
    (s.readAll registry tokens).Formal := by
  induction tokens generalizing s with
  | nil => exact h.settle.finish
  | cons token rest ih => exact ih (h.read _ _ _)

end Parser.State

theorem parse_formal (registry : Registry) (tokens : List Token) :
    ∀ d ∈ (parse registry tokens).diagnostics, d.Formal := by
  unfold parse
  split
  · have hinitial : Parser.State.initial.Formal := by
      simp [Parser.State.Formal, Parser.State.initial]
    exact (hinitial.beginCall _ _ _ _).readAll _ _
  · simp

-- ----------------------------------------------------------------------------
-- The analysis
-- ----------------------------------------------------------------------------

structure Analysis.Sound (document : String) (a : Analysis) : Prop where
  name : a.document = document
  index : a.index.Of document
  owner : a.contribution.document = document
  ids : a.contribution.ids = a.index.records
  references : ∀ r ∈ a.contribution.references,
    r.site.document = document ∧ (r.source = "" ∨ a.index.contains r.source = true)
  diagnostics : ∀ d ∈ a.diagnostics, d.problem.Local document

theorem analyze_sound (registry : Registry) (document source : String) :
    (analyze registry document source).Sound document := by
  have hassembled := assemble_sound registry document
    (parse registry (tokenize source).tokens).tree
  refine ⟨rfl, hassembled.index, hassembled.owner, hassembled.ids, hassembled.references, ?_⟩
  intro d hd
  simp only [analyze, List.mem_append] at hd
  rcases hd with (hd | hd) | hd
  · exact (tokenize_formal source d hd).local document
  · exact (parse_formal registry _ d hd).local document
  · exact hassembled.diagnostics d hd

end Macromark
