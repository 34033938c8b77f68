import Macromark.Proofs.Tree.Changes
import Macromark.Proofs.Tree.Grammar

/-!
# Error nodes

Where the parser cannot make a node of a macro, it leaves an error node and
reports it (`parse_clean`).
-/

namespace Macromark

/-- No node stands for something that could not be read. -/
def Tree.Clean (t : Tree) : Prop := ∀ id message, t.kind? id ≠ some (.error message)

namespace Tree

variable {t : Tree} {kind : NodeKind}

theorem Clean.push (h : t.Clean) (hkind : ∀ message, kind ≠ .error message) (position : Position) :
    (t.push kind position).2.Clean := by
  intro id message
  rw [kind?_push]
  split
  · simpa using hkind message
  · exact h id message

theorem Clean.pushCall (h : t.Clean) (call : MacroCall) (position : Position) :
    (t.pushCall call position).2.Clean := by
  intro id message
  rw [Tree.pushCall, kind?_adopt]
  exact h.push (by simp) position id message

end Tree

namespace Parser

theorem fillArguments_clean (position : Position) (names : List String) {written : List Argument}
    {t : Tree} (h : t.Clean) : (fillArguments position names written t).2.Clean := by
  induction names generalizing written t with
  | nil => exact h
  | cons name names ih =>
    unfold fillArguments
    split
    · exact ih h
    · exact ih (h.push (by simp) position)

namespace State

/-- Every error node has been reported. -/
def Accounted (s : State) : Prop := s.tree.Clean ∨ s.Reported

variable {s : State} {kind : NodeKind}

theorem accounted_report (s : State) (position : Position) (problem : Problem) :
    (s.report position problem).Accounted := .inr (reported_report s position problem)

theorem Accounted.deliver (h : s.Accounted) (nodes : List NodeId) :
    (s.deliver nodes).Accounted := by
  unfold State.deliver
  split <;> exact h

theorem Accounted.leaf (h : s.Accounted) (hkind : ∀ message, kind ≠ .error message)
    (position : Position) : (s.leaf kind position).Accounted :=
  Accounted.deliver (s := { s with tree := (s.tree.push kind position).2 })
    (h.imp_left (·.push hkind position)) _

theorem Accounted.completeCall (h : s.Accounted) (call : OpenCall) :
    (s.completeCall call).Accounted := by
  unfold State.completeCall
  split
  · right
    simp [Reported, content, report]
  · next definition _ =>
    refine Accounted.deliver (s := { s with tree := (Tree.pushCall _ _ _).2 }) ?_ _
    exact h.imp_left fun hclean => (fillArguments_clean _ _ hclean).pushCall _ _

theorem Accounted.openPositional (h : s.Accounted) (call : OpenCall) (position : Position) :
    (s.openPositional call position).Accounted := by
  unfold State.openPositional
  simp only
  split
  · exact h
  · split
    · exact h
    · exact accounted_report s position _

theorem Accounted.openNamed (h : s.Accounted) (owner : Option OpenCall) (position : Position)
    (name : String) : (s.openNamed owner position name).Accounted := by
  unfold State.openNamed
  simp only
  split
  · exact h
  · split
    · exact h
    · split
      · exact accounted_report s position _
      · split
        · exact accounted_report s position _
        · exact h

theorem Accounted.settle (h : s.Accounted) : s.settle.Accounted := by
  unfold State.settle
  split
  · exact h.completeCall _
  · exact h.openNamed _ _ _
  · exact h

theorem Accounted.close (h : s.Accounted) (a : OpenArgument) (below : List OpenArgument) :
    (s.close a below).Accounted := by
  unfold State.close
  simp only
  split
  · exact Accounted.deliver (s := { s with stack := below }) h _
  · exact h

theorem Accounted.closeDocument (h : s.Accounted) (closer : TokenKind) (position : Position) :
    (s.closeDocument closer position).Accounted := by
  fun_induction State.closeDocument s closer position with
  | case1 s => exact accounted_report s position _
  | case2 s a below => exact h.close a below
  | case3 s a below _ _ ih => exact ih ((accounted_report s _ _).close a below).settle

theorem Accounted.finish (h : s.Accounted) : s.finish.Accounted := by
  fun_induction State.finish s with
  | case1 => exact h
  | case2 s a below _ ih => exact ih ((accounted_report s _ _).close a below).settle

theorem Accounted.readContent (h : s.Accounted) (registry : Registry) (token : Token)
    (isLast : Bool) : (s.readContent registry token isLast).Accounted := by
  unfold State.readContent
  split
  · exact accounted_report s _ _
  · split
    · exact h.leaf (by simp) _
    · exact h.leaf (by simp) _
    · exact h
    · exact accounted_report s _ _
    · exact accounted_report s _ _
    · exact accounted_report s _ _
    · split
      · exact h.closeDocument _ _
      · split
        · exact accounted_report s _ _
        · split
          · exact h.close _ _
          · exact (accounted_report s _ _).close _ _

theorem Accounted.read (h : s.Accounted) (registry : Registry) (token : Token) (isLast : Bool) :
    (s.read registry token isLast).Accounted := by
  unfold State.read
  split
  · exact h.openPositional _ _
  · exact h
  · exact h.openNamed _ _ _
  · exact h.settle.readContent _ _ _

theorem Accounted.readAll (h : s.Accounted) (registry : Registry) (tokens : List Token) :
    (s.readAll registry tokens).Accounted := by
  induction tokens generalizing s with
  | nil => exact h.settle.finish
  | cons token rest ih => exact ih (h.read registry token rest.isEmpty)

theorem accounted_initial : initial.Accounted := by
  left
  intro id message
  simp [initial, Tree.empty, Tree.kind?, Tree.get?]

end State
end Parser

/-- The tree of a document that nothing is reported of has no error node. -/
theorem parse_clean (registry : Registry) (source : String)
    (hsilent : (parse registry (tokenize source).tokens).diagnostics = []) :
    (parse registry (tokenize source).tokens).tree.Clean := by
  obtain ⟨content, last, htokens, -⟩ := tokens_tokenize source
  rw [htokens] at hsilent ⊢
  have haccounted := Parser.State.Accounted.readAll
    (s := Parser.State.initial.beginCall registry MacroName.toplevel .origin true)
    Parser.State.accounted_initial registry
      (⟨.opener .positional, .origin⟩ :: (content ++ [⟨.closer .positional, last⟩]))
  exact haccounted.resolve_right fun hreported => hreported hsilent

end Macromark
