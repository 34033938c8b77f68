import Macromark.Proofs.Tree.Acceptance
import Macromark.Proofs.Tree.Errors
import Macromark.Proofs.Tree.Parsed

/-!
# The texts of a document

While the text of a document is read, its outermost argument is open
(`Holding`), and the last token closes it (`Holding.read_last`). Until then the
nodes that are made hold the texts that have been read, in their order.
-/

namespace Macromark

/-- Text, or a parting of paragraphs. -/
def Token.isText (token : Token) : Bool :=
  match token.kind with
  | .plaintext _ | .paragraphBreak => true
  | _ => false

/-- The token that a node was made of. An argument that the author left out holds an empty text,
which was made of none. -/
def Node.token? (node : Node) : Option Token :=
  match node.kind with
  | .plaintext text => if text = "" then none else some ⟨.plaintext text, node.position⟩
  | .paragraphBreak => some ⟨.paragraphBreak, node.position⟩
  | _ => none

def Tree.texts (t : Tree) : List Token := t.nodes.toList.filterMap Node.token?

/-- The problems of a row of tokens that ends too early or goes on too long. -/
def Problem.breaksOff : Problem → Bool
  | .trailingToken _ | .unexpectedToken _ | .unterminatedArgument => true
  | _ => false

-- ----------------------------------------------------------------------------
-- The texts of a tree
-- ----------------------------------------------------------------------------

namespace Tree

variable {t u : Tree}

theorem texts_congr (h : ∀ id, (t.get? id).map Node.token? = (u.get? id).map Node.token?) :
    t.texts = u.texts := by
  have hnodes : t.nodes.toList.map Node.token? = u.nodes.toList.map Node.token? := by
    apply List.ext_getElem?
    intro id
    simpa [get?] using h id
  have hmap : ∀ nodes : List Node,
      nodes.filterMap Node.token? = (nodes.map Node.token?).filterMap id := by simp
  rw [texts, texts, hmap, hmap, hnodes]

theorem texts_push (t : Tree) (kind : NodeKind) (position : Position) :
    (t.push kind position).2.texts = t.texts ++ (Node.token? ⟨kind, position, none⟩).toList := by
  simp only [texts, push, Array.toList_push, List.filterMap_append]
  rfl

theorem texts_adopt (t : Tree) (owner : NodeId) (children : List NodeId) :
    (t.adopt owner children).texts = t.texts := by
  apply texts_congr
  intro id
  rw [get?_adopt]
  cases t.get? id with
  | none => rfl
  | some node => by_cases hid : id ∈ children <;> simp [hid, Node.token?]

theorem texts_pushCall (t : Tree) (call : MacroCall) (position : Position) :
    (t.pushCall call position).2.texts = t.texts := by
  simp [pushCall, texts_adopt, texts_push, Node.token?]

end Tree

namespace Parser

theorem fillArguments_texts (position : Position) (names : List String) (written : List Argument)
    (t : Tree) : (fillArguments position names written t).2.texts = t.texts := by
  induction names generalizing written t with
  | nil => rfl
  | cons name names ih =>
    unfold fillArguments
    split
    · exact ih _ t
    · have hpushed := ih written (t.push (.plaintext "") position).2
      simpa [Tree.texts_push, Node.token?] using hpushed

namespace State

variable {registry : Registry} {s : State} {bottom a : OpenArgument} {below : List OpenArgument}
variable {texts : List Token} {call root : OpenCall} {token : Token}

-- ----------------------------------------------------------------------------
-- The text of the document is open
-- ----------------------------------------------------------------------------

/-- The outermost argument, that of the root, is open; `texts` have been read in it. -/
structure Holding (bottom : OpenArgument) (texts : List Token) (s : State) : Prop where
  stack : ∃ inner children, s.stack = inner ++ [{ bottom with children }] ∧
    ∀ a ∈ inner, a.outermost = false ∧ ∀ call ∈ a.owner, call.isRoot = false
  nested : ∀ call ∈ s.expecting.calls, call.isRoot = false
  texts : s.tree.texts = texts
  quiet : ∀ d ∈ s.diagnostics, d.problem.breaksOff = false

theorem Holding.stack_ne_nil (h : s.Holding bottom texts) : s.stack ≠ [] := by
  obtain ⟨inner, children, hstack, -⟩ := h.stack
  simp [hstack]

theorem Holding.report (h : s.Holding bottom texts) (position : Position) {problem : Problem}
    (hproblem : problem.breaksOff = false) : (s.report position problem).Holding bottom texts := by
  refine ⟨h.stack, h.nested, h.texts, fun d hd => ?_⟩
  rcases List.mem_append.mp hd with hd | hd
  · exact h.quiet d hd
  · exact List.mem_singleton.mp hd ▸ hproblem

theorem Holding.content (h : s.Holding bottom texts) : s.content.Holding bottom texts :=
  ⟨h.stack, by simp [State.content], h.texts, h.quiet⟩

theorem Holding.deliver (h : s.Holding bottom texts) (nodes : List NodeId) :
    (s.deliver nodes).Holding bottom texts := by
  obtain ⟨inner, children, hstack, hinner⟩ := h.stack
  unfold State.deliver
  split
  · next innermost below heq =>
    refine ⟨?_, h.nested, h.texts, h.quiet⟩
    cases inner with
    | nil =>
      obtain ⟨rfl, rfl⟩ := List.cons.inj (heq.symm.trans hstack)
      exact ⟨[], _, rfl, by simp⟩
    | cons first inner =>
      obtain ⟨rfl, rfl⟩ := List.cons.inj (heq.symm.trans hstack)
      refine ⟨_ :: inner, children, rfl, fun a ha => ?_⟩
      rcases List.mem_cons.mp ha with rfl | ha
      · exact hinner innermost List.mem_cons_self
      · exact hinner a (List.mem_cons_of_mem _ ha)
  · next hnil => exact absurd hnil h.stack_ne_nil

theorem Holding.withTree (h : s.Holding bottom texts) {t : Tree} {more : List Token}
    (ht : t.texts = s.tree.texts ++ more) : Holding bottom (texts ++ more) { s with tree := t } :=
  ⟨h.stack, h.nested, by rw [ht, h.texts], h.quiet⟩

theorem Holding.leaf (h : s.Holding bottom texts) (kind : NodeKind) (position : Position) :
    (s.leaf kind position).Holding bottom
      (texts ++ (Node.token? ⟨kind, position, none⟩).toList) :=
  (h.withTree (s.tree.texts_push kind position)).deliver _

theorem Holding.completeCall (h : s.Holding bottom texts) (call : OpenCall) :
    (s.completeCall call).Holding bottom texts := by
  unfold State.completeCall
  split
  · simpa [Node.token?] using ((h.report _ rfl).leaf (.error _) _).content
  · refine (Holding.deliver ?_ _).content
    refine ⟨h.stack, h.nested, (Tree.texts_pushCall _ _ _).trans ?_, h.quiet⟩
    rw [fillArguments_texts, h.texts]

theorem Holding.enter (h : s.Holding bottom texts) (hinner : a.outermost = false)
    (howner : ∀ call ∈ a.owner, call.isRoot = false) : (s.enter a).Holding bottom texts := by
  obtain ⟨inner, children, hstack, hopen⟩ := h.stack
  refine ⟨⟨a :: inner, children, by simp [State.enter, hstack], ?_⟩, by simp [State.enter],
    h.texts, h.quiet⟩
  intro other hother
  rcases List.mem_cons.mp hother with rfl | hother
  · exact ⟨hinner, howner⟩
  · exact hopen other hother

theorem Holding.openPositional (h : s.Holding bottom texts) (hcall : call.isRoot = false)
    (position : Position) : (s.openPositional call position).Holding bottom texts := by
  have hinner : opensDocument call = false := by simp [opensDocument, hcall]
  unfold State.openPositional
  simp only
  split
  · exact h.enter hinner (by simpa using hcall)
  · split
    · exact h.enter hinner (by simpa using hcall)
    · exact (h.report _ rfl).enter hinner (by simpa using hcall)

theorem Holding.openNamed (h : s.Holding bottom texts) {owner : Option OpenCall}
    (howner : ∀ call ∈ owner, call.isRoot = false) (position : Position) (name : String) :
    (s.openNamed owner position name).Holding bottom texts := by
  unfold State.openNamed
  simp only
  split
  · exact h.enter rfl (by simp)
  · next call =>
    have hinner : opensDocument call = false := by simp [opensDocument, howner call rfl]
    split
    · exact h.enter hinner howner
    · split
      · exact (h.report _ rfl).enter hinner howner
      · split
        · exact (h.report _ rfl).enter hinner howner
        · exact h.enter hinner howner

theorem Holding.close (h : s.Holding bottom texts) (hstack : s.stack = a :: below)
    (hinner : a.outermost = false) (hbottom : bottom.outermost = true) :
    (s.close a below).Holding bottom texts := by
  obtain ⟨inner, children, hsplit, hopen⟩ := h.stack
  cases inner with
  | nil =>
    obtain ⟨rfl, -⟩ := List.cons.inj (hstack.symm.trans hsplit)
    exact absurd (hbottom.symm.trans hinner) (by simp)
  | cons first inner =>
    obtain ⟨rfl, rfl⟩ := List.cons.inj (hstack.symm.trans hsplit)
    have hbelow : ∃ inner' children', inner ++ [{ bottom with children }] =
        inner' ++ [{ bottom with children := children' }] ∧
          ∀ a ∈ inner', a.outermost = false ∧ ∀ call ∈ a.owner, call.isRoot = false :=
      ⟨inner, children, rfl, fun other hother => hopen other (List.mem_cons_of_mem _ hother)⟩
    cases howner : a.owner with
    | none =>
      simp only [State.close, howner]
      rw [content_deliver]
      refine (Holding.deliver ?_ _).content
      exact ⟨hbelow, by simp [State.content], h.texts, h.quiet⟩
    | some call =>
      simp only [State.close, howner]
      refine ⟨hbelow, ?_, h.texts, h.quiet⟩
      have hcall := (hopen a List.mem_cons_self).2 call howner
      simpa [Expecting.calls] using hcall

theorem Holding.settle (h : s.Holding bottom texts) : s.settle.Holding bottom texts := by
  unfold State.settle
  split
  · exact h.completeCall _
  · next owner opener hexpecting =>
    refine h.openNamed (fun call hcall => h.nested call ?_) _ _
    simpa [hexpecting, Expecting.calls] using hcall
  · exact h

theorem Holding.beginCall (h : s.Holding bottom texts) (name : String) (position : Position) :
    (s.beginCall registry name position false).Holding bottom texts :=
  ⟨h.stack, by simp [State.beginCall, Expecting.calls], h.texts, h.quiet⟩

-- ----------------------------------------------------------------------------
-- Reading while it is open
-- ----------------------------------------------------------------------------

/-- Where the name of an argument is expected. -/
def ExpectsName (s : State) : Prop := ∃ owner opener, s.expecting = .argumentName owner opener

theorem Holding.readContent (h : s.Holding bottom texts) (hbottom : bottom.outermost = true)
    (hname : ∀ name, token.kind ≠ .argumentName name) (htext : token.kind ≠ .plaintext "") :
    (s.readContent registry token false).Holding bottom (texts ++ [token].filter (·.isText)) := by
  obtain ⟨kind, position⟩ := token
  unfold State.readContent
  split
  · next hnil => exact absurd hnil h.stack_ne_nil
  · next innermost below hstack =>
    cases kind with
    | plaintext text =>
      have hne : text ≠ "" := fun heq => htext (heq ▸ rfl)
      simpa [Node.token?, hne, Token.isText] using h.leaf (.plaintext text) position
    | paragraphBreak => simpa [Node.token?, Token.isText] using h.leaf .paragraphBreak position
    | macroName name => simpa [Token.isText] using h.beginCall name position
    | argumentName name => exact absurd rfl (hname name)
    | opener b =>
      have hreported : (s.report position .orphanArgument).Holding bottom texts :=
        h.report position rfl
      cases b with
      | positional => simpa [Token.isText] using hreported.enter rfl (by simp)
      | named => simpa [Token.isText] using
          (⟨hreported.stack, by simp [Expecting.calls], hreported.texts, hreported.quiet⟩ :
            Holding bottom texts { s.report position .orphanArgument with
              expecting := .argumentName none position })
    | closer found =>
      simp only [Token.isText, List.filter_cons, List.filter_nil, Bool.false_eq_true, if_false,
        List.append_nil]
      split
      · exact h.report position rfl
      · next hinner =>
        have hinner := Bool.eq_false_iff.mpr hinner
        split
        · exact h.close hstack hinner hbottom
        · exact (h.report position rfl).close hstack hinner hbottom

theorem Holding.read (h : s.Holding bottom texts) (hbottom : bottom.outermost = true)
    (hname : ∀ name, token.kind = .argumentName name → s.ExpectsName)
    (htext : token.kind ≠ .plaintext "") :
    (s.read registry token false).Holding bottom (texts ++ [token].filter (·.isText)) := by
  unfold State.read
  split
  · next call hexpecting hkind =>
    have hcall := h.nested call (by simp [hexpecting, Expecting.calls])
    simpa [Token.isText, hkind] using h.openPositional hcall token.position
  · next call hexpecting hkind =>
    refine ⟨h.stack, ?_, by simpa [Token.isText, hkind] using h.texts, h.quiet⟩
    simpa [hexpecting, Expecting.calls] using h.nested
  · next owner opener name hexpecting hkind =>
    have howner : ∀ call ∈ owner, call.isRoot = false := fun call hcall =>
      h.nested call (by simpa [hexpecting, Expecting.calls] using hcall)
    simpa [Token.isText, hkind] using h.openNamed howner opener name
  · next hother =>
    refine h.settle.readContent hbottom (fun name hkind => ?_) htext
    obtain ⟨owner, opener, hexpecting⟩ := hname name hkind
    exact hother owner opener name hexpecting hkind

/-- Behind a brace the name of an argument is expected. -/
theorem Holding.expectsName_opener (h : s.Holding bottom texts) (hkind : token.kind = .opener .named) :
    (s.read registry token false).ExpectsName := by
  unfold State.read
  split
  · next hkind' => simp [hkind] at hkind'
  · exact ⟨_, _, rfl⟩
  · next hkind' => simp [hkind] at hkind'
  · unfold State.readContent
    split
    · next hnil => exact absurd hnil h.settle.stack_ne_nil
    · simp only [hkind]
      exact ⟨_, _, rfl⟩

theorem Holding.readOn {tokens : List Token} (h : s.Holding bottom texts)
    (hbottom : bottom.outermost = true)
    (hhead : ∀ token ∈ tokens.head?, ∀ name, token.kind = .argumentName name → s.ExpectsName)
    (hchain : tokens.IsChain fun a b => ∀ name, b.kind = .argumentName name → a.kind = .opener .named)
    (htext : ∀ token ∈ tokens, token.kind ≠ .plaintext "") :
    (s.readOn registry tokens).Holding bottom (texts ++ tokens.filter (·.isText)) := by
  induction tokens generalizing s texts with
  | nil => simpa using h
  | cons token rest ih =>
    have hread : (s.read registry token false).Holding bottom (texts ++ [token].filter (·.isText)) :=
      h.read hbottom (hhead token rfl) (htext token List.mem_cons_self)
    have hrest := ih hread ?_ hchain.tail fun other hother => htext other (List.mem_cons_of_mem _ hother)
    · rw [List.append_assoc, ← List.filter_append] at hrest
      exact hrest
    · intro next hnext name hname
      obtain ⟨rest', rfl⟩ := List.head?_eq_some_iff.mp hnext
      exact h.expectsName_opener ((List.isChain_cons_cons.mp hchain).1 name hname)

-- ----------------------------------------------------------------------------
-- The last token
-- ----------------------------------------------------------------------------

/-- The text of the document has been closed, and the root is not complete. -/
structure Ended (root : OpenCall) (bottom : OpenArgument) (texts : List Token) (s : State) :
    Prop where
  stack : s.stack = []
  expecting : ∃ children, s.expecting = .arguments (returned root bottom children)
  texts : s.tree.texts = texts
  quiet : ∀ d ∈ s.diagnostics, d.problem.breaksOff = false

theorem Holding.closeDocument (h : s.Holding bottom texts) (hbottom : bottom.outermost = true)
    (howner : bottom.owner = some root) (closer : TokenKind) (position : Position) :
    (s.closeDocument closer position).Ended root bottom texts := by
  fun_induction State.closeDocument s closer position with
  | case1 s hnil => exact absurd hnil h.stack_ne_nil
  | case2 s a below hstack houtermost =>
    obtain ⟨inner, children, hsplit, hinner⟩ := h.stack
    cases inner with
    | nil =>
      obtain ⟨rfl, rfl⟩ := List.cons.inj (hstack.symm.trans hsplit)
      rw [close_owned (a := { bottom with children }) howner]
      exact ⟨rfl, ⟨children, rfl⟩, h.texts, h.quiet⟩
    | cons first inner =>
      obtain ⟨rfl, -⟩ := List.cons.inj (hstack.symm.trans hsplit)
      simp [(hinner a List.mem_cons_self).1] at houtermost
  | case3 s a below hstack hinner ih =>
    exact ih ((h.report _ rfl).close hstack (by simpa using hinner) hbottom).settle

theorem Holding.read_last (h : s.Holding bottom texts) (hbottom : bottom.outermost = true)
    (howner : bottom.owner = some root) (registry : Registry) (found : Bracket)
    (position : Position) : (s.read registry ⟨.closer found, position⟩ true).Ended root bottom texts := by
  have hread : s.read registry ⟨.closer found, position⟩ true =
      s.settle.closeDocument (.closer found) position := by
    obtain ⟨innermost, below, hstack⟩ := List.exists_cons_of_ne_nil h.settle.stack_ne_nil
    simp [State.read, State.readContent, hstack]
  rw [hread]
  exact h.settle.closeDocument hbottom howner _ _

theorem texts_deliver (s : State) (nodes : List NodeId) :
    (s.deliver nodes).tree.texts = s.tree.texts := by
  unfold State.deliver
  split <;> rfl

/-- Then the root is made, and nothing is left to read. -/
theorem readAll_nil (hstack : s.stack = []) (hcall : s.expecting = .arguments call) :
    s.readAll registry [] = s.completeCall call := by
  have hsettle : s.settle = s.completeCall call := by simp [State.settle, hcall]
  rw [State.readAll, hsettle]
  refine finish_nil (List.length_eq_zero_iff.mp ?_)
  rw [length_stack_completeCall, hstack, List.length_nil]

theorem Ended.readAll (h : s.Ended root bottom texts) (hdef : root.definition = some d)
    (registry : Registry) :
    let t := s.readAll registry []
    t.tree.texts = texts ∧ ∀ d ∈ t.diagnostics, d.problem.breaksOff = false := by
  obtain ⟨children, hexpecting⟩ := h.expecting
  have hdef' : (returned root bottom children).definition = some d := hdef
  rw [readAll_nil h.stack hexpecting, State.completeCall, hdef']
  refine ⟨?_, ?_⟩
  · simp only [State.content, texts_deliver]
    exact (Tree.texts_pushCall _ _ _).trans ((fillArguments_texts ..).trans h.texts)
  · simpa [State.content] using h.quiet

end State
end Parser
end Macromark
