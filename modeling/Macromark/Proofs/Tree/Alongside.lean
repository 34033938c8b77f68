import Macromark.Proofs.Tree.Copies

/-!
# Two parsers side by side

What the parser does with a token does not depend on what stands in the
arguments already. So if all that is open in one state is a copy of what is open
in another one, this is still so behind the next token (`Copied.read`). Both may
stand on a ground that is not looked into: an open argument that no closer
reaches, and what is around it.
-/

namespace Macromark

open Passage (Copy CopySlots CopyPair copySlots_iff)

namespace Tree

/-- The passages of a tree, every node marked with its position. -/
def placed (t : Tree) : NodeId → Passage Position := t.marked id

/-- The nodes `others` of `u` read as a copy of the nodes `ids` of `t`. -/
structure Copies (e : Edit Position) (t u : Tree) (ids others : List NodeId) : Prop where
  left : ∀ id ∈ ids, id < t.size
  right : ∀ id ∈ others, id < u.size
  copy : Copy e (ids.map t.placed) (others.map u.bare)

/-- Two trees grow. -/
structure Growth (t u t' u' : Tree) : Prop where
  left : t.Extends t'
  right : u.Extends u'
  acyclic : t.Acyclic ∧ t'.Acyclic
  acyclic' : u.Acyclic ∧ u'.Acyclic

variable {e : Edit Position} {t u t' u' : Tree} {ids others ids' others' : List NodeId}

namespace Copies

theorem nil : Copies e t u [] [] := ⟨by simp, by simp, .nil⟩

theorem one {node other : NodeId} {p : Passage Position} {q : Passage Unit} (hnode : node < t.size)
    (hother : other < u.size) (hp : t.placed node = p) (hq : u.bare other = q)
    (hcopy : Copy e [p] [q]) : Copies e t u [node] [other] :=
  ⟨by simpa, by simpa, by simpa [hp, hq]⟩

theorem append (h : Copies e t u ids others) (h' : Copies e t u ids' others') :
    Copies e t u (ids ++ ids') (others ++ others') := by
  refine ⟨?_, ?_, ?_⟩
  · exact fun id hid => (List.mem_append.mp hid).elim (h.left id) (h'.left id)
  · exact fun id hid => (List.mem_append.mp hid).elim (h.right id) (h'.right id)
  · rw [List.map_append, List.map_append]
    exact h.copy.append h'.copy

theorem grow (h : Copies e t u ids others) (hgrow : Growth t u t' u') :
    Copies e t' u' ids others := by
  obtain ⟨hleft, hright, ⟨ht, ht'⟩, ⟨hu, hu'⟩⟩ := hgrow
  refine ⟨fun id hid => Nat.lt_of_lt_of_le (h.left id hid) hleft.size_le,
    fun id hid => Nat.lt_of_lt_of_le (h.right id hid) hright.size_le, ?_⟩
  have hids : ids.map t'.placed = ids.map t.placed :=
    List.map_congr_left fun id hid => hleft.marked ht ht' _ (h.left id hid)
  have hothers : others.map u'.bare = others.map u.bare :=
    List.map_congr_left fun id hid => hright.marked hu hu' (fun _ => ()) (h.right id hid)
  rw [hids, hothers]
  exact h.copy

end Copies
end Tree

open Macromark.Tree (Copies Growth)

-- ----------------------------------------------------------------------------
-- What is open
-- ----------------------------------------------------------------------------

section Open

variable (e : Edit Position) (t u : Tree)

structure Argument.Copied (a b : Argument) : Prop where
  name : b.name = a.name
  supplied : b.supplied = a.supplied
  children : Copies e t u a.children b.children

/-- Two macros with the same arguments, neither of them that of the document. -/
structure OpenCall.Copied (call other : OpenCall) : Prop where
  name : other.name = call.name
  definition : other.definition = call.definition
  positionals : other.positionals = call.positionals
  inner : call.isRoot = false ∧ other.isRoot = false
  place : e.apart call.position
  arguments : List.Forall₂ (Argument.Copied e t u) call.arguments other.arguments

structure OpenArgument.Copied (a b : OpenArgument) : Prop where
  owner : Option.Rel (OpenCall.Copied e t u) a.owner b.owner
  name : b.name = a.name
  bracket : b.bracket = a.bracket
  inner : a.outermost = false ∧ b.outermost = false
  children : Copies e t u a.children b.children

inductive Parser.Expecting.Copied : Parser.Expecting → Parser.Expecting → Prop
  | content : Copied .content .content
  | arguments {call other : OpenCall} : call.Copied e t u other →
      Copied (.arguments call) (.arguments other)
  | argumentName {owner other : Option OpenCall} {opener opener' : Position} :
      Option.Rel (OpenCall.Copied e t u) owner other →
      Copied (.argumentName owner opener) (.argumentName other opener')

end Open

variable {e : Edit Position} {t u t' u' : Tree}

section Grow

variable (hgrow : Growth t u t' u')
include hgrow

theorem Argument.Copied.grow {a b : Argument} (h : a.Copied e t u b) : a.Copied e t' u' b :=
  ⟨h.name, h.supplied, h.children.grow hgrow⟩

theorem OpenCall.Copied.grow {call other : OpenCall} (h : call.Copied e t u other) :
    call.Copied e t' u' other :=
  { h with arguments := h.arguments.imp fun _ _ => .grow hgrow }

theorem OpenCall.Copied.growOwner {owner other : Option OpenCall}
    (h : Option.Rel (OpenCall.Copied e t u) owner other) :
    Option.Rel (OpenCall.Copied e t' u') owner other := by
  cases h with
  | some hcall => exact .some (hcall.grow hgrow)
  | none => exact .none

theorem OpenArgument.Copied.grow {a b : OpenArgument} (h : a.Copied e t u b) :
    a.Copied e t' u' b :=
  { h with owner := OpenCall.Copied.growOwner hgrow h.owner, children := h.children.grow hgrow }

theorem Parser.Expecting.Copied.grow {x y : Expecting} (h : x.Copied e t u y) :
    x.Copied e t' u' y := by
  cases h with
  | content => exact .content
  | arguments hcall => exact .arguments (hcall.grow hgrow)
  | argumentName howner => exact .argumentName (OpenCall.Copied.growOwner hgrow howner)

end Grow

namespace Parser

theorem within_copied {written others : List Argument}
    (h : List.Forall₂ (Argument.Copied e t u) written others) :
    Within t written ∧ Within u others := by
  induction h with
  | nil => exact ⟨by simp [Within], by simp [Within]⟩
  | cons hab _ ih =>
    exact ⟨List.forall_mem_cons.mpr ⟨hab.children.left, ih.1⟩,
      List.forall_mem_cons.mpr ⟨hab.children.right, ih.2⟩⟩

theorem slots_copied {written others : List Argument}
    (h : List.Forall₂ (Argument.Copied e t u) written others) :
    CopySlots e (written.map (·.slot t.placed)) (others.map (·.slot u.bare)) := by
  induction h with
  | nil => exact .nil
  | @cons a b _ _ hab _ ih =>
    have hpair : CopyPair e (a.slot t.placed, b.slot u.bare) :=
      ⟨hab.name, hab.supplied, hab.children.copy⟩
    exact hpair.first ih

/-- What both parsers stand on: the trees and the stacks that they began with. -/
structure Ground where
  tree : Tree
  argument : OpenArgument
  below : List OpenArgument
  tree' : Tree
  argument' : OpenArgument
  below' : List OpenArgument

/-- Above the ground the arguments of the two stacks are copies of each other. So is what has been
added to the ground. -/
inductive Stacks (e : Edit Position) (g : Ground) (t u : Tree) :
    List OpenArgument → List OpenArgument → Prop
  | ground {ids others : List NodeId} : Copies e t u ids others →
      Stacks e g t u
        ({ g.argument with children := g.argument.children ++ ids } :: g.below)
        ({ g.argument' with children := g.argument'.children ++ others } :: g.below')
  | cons {a b : OpenArgument} {stack stack' : List OpenArgument} : a.Copied e t u b →
      Stacks e g t u stack stack' → Stacks e g t u (a :: stack) (b :: stack')

variable {g : Ground} {stack stack' : List OpenArgument}

theorem Stacks.grow (hgrow : Growth t u t' u') (h : Stacks e g t u stack stack') :
    Stacks e g t' u' stack stack' := by
  induction h with
  | ground hids => exact .ground (hids.grow hgrow)
  | cons hab _ ih => exact .cons (hab.grow hgrow) ih

/-- More is added to the innermost arguments. -/
theorem Stacks.deliver (h : Stacks e g t u stack stack') {ids others : List NodeId}
    (hids : Copies e t u ids others) : ∃ a b below below', stack = a :: below ∧
      stack' = b :: below' ∧
      Stacks e g t u ({ a with children := a.children ++ ids } :: below)
        ({ b with children := b.children ++ others } :: below') := by
  cases h with
  | ground hbefore =>
    refine ⟨_, _, _, _, rfl, rfl, ?_⟩
    simp only [List.append_assoc]
    exact .ground (hbefore.append hids)
  | cons hab hbelow =>
    exact ⟨_, _, _, _, rfl, rfl, .cons { hab with children := hab.children.append hids } hbelow⟩

/-- No closer reaches the ground. -/
def Ground.Covered (g : Ground) (stack : List OpenArgument) : Prop :=
  g.below.length + 1 < stack.length ∨
    g.argument.outermost = true ∧ g.argument'.outermost = true

/-- An argument on the top, or the ground with what has been added to it. -/
theorem Stacks.top (h : Stacks e g t u stack stack') : ∃ a b below below', stack = a :: below ∧
    stack' = b :: below' ∧
    (a.Copied e t u b ∧ Stacks e g t u below below' ∨
      a.outermost = g.argument.outermost ∧ b.outermost = g.argument'.outermost ∧
        below = g.below) := by
  cases h with
  | ground _ => exact ⟨_, _, _, _, rfl, rfl, .inr ⟨rfl, rfl, rfl⟩⟩
  | cons hab hbelow => exact ⟨_, _, _, _, rfl, rfl, .inl ⟨hab, hbelow⟩⟩

theorem Stacks.length_le (h : Stacks e g t u stack stack') : g.below.length + 1 ≤ stack.length := by
  induction h with
  | ground _ => exact Nat.le_refl _
  | cons _ _ ih => exact Nat.le_succ_of_le ih

/-- Nothing is open above the ground. -/
theorem Stacks.of_length (h : Stacks e g t u stack stack') (hlength : stack.length = g.below.length + 1) :
    ∃ ids others, Copies e t u ids others ∧
      stack = { g.argument with children := g.argument.children ++ ids } :: g.below ∧
      stack' = { g.argument' with children := g.argument'.children ++ others } :: g.below' := by
  cases h with
  | ground hids => exact ⟨_, _, hids, rfl, rfl⟩
  | cons _ hbelow =>
    have hle := hbelow.length_le
    rw [List.length_cons] at hlength
    omega

namespace State

structure Copied (e : Edit Position) (g : Ground) (s s' : State) : Prop where
  acyclic : s.tree.Acyclic
  acyclic' : s'.tree.Acyclic
  grown : g.tree.Extends s.tree
  grown' : g.tree'.Extends s'.tree
  stack : Stacks e g s.tree s'.tree s.stack s'.stack
  expecting : s.expecting.Copied e s.tree s'.tree s'.expecting

variable {registry : Registry} {s s' : State} {call other : OpenCall} {a b : OpenArgument}
variable {below below' : List OpenArgument} {ids others : List NodeId} {token token' : Token}

-- ----------------------------------------------------------------------------
-- Steps of the parsers
-- ----------------------------------------------------------------------------

namespace Copied

theorem report (h : Copied e g s s') (position position' : Position) (problem problem' : Problem) :
    Copied e g (s.report position problem) (s'.report position' problem') :=
  ⟨h.acyclic, h.acyclic', h.grown, h.grown', h.stack, h.expecting⟩

theorem content (h : Copied e g s s') : Copied e g s.content s'.content :=
  { h with expecting := .content }

theorem grow (h : Copied e g s s') (ht : s.tree.Extends t) (ht' : t.Acyclic)
    (hu : s'.tree.Extends u) (hu' : u.Acyclic) :
    Copied e g { s with tree := t } { s' with tree := u } := by
  have hgrow : Growth s.tree s'.tree t u := ⟨ht, hu, ⟨h.acyclic, ht'⟩, ⟨h.acyclic', hu'⟩⟩
  exact ⟨ht', hu', h.grown.trans ht, h.grown'.trans hu, h.stack.grow hgrow,
    h.expecting.grow hgrow⟩

theorem deliver (h : Copied e g s s') (hids : Copies e s.tree s'.tree ids others) :
    Copied e g (s.deliver ids) (s'.deliver others) := by
  obtain ⟨a, b, below, below', hstack, hstack', hmore⟩ := h.stack.deliver hids
  unfold State.deliver
  rw [hstack, hstack']
  exact { h with stack := hmore }

theorem leaf (h : Copied e g s s') {kind : NodeKind} (hkind : ∀ call, kind ≠ .call call)
    {position : Position} (hplace : e.apart position) (position' : Position) :
    Copied e g (s.leaf kind position) (s'.leaf kind position') := by
  have hbelow : kind.below = [] := by
    cases kind with
    | call call => exact absurd rfl (hkind call)
    | _ => rfl
  have hgrown := h.grow (s.tree.extends_push kind position) (h.acyclic.push hbelow position)
    (s'.tree.extends_push kind position') (h.acyclic'.push hbelow position')
  refine hgrown.deliver (.one (by simp) (by simp) (h.acyclic.marked_push id hbelow position)
    (h.acyclic'.marked_push (fun _ => ()) hbelow position') ?_)
  cases kind with
  | call call => exact absurd rfl (hkind call)
  | plaintext words => exact .cons (p := .text position words) hplace .nil .nil
  | paragraphBreak => exact .cons (p := .paragraphBreak position) hplace .nil .nil
  | error message => exact .cons (p := .error position message) hplace .nil .nil

theorem completeCall (h : Copied e g s s') (hcall : call.Copied e s.tree s'.tree other) :
    Copied e g (s.completeCall call) (s'.completeCall other) := by
  unfold State.completeCall
  rw [hcall.definition]
  cases call.definition with
  | none =>
    rw [hcall.name]
    exact ((h.report _ _ _ _).leaf (by simp) hcall.place _).content
  | some d =>
    obtain ⟨hwithin, hwithin'⟩ := within_copied hcall.arguments
    obtain ⟨hextends, hacyclic, hlt, hmade⟩ :=
      pushCall_marked id call.name call.position d.argumentNames h.acyclic hwithin
    obtain ⟨hextends', hacyclic', hlt', hmade'⟩ := pushCall_marked (fun _ => ()) other.name
      other.position d.argumentNames h.acyclic' hwithin'
    refine ((h.grow hextends hacyclic hextends' hacyclic').deliver
      (.one hlt hlt' hmade hmade' ?_)).content
    rw [hcall.name]
    exact .call hcall.place ((slots_copied hcall.arguments).fill hcall.place d.argumentNames) _ _

theorem enter (h : Copied e g s s') (hab : a.Copied e s.tree s'.tree b) :
    Copied e g (s.enter a) (s'.enter b) :=
  { h with stack := .cons hab h.stack, expecting := .content }

theorem openPositional (h : Copied e g s s') (hcall : call.Copied e s.tree s'.tree other)
    (position position' : Position) :
    Copied e g (s.openPositional call position) (s'.openPositional other position') := by
  have houtermost : opensDocument call = false ∧ opensDocument other = false := by
    simp [opensDocument, hcall.inner]
  have henter : ∀ r r' : State, Copied e g r r' → r.tree = s.tree → r'.tree = s'.tree → ∀ name,
      Copied e g
        (r.enter { owner := some { call with positionals := call.positionals + 1 }, name
                   bracket := .positional, position, outermost := opensDocument call
                   children := [] })
        (r'.enter { owner := some { other with positionals := other.positionals + 1 }, name
                    bracket := .positional, position := position'
                    outermost := opensDocument other, children := [] }) := by
    intro r r' hr htree htree' name
    refine hr.enter ⟨.some ?_, rfl, rfl, houtermost, .nil⟩
    rw [htree, htree']
    exact { hcall with positionals := congrArg (· + 1) hcall.positionals }
  obtain ⟨callName, here, definition, isRoot, written, positionals⟩ := call
  obtain ⟨callName', here', definition', isRoot', written', positionals'⟩ := other
  have hdefinition : definition' = definition := hcall.definition
  have hpositionals : positionals' = positionals := hcall.positionals
  subst hdefinition hpositionals
  unfold State.openPositional
  simp only
  split
  · exact henter s s' h rfl rfl _
  · split
    · exact henter s s' h rfl rfl _
    · exact henter _ _ (h.report _ _ _ _) rfl rfl _

theorem openNamed {owner other : Option OpenCall} (h : Copied e g s s')
    (howner : Option.Rel (OpenCall.Copied e s.tree s'.tree) owner other)
    (position position' : Position) (name : String) :
    Copied e g (s.openNamed owner position name) (s'.openNamed other position' name) := by
  have henter : ∀ r r' : State, Copied e g r r' → r.tree = s.tree → r'.tree = s'.tree →
      ∀ outermost outermost' slot, outermost = false → outermost' = false →
      Copied e g
        (r.enter { owner, name := slot, bracket := .named, position, outermost, children := [] })
        (r'.enter { owner := other, name := slot, bracket := .named, position := position'
                    outermost := outermost', children := [] }) := by
    intro r r' hr htree htree' outermost outermost' slot hinner hinner'
    exact hr.enter ⟨htree ▸ htree' ▸ howner, rfl, rfl, ⟨hinner, hinner'⟩, .nil⟩
  unfold State.openNamed
  simp only
  cases howner with
  | none => exact henter s s' h rfl rfl _ _ _ rfl rfl
  | @some call other hcall =>
    have hinner : opensDocument call = false := by simp [opensDocument, hcall.inner]
    have hinner' : opensDocument other = false := by simp [opensDocument, hcall.inner]
    have hgiven : other.arguments.any (·.name == name) = call.arguments.any (·.name == name) := by
      have hnames := hcall.arguments
      generalize call.arguments = written at hnames ⊢
      generalize other.arguments = written' at hnames ⊢
      induction hnames with
      | nil => rfl
      | cons hab _ ih => rw [List.any_cons, List.any_cons, hab.name, ih]
    simp only
    rw [hcall.definition, hgiven]
    split
    · exact henter s s' h rfl rfl _ _ _ hinner hinner'
    · split
      · exact henter _ _ (h.report _ _ _ _) rfl rfl _ _ _ hinner hinner'
      · split
        · exact henter _ _ (h.report _ _ _ _) rfl rfl _ _ _ hinner hinner'
        · exact henter s s' h rfl rfl _ _ _ hinner hinner'

/-- Whatever is being read, it comes to its end. -/
theorem settle (h : Copied e g s s') : Copied e g s.settle s'.settle := by
  have hexpecting := h.expecting
  unfold State.settle
  generalize s.expecting = x at hexpecting ⊢
  generalize s'.expecting = y at hexpecting ⊢
  cases hexpecting with
  | content => exact h
  | arguments hcall => exact h.completeCall hcall
  | argumentName howner => exact h.openNamed howner _ _ _

/-- An argument that is not on the ground is closed. -/
theorem close (h : Copied e g s s') (hab : a.Copied e s.tree s'.tree b)
    (hbelow : Stacks e g s.tree s'.tree below below') :
    Copied e g (s.close a below) (s'.close b below') := by
  have hdropped : Copied e g { s with stack := below } { s' with stack := below' } :=
    { h with stack := hbelow }
  have howner := hab.owner
  unfold State.close
  simp only
  generalize a.owner = owner at howner ⊢
  generalize b.owner = other at howner ⊢
  cases howner with
  | none => exact (hdropped.deliver hab.children).content
  | some hcall =>
    refine { hdropped with expecting := .arguments { hcall with arguments := ?_ } }
    rw [hab.name]
    cases a.name with
    | none => exact hcall.arguments
    | some name =>
      exact List.rel_append hcall.arguments (.cons ⟨rfl, rfl, hab.children⟩ .nil)

theorem beginCall (h : Copied e g s s') (name : String) {position : Position}
    (hplace : e.apart position) (position' : Position) :
    Copied e g (s.beginCall registry name position false)
      (s'.beginCall registry name position' false) :=
  { h with expecting := .arguments ⟨rfl, rfl, rfl, ⟨rfl, rfl⟩, hplace, .nil⟩ }

theorem readContent (registry : Registry) (h : Copied e g s s') (hkind : token'.kind = token.kind)
    (hplace : token.kind.MakesNode → e.apart token.position)
    (hcover : ∀ b, token.kind = .closer b → g.Covered s.stack) :
    Copied e g (s.readContent registry token false) (s'.readContent registry token' false) := by
  obtain ⟨a, b, below, below', hstack, hstack', htop⟩ := h.stack.top
  unfold State.readContent
  simp only [hstack, hstack', hkind]
  cases hfound : token.kind with
  | plaintext text => exact h.leaf (by simp) (hplace (by simp [hfound, TokenKind.MakesNode])) _
  | paragraphBreak => exact h.leaf (by simp) (hplace (by simp [hfound, TokenKind.MakesNode])) _
  | macroName name => exact h.beginCall name (hplace (by simp [hfound, TokenKind.MakesNode])) _
  | argumentName name => exact h.report _ _ _ _
  | opener bracket =>
    cases bracket with
    | positional => exact (h.report _ _ _ _).enter ⟨.none, rfl, rfl, ⟨rfl, rfl⟩, .nil⟩
    | named => exact { h with expecting := .argumentName .none }
  | closer found =>
    simp only [Bool.false_eq_true, if_false]
    rcases htop with ⟨hab, hbelow⟩ | ⟨ha, hb, hground⟩
    · simp only [hab.inner, hab.bracket, Bool.false_eq_true, if_false]
      split
      · exact h.close hab hbelow
      · exact (h.report _ _ _ _).close hab hbelow
    · have hlength := hcover found hfound
      rw [Ground.Covered, hstack, hground] at hlength
      obtain ⟨houtermost, houtermost'⟩ := hlength.resolve_left (Nat.lt_irrefl _)
      simp only [ha, hb, houtermost, houtermost', if_true]
      exact h.report _ _ _ _

/-- Two parsers read the same token. -/
theorem read (h : Copied e g s s') (hkind : token'.kind = token.kind)
    (hplace : token.kind.MakesNode → e.apart token.position)
    (hcover : ∀ b, token.kind = .closer b → g.Covered s.settle.stack) :
    Copied e g (s.read registry token false) (s'.read registry token' false) := by
  have hcontent := h.settle.readContent registry hkind hplace hcover
  have hexpecting := h.expecting
  unfold State.read
  generalize hx : s.expecting = x at hexpecting ⊢
  generalize hy : s'.expecting = y at hexpecting ⊢
  cases hexpecting with
  | content => exact hcontent
  | arguments hcall =>
    cases hfound : token.kind with
    | opener bracket =>
      rw [hkind, hfound]
      cases bracket with
      | positional => exact h.openPositional hcall _ _
      | named => exact { h with expecting := .argumentName (.some hcall) }
    | _ =>
      rw [hkind, hfound]
      exact hcontent
  | argumentName howner =>
    cases hfound : token.kind with
    | argumentName name =>
      rw [hkind, hfound]
      exact h.openNamed howner _ _ name
    | _ =>
      rw [hkind, hfound]
      exact hcontent

end Copied

-- ----------------------------------------------------------------------------
-- How many arguments are open
-- ----------------------------------------------------------------------------

theorem length_stack_openPositional (s : State) (call : OpenCall) (position : Position) :
    (s.openPositional call position).stack.length = s.stack.length + 1 := by
  unfold openPositional
  simp only
  repeat' split
  all_goals simp [enter, State.report]

theorem length_stack_openNamed (s : State) (owner : Option OpenCall) (position : Position)
    (name : String) : (s.openNamed owner position name).stack.length = s.stack.length + 1 := by
  unfold openNamed
  simp only
  repeat' split
  all_goals simp [enter, State.report]

theorem expecting_openPositional (s : State) (call : OpenCall) (position : Position) :
    (s.openPositional call position).expecting = .content := by
  unfold openPositional
  simp only
  repeat' split
  all_goals rfl

theorem expecting_openNamed (s : State) (owner : Option OpenCall) (position : Position)
    (name : String) : (s.openNamed owner position name).expecting = .content := by
  unfold openNamed
  simp only
  repeat' split
  all_goals rfl

end State

end Parser

/-- How many arguments are open behind a token, if `n` are before it. -/
def TokenKind.depth? (n : Nat) : TokenKind → Option Nat
  | .opener _ => some (n + 1)
  | .closer _ => if n = 0 then none else some (n - 1)
  | _ => some n

/-- Every argument that is opened is closed, and no other one. -/
def Balanced (kinds : List TokenKind) : Prop := kinds.foldlM TokenKind.depth? 0 = some 0

instance (kinds : List TokenKind) : Decidable (Balanced kinds) :=
  inferInstanceAs (Decidable (_ = _))

namespace Parser.State

variable {g : Parser.Ground} {registry : Registry} {s s' : State} {token token' : Token}
variable {n m : Nat}

namespace Copied

theorem covered (hlength : s.stack.length = g.below.length + 1 + n)
    (hdepth : token.kind.depth? n = some m) (b : Bracket) (hkind : token.kind = .closer b) :
    g.Covered s.stack := by
  refine .inl ?_
  rw [hkind, TokenKind.depth?] at hdepth
  split at hdepth
  · simp at hdepth
  · omega

theorem length_readContent (registry : Registry) (h : Copied e g s s') (hcontent : s.expecting = .content)
    (hlength : s.stack.length = g.below.length + 1 + n) (hdepth : token.kind.depth? n = some m) :
    (s.readContent registry token false).settle.stack.length = g.below.length + 1 + m := by
  obtain ⟨a, b, below, below', hstack, hstack', htop⟩ := h.stack.top
  have hleaf : ∀ kind position, (s.leaf kind position).settle.stack.length = s.stack.length := by
    intro kind position
    rw [settle_eq (by rw [leaf_eq, expecting_deliver, hcontent]), leaf_eq, length_stack_deliver]
  unfold State.readContent
  simp only [hstack]
  cases hfound : token.kind with
  | plaintext _ | paragraphBreak | macroName _ | argumentName _ =>
    simp only [hfound, TokenKind.depth?, Option.some.injEq] at hdepth
    subst hdepth
    first
      | rw [hleaf, hlength]
      | simpa [State.beginCall, State.settle] using hlength
      | simpa [State.settle, State.report, hcontent] using hlength
  | opener bracket =>
    simp only [hfound, TokenKind.depth?, Option.some.injEq] at hdepth
    subst hdepth
    cases bracket with
    | positional => simp [State.settle, State.enter, State.report, hlength, Nat.add_assoc]
    | named => simp [State.settle, length_stack_openNamed, State.report, hlength, Nat.add_assoc]
  | closer found =>
    have hdeep := covered hlength hdepth found hfound
    simp only [hfound, TokenKind.depth?] at hdepth
    split at hdepth
    · simp at hdepth
    · next hne =>
      cases hdepth
      rw [hstack, List.length_cons] at hlength
      have hbelow : below.length = g.below.length + 1 + (n - 1) := by omega
      rcases htop with ⟨hab, -⟩ | ⟨-, -, hground⟩
      · simp only [hab.inner, Bool.false_eq_true, if_false]
        split <;> rw [length_stack_settle_close, hbelow]
      · rw [hground] at hlength
        omega

theorem length_read (h : Copied e g s s')
    (hlength : s.settle.stack.length = g.below.length + 1 + n)
    (hdepth : token.kind.depth? n = some m) :
    (s.read registry token false).settle.stack.length = g.below.length + 1 + m := by
  have hcontent := h.settle.length_readContent registry (expecting_settle s) hlength hdepth
  unfold State.read
  cases hx : s.expecting with
  | content => exact hcontent
  | arguments call =>
    have hsettle : s.settle.stack.length = s.stack.length := by simp [State.settle, hx]
    rw [hsettle] at hlength
    cases hfound : token.kind with
    | opener bracket =>
      simp only [hfound, TokenKind.depth?, Option.some.injEq] at hdepth
      subst hdepth
      cases bracket with
      | positional =>
        simp only
        rw [settle_eq (expecting_openPositional ..), length_stack_openPositional, hlength,
          Nat.add_assoc]
      | named => simp [State.settle, length_stack_openNamed, hlength, Nat.add_assoc]
    | _ => exact hcontent
  | argumentName owner opener =>
    have hsettle : s.settle.stack.length = s.stack.length + 1 := by
      simp [State.settle, hx, length_stack_openNamed]
    rw [hsettle] at hlength
    cases hfound : token.kind with
    | argumentName name =>
      simp only [hfound, TokenKind.depth?, Option.some.injEq] at hdepth
      subst hdepth
      simp only
      rw [settle_eq (expecting_openNamed ..), length_stack_openNamed, hlength]
    | _ => exact hcontent

-- ----------------------------------------------------------------------------
-- Many tokens
-- ----------------------------------------------------------------------------

variable {tokens tokens' : List Token}

/-- The same tokens are read in the text of two documents. -/
theorem readOn (registry : Registry) (h : Copied e g s s')
    (hkinds : tokens'.map (·.kind) = tokens.map (·.kind))
    (hplace : ∀ token ∈ tokens, token.kind.MakesNode → e.apart token.position)
    (houtermost : g.argument.outermost = true ∧ g.argument'.outermost = true) :
    Copied e g (s.readOn registry tokens) (s'.readOn registry tokens') := by
  induction tokens generalizing s s' tokens' with
  | nil =>
    obtain rfl := List.map_eq_nil_iff.mp hkinds
    exact h
  | cons token rest ih =>
    obtain ⟨token', rest', rfl, hkind, hrest⟩ := List.map_eq_cons_iff.mp hkinds
    obtain ⟨hhere, hplace⟩ := List.forall_mem_cons.mp hplace
    rw [readOn_cons, readOn_cons]
    exact ih (h.read hkind hhere fun _ _ => .inr houtermost) hrest hplace

/-- The same tokens are read above the ground, and back down to it. -/
theorem readOn_balanced (registry : Registry) (h : Copied e g s s')
    (hlength : s.settle.stack.length = g.below.length + 1 + n)
    (hkinds : tokens'.map (·.kind) = tokens.map (·.kind))
    (hplace : ∀ token ∈ tokens, token.kind.MakesNode → e.apart token.position)
    (hbalanced : (tokens.map (·.kind)).foldlM TokenKind.depth? n = some m) :
    Copied e g (s.readOn registry tokens) (s'.readOn registry tokens') ∧
      (s.readOn registry tokens).settle.stack.length = g.below.length + 1 + m := by
  induction tokens generalizing s s' tokens' n with
  | nil =>
    obtain rfl := List.map_eq_nil_iff.mp hkinds
    cases hbalanced
    exact ⟨h, hlength⟩
  | cons token rest ih =>
    obtain ⟨token', rest', rfl, hkind, hrest⟩ := List.map_eq_cons_iff.mp hkinds
    obtain ⟨hhere, hplace⟩ := List.forall_mem_cons.mp hplace
    rw [List.map_cons, List.foldlM_cons] at hbalanced
    obtain ⟨depth, hdepth, hbalanced⟩ := Option.bind_eq_some_iff.mp hbalanced
    rw [readOn_cons, readOn_cons]
    exact ih (h.read hkind hhere (covered hlength hdepth)) (h.length_read hlength hdepth) hrest
      hplace hbalanced

end Copied
end Parser.State
end Macromark
