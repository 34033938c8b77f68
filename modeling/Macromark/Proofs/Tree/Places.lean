import Macromark.Proofs.Tree.Parsed

/-!
# The positions in a tree

The parser makes no position up: whatever holds of the positions of the tokens
holds of those of all nodes, of their arguments, and of all that is reported
(`parse_placed`). One step of the parser keeps this of its whole state
(`State.Placed`), the macros and arguments that are still open included.
-/

namespace Macromark

variable {P : Position → Prop}

def NodeKind.positions : NodeKind → List Position
  | .call written => written.arguments.map (·.position)
  | _ => []

theorem NodeKind.positions_shape (kind : NodeKind) : kind.shape.positions = kind.positions := by
  cases kind <;> simp [shape, positions, Function.comp_def]

/-- Every node and every argument of a tree stands where `P` says. -/
def Tree.Placed (P : Position → Prop) (t : Tree) : Prop :=
  ∀ id kind position, t.shape? id = some (kind, position) → P position ∧ ∀ p ∈ kind.positions, P p

namespace Tree

variable {t u : Tree} {id : NodeId} {call : MacroCall} {kind : NodeKind} {here : Position}

theorem Placed.node {node : Node} (h : t.Placed P) (hnode : t.get? id = some node) :
    P node.position ∧ ∀ p ∈ node.kind.positions, P p := by
  obtain ⟨hposition, harguments⟩ :=
    h id node.kind.shape node.position (by rw [shape?, hnode, Option.map_some])
  exact ⟨hposition, fun p hp => harguments p (by rwa [NodeKind.positions_shape])⟩

theorem Placed.position (h : t.Placed P) (horigin : P .origin) (id : NodeId) : P (t.position id) := by
  unfold Tree.position
  cases hnode : t.get? id with
  | none => exact horigin
  | some node => exact (h.node hnode).1

theorem Placed.argument {argument : Argument} (h : t.Placed P) (hcall : t.call? id = some call)
    (hargument : argument ∈ call.arguments) : P argument.position := by
  obtain ⟨node, hnode, hkind⟩ := Option.bind_eq_some_iff.mp hcall
  refine (h.node hnode).2 _ ?_
  cases hnodekind : node.kind <;> simp [Node.call?, hnodekind] at hkind
  subst hkind
  exact List.mem_map_of_mem hargument

theorem Placed.congr (h : t.Placed P) (hshape : ∀ id, u.shape? id = t.shape? id) : u.Placed P :=
  fun id kind position hsome => h id kind position (hshape id ▸ hsome)

theorem Placed.push (h : t.Placed P) (kind : NodeKind) (hhere : P here) (hkind : ∀ p ∈ kind.positions, P p) :
    (t.push kind here).2.Placed P := by
  intro id other there hsome
  rw [shape?, get?_push] at hsome
  split at hsome
  · obtain ⟨rfl, rfl⟩ := Prod.mk.inj (Option.some.inj hsome)
    exact ⟨hhere, fun p hp => hkind p (by rwa [← NodeKind.positions_shape])⟩
  · exact h id other there hsome

theorem Placed.pushCall (h : t.Placed P) (hhere : P here)
    (harguments : ∀ a ∈ call.arguments, P a.position) : (t.pushCall call here).2.Placed P := by
  refine Placed.congr (h.push (.call call) hhere ?_) fun id => shape?_adopt _ _ _ id
  intro p hp
  obtain ⟨a, ha, rfl⟩ := List.mem_map.mp hp
  exact harguments a ha

theorem placed_empty : Tree.empty.Placed P := by
  intro id kind position hsome
  simp [shape?, get?, empty] at hsome

end Tree

-- ----------------------------------------------------------------------------
-- The parser
-- ----------------------------------------------------------------------------

structure OpenCall.Placed (P : Position → Prop) (call : OpenCall) : Prop where
  position : P call.position
  arguments : ∀ a ∈ call.arguments, P a.position

structure OpenArgument.Placed (P : Position → Prop) (a : OpenArgument) : Prop where
  position : P a.position
  owner : ∀ call ∈ a.owner, call.Placed P

namespace Parser

def Expecting.Placed (P : Position → Prop) : Expecting → Prop
  | content => True
  | arguments call => call.Placed P
  | argumentName owner opener => P opener ∧ ∀ call ∈ owner, call.Placed P

namespace State

structure Placed (P : Position → Prop) (s : State) : Prop where
  tree : s.tree.Placed P
  diagnostics : ∀ d ∈ s.diagnostics, P d.position
  stack : ∀ a ∈ s.stack, a.Placed P
  expecting : s.expecting.Placed P

variable {s : State} {call : OpenCall} {argument : OpenArgument} {below : List OpenArgument}
variable {position : Position}

theorem Placed.report (h : s.Placed P) (hposition : P position) (problem : Problem) :
    (s.report position problem).Placed P := by
  refine ⟨h.tree, fun d hd => ?_, h.stack, h.expecting⟩
  rcases List.mem_append.mp hd with hd | hd
  · exact h.diagnostics d hd
  · obtain rfl := List.mem_singleton.mp hd
    exact hposition

theorem Placed.content (h : s.Placed P) : s.content.Placed P :=
  ⟨h.tree, h.diagnostics, h.stack, trivial⟩

theorem Placed.deliver (h : s.Placed P) (nodes : List NodeId) : (s.deliver nodes).Placed P := by
  unfold State.deliver
  split
  · next innermost below hstack =>
    have hinnermost := h.stack innermost (hstack ▸ List.mem_cons_self)
    refine ⟨h.tree, h.diagnostics, fun a ha => ?_, h.expecting⟩
    rcases List.mem_cons.mp ha with rfl | ha
    · exact ⟨hinnermost.position, hinnermost.owner⟩
    · exact h.stack a (hstack ▸ List.mem_cons_of_mem _ ha)
  · exact ⟨h.tree.congr fun _ => rfl, h.diagnostics, h.stack, h.expecting⟩

theorem Placed.leaf {kind : NodeKind} (h : s.Placed P) (hposition : P position)
    (hkind : kind.positions = []) : (s.leaf kind position).Placed P := by
  have htree : (s.tree.push kind position).2.Placed P := h.tree.push kind hposition (by simp [hkind])
  exact Placed.deliver (s := { s with tree := (s.tree.push kind position).2 })
    ⟨htree, h.diagnostics, h.stack, h.expecting⟩ _

theorem Placed.beginCall (h : s.Placed P) (hposition : P position) (registry : Registry)
    (name : String) (isRoot : Bool) : (s.beginCall registry name position isRoot).Placed P :=
  ⟨h.tree, h.diagnostics, h.stack, ⟨hposition, by simp⟩⟩

theorem fillArguments_placed (hposition : P position) (names : List String)
    {written : List Argument} {t : Tree} (hwritten : ∀ a ∈ written, P a.position) (h : t.Placed P) :
    (∀ a ∈ (fillArguments position names written t).1, P a.position) ∧
      (fillArguments position names written t).2.Placed P := by
  induction names generalizing written t with
  | nil => exact ⟨fun _ ha => absurd ha List.not_mem_nil, h⟩
  | cons name names ih =>
    unfold fillArguments
    split
    · next a others htaken =>
      have hmem : ∀ b ∈ a :: others, P b.position := fun b hb =>
        hwritten b ((takeArgument_perm htaken).1.mem_iff.mp hb)
      obtain ⟨harguments, htree⟩ := ih (fun b hb => hmem b (List.mem_cons_of_mem _ hb)) h
      refine ⟨fun b hb => ?_, htree⟩
      rcases List.mem_cons.mp hb with rfl | hb
      · exact hmem _ List.mem_cons_self
      · exact harguments b hb
    · obtain ⟨harguments, htree⟩ := ih hwritten
        (h.push (.plaintext "") hposition fun p hp => absurd hp List.not_mem_nil)
      refine ⟨fun b hb => ?_, htree⟩
      rcases List.mem_cons.mp hb with rfl | hb
      · exact hposition
      · exact harguments b hb

theorem Placed.completeCall (h : s.Placed P) (hcall : call.Placed P) :
    (s.completeCall call).Placed P := by
  unfold State.completeCall
  split
  · exact ((h.report hcall.position (.unknownMacro _)).leaf hcall.position rfl).content
  · next definition _ =>
    obtain ⟨harguments, htree⟩ :=
      fillArguments_placed hcall.position definition.argumentNames hcall.arguments h.tree
    refine (Placed.deliver (s := { s with tree := (Tree.pushCall _ _ _).2 }) ?_ _).content
    exact ⟨htree.pushCall hcall.position harguments, h.diagnostics, h.stack, h.expecting⟩

theorem Placed.enter (h : s.Placed P) (hargument : argument.Placed P) :
    (s.enter argument).Placed P := by
  refine ⟨h.tree, h.diagnostics, fun a ha => ?_, trivial⟩
  rcases List.mem_cons.mp ha with rfl | ha
  · exact hargument
  · exact h.stack a ha

theorem Placed.openPositional (h : s.Placed P) (hcall : call.Placed P) (hposition : P position) :
    (s.openPositional call position).Placed P := by
  have howner : ∀ owner ∈ some { call with positionals := call.positionals + 1 },
      OpenCall.Placed P owner := by
    intro owner howner
    obtain rfl := Option.some.inj howner
    exact ⟨hcall.position, hcall.arguments⟩
  unfold State.openPositional
  simp only
  split
  · exact h.enter ⟨hposition, howner⟩
  · split
    · exact h.enter ⟨hposition, howner⟩
    · exact (h.report hposition _).enter ⟨hposition, howner⟩

theorem Placed.openNamed {owner : Option OpenCall} (h : s.Placed P)
    (howner : ∀ call ∈ owner, call.Placed P) (hposition : P position) (name : String) :
    (s.openNamed owner position name).Placed P := by
  unfold State.openNamed
  simp only
  split
  · exact h.enter ⟨hposition, howner⟩
  · split
    · exact h.enter ⟨hposition, howner⟩
    · split
      · exact (h.report hposition _).enter ⟨hposition, howner⟩
      · split
        · exact (h.report hposition _).enter ⟨hposition, howner⟩
        · exact h.enter ⟨hposition, howner⟩

theorem Placed.close (h : s.Placed P) (hargument : argument.Placed P)
    (hbelow : ∀ a ∈ below, a.Placed P) : (s.close argument below).Placed P := by
  have hpopped : State.Placed P { s with stack := below } :=
    ⟨h.tree, h.diagnostics, hbelow, h.expecting⟩
  unfold State.close
  simp only
  split
  · exact (hpopped.deliver _).content
  · next call hcall =>
    have howner := hargument.owner call hcall
    refine ⟨h.tree, h.diagnostics, hbelow, howner.position, fun a ha => ?_⟩
    simp only at ha
    split at ha
    · rcases List.mem_append.mp ha with ha | ha
      · exact howner.arguments a ha
      · obtain rfl := List.mem_singleton.mp ha
        exact hargument.position
    · exact howner.arguments a ha

theorem Placed.settle (h : s.Placed P) : s.settle.Placed P := by
  have hexpecting := h.expecting
  unfold State.settle
  split
  · next hcall => exact h.completeCall (by rwa [hcall] at hexpecting)
  · next hname =>
    rw [hname] at hexpecting
    exact h.openNamed hexpecting.2 hexpecting.1 _
  · exact h

/-- The innermost open argument and those around it. -/
theorem Placed.of_stack (h : s.Placed P) (hstack : s.stack = argument :: below) :
    argument.Placed P ∧ ∀ a ∈ below, a.Placed P :=
  ⟨h.stack argument (hstack ▸ List.mem_cons_self),
    fun a ha => h.stack a (hstack ▸ List.mem_cons_of_mem _ ha)⟩

theorem Placed.closeDocument (h : s.Placed P) (closer : TokenKind) (hposition : P position) :
    (s.closeDocument closer position).Placed P := by
  fun_induction State.closeDocument s closer position with
  | case1 => exact h.report hposition _
  | case2 s argument below hstack =>
    obtain ⟨hargument, hbelow⟩ := h.of_stack hstack
    exact h.close hargument hbelow
  | case3 s argument below hstack _ ih =>
    obtain ⟨hargument, hbelow⟩ := h.of_stack hstack
    exact ih ((h.report hargument.position _).close hargument hbelow).settle

theorem Placed.finish (h : s.Placed P) : s.finish.Placed P := by
  fun_induction State.finish s with
  | case1 => exact h
  | case2 s argument below hstack ih =>
    obtain ⟨hargument, hbelow⟩ := h.of_stack hstack
    exact ih ((h.report hargument.position _).close hargument hbelow).settle

theorem Placed.readContent {token : Token} (h : s.Placed P) (htoken : P token.position)
    (registry : Registry) (isLast : Bool) : (s.readContent registry token isLast).Placed P := by
  have hstray : ∀ call ∈ (none : Option OpenCall), call.Placed P := fun _ hcall => nomatch hcall
  unfold State.readContent
  split
  · exact h.report htoken _
  · next argument below hstack =>
    obtain ⟨hargument, hbelow⟩ := h.of_stack hstack
    split
    · exact h.leaf htoken rfl
    · exact h.leaf htoken rfl
    · exact h.beginCall htoken _ _ _
    · exact h.report htoken _
    · exact (h.report htoken _).enter ⟨htoken, hstray⟩
    · have hreported := h.report htoken .orphanArgument
      exact ⟨hreported.tree, hreported.diagnostics, hreported.stack, htoken, hstray⟩
    · split
      · exact h.closeDocument _ htoken
      · split
        · exact h.report htoken _
        · split
          · exact h.close hargument hbelow
          · exact (h.report htoken _).close hargument hbelow

theorem Placed.read {token : Token} (h : s.Placed P) (htoken : P token.position)
    (registry : Registry) (isLast : Bool) : (s.read registry token isLast).Placed P := by
  have hexpecting := h.expecting
  unfold State.read
  split
  · next hcall _ => exact h.openPositional (by rwa [hcall] at hexpecting) htoken
  · next call hcall _ =>
    rw [hcall] at hexpecting
    refine ⟨h.tree, h.diagnostics, h.stack, htoken, fun owner howner => ?_⟩
    obtain rfl := Option.some.inj howner
    exact hexpecting
  · next hname _ =>
    rw [hname] at hexpecting
    exact h.openNamed hexpecting.2 hexpecting.1 _
  · exact h.settle.readContent htoken _ _

theorem Placed.readAll {tokens : List Token} (h : s.Placed P)
    (htokens : ∀ token ∈ tokens, P token.position) (registry : Registry) :
    (s.readAll registry tokens).Placed P := by
  induction tokens generalizing s with
  | nil => exact h.settle.finish
  | cons token rest ih =>
    exact ih (h.read (htokens token List.mem_cons_self) registry rest.isEmpty)
      fun later hlater => htokens later (List.mem_cons_of_mem _ hlater)

end State
end Parser

/-- A tree and its problems stand where the tokens do, or at the origin. -/
theorem parse_placed {tokens : List Token} (horigin : P .origin)
    (htokens : ∀ token ∈ tokens, P token.position) (registry : Registry) :
    (parse registry tokens).tree.Placed P ∧
      ∀ d ∈ (parse registry tokens).diagnostics, P d.position := by
  unfold parse
  split
  · next name position rest =>
    have hinitial : Parser.State.initial.Placed P :=
      ⟨Tree.placed_empty, fun _ hd => absurd hd List.not_mem_nil,
        fun _ ha => absurd ha List.not_mem_nil, trivial⟩
    have hread := (hinitial.beginCall (htokens _ List.mem_cons_self) registry name true).readAll
      (fun token htoken => htokens token (List.mem_cons_of_mem _ htoken)) registry
    exact ⟨hread.tree, hread.diagnostics⟩
  · refine ⟨?_, fun _ hd => absurd hd List.not_mem_nil⟩
    exact (Tree.placed_empty.push (.error "document does not start with a macro") horigin
      fun p hp => absurd hp List.not_mem_nil).congr fun _ => rfl

end Macromark
