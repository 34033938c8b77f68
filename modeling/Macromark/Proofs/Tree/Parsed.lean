import Macromark.Proofs.Tree.Changes
import Macromark.Tree.Parser

/-!
# The tree that the parser makes

A macro is made after what stands in it, and takes its children out of those
that no macro holds yet (`Tree.Loose`). So the tree of a document grows from
its leaves, whatever the tokens are (`parse_tree`).
-/

namespace Macromark

namespace Tree

def Declared (registry : Registry) (t : Tree) : Prop :=
  ∀ owner call, t.call? owner = some call →
    ∃ d, registry.get? call.name = some d ∧ call.arguments.map (·.name) = d.argumentNames

structure Grown (registry : Registry) (t : Tree) : Prop extends Linked t where
  older : ∀ {owner child}, child ∈ t.below owner → child < owner
  declared : t.Declared registry
  unnamed : ∀ owner call, t.call? owner = some call → call.id = none ∧ call.count = none

/-- The nodes of a list are in no argument. -/
structure Loose (registry : Registry) (t : Tree) (nodes : List NodeId) : Prop
    extends Grown registry t where
  nodup : nodes.Nodup
  free : ∀ id ∈ nodes, id < t.size ∧ t.parent? id = none

variable {registry : Registry} {t : Tree} {nodes fewer rest : List NodeId} {call : MacroCall}

theorem Loose.mono (h : t.Loose registry nodes) (hfewer : fewer.Subperm nodes) :
    t.Loose registry fewer := by
  refine ⟨h.toGrown, ?_, fun id hid => h.free id (hfewer.subset hid)⟩
  obtain ⟨between, hperm, hsub⟩ := hfewer
  exact hperm.nodup_iff.mp (h.nodup.sublist hsub)

theorem Loose.setRoot (h : t.Loose registry nodes) (root? : Option NodeId) :
    Loose registry { t with root? } nodes :=
  ⟨⟨⟨h.parent, h.distinct, h.inside⟩, h.older, h.declared, h.unnamed⟩, h.nodup, h.free⟩

theorem loose_empty (registry : Registry) : empty.Loose registry [] := by
  have hget : ∀ id, empty.get? id = none := fun _ => rfl
  refine ⟨⟨⟨?_, ?_, ?_⟩, ?_, ?_, ?_⟩, .nil, by simp⟩ <;>
    simp [below, Tree.call?, parent?, hget, Declared]

theorem below_push {kind : NodeKind} (hkind : ∀ call, kind ≠ .call call) (position : Position)
    (owner : NodeId) : (t.push kind position).2.below owner = t.below owner := by
  have hcall : Node.call? ⟨kind, position, none⟩ = none := by
    cases kind <;> simp [Node.call?] at hkind ⊢
  have hnone : t.call? t.size = none := by simp [Tree.call?, get?, size]
  unfold below
  rw [call?_push]
  split
  · next h => rw [hcall, h, hnone]
  · rfl

theorem below_pushCall (position : Position) (owner : NodeId) :
    (t.pushCall call position).2.below owner =
      if owner = t.size then call.allChildren else t.below owner := by
  unfold below
  rw [call?_pushCall]
  split <;> rfl

theorem Loose.push (h : t.Loose registry nodes) (kind : NodeKind)
    (hkind : ∀ call, kind ≠ .call call) (position : Position) :
    (t.push kind position).2.Loose registry (t.size :: nodes) := by
  have hfresh : t.parent? t.size = none := by simp [parent?, get?, size]
  have hcalls : ∀ {id call}, (t.push kind position).2.call? id = some call →
      t.call? id = some call := by
    intro id call hcall
    rw [call?_push] at hcall
    split at hcall
    · cases kind with
      | call call => exact absurd rfl (hkind call)
      | _ => simp [Node.call?] at hcall
    · exact hcall
  refine ⟨⟨⟨?_, ?_, ?_⟩, ?_, ?_, ?_⟩, ?_, ?_⟩
  · intro owner child hchild
    rw [below_push hkind] at hchild
    rw [parent?_push, h.parent hchild]
  · intro owner
    rw [below_push hkind]
    exact h.distinct owner
  · intro child owner hparent
    rw [parent?_push] at hparent
    exact Nat.lt_of_lt_of_le (h.inside hparent) (by simp)
  · intro owner child hchild
    rw [below_push hkind] at hchild
    exact h.older hchild
  · exact fun owner call hcall => h.declared owner call (hcalls hcall)
  · exact fun owner call hcall => h.unnamed owner call (hcalls hcall)
  · exact List.nodup_cons.mpr ⟨fun hmem => Nat.lt_irrefl _ (h.free _ hmem).1, h.nodup⟩
  · intro id hid
    rw [parent?_push]
    rcases List.mem_cons.mp hid with rfl | hid
    · exact ⟨by simp, hfresh⟩
    · exact ⟨Nat.lt_of_lt_of_le (h.free id hid).1 (by simp), (h.free id hid).2⟩

theorem Loose.pushCall (h : t.Loose registry (call.allChildren ++ rest))
    (hdeclared : ∃ d, registry.get? call.name = some d ∧
      call.arguments.map (·.name) = d.argumentNames)
    (hunnamed : call.id = none ∧ call.count = none) (position : Position) :
    (t.pushCall call position).2.Loose registry (t.size :: rest) := by
  have hchildren : ∀ child ∈ call.allChildren, child < t.size :=
    fun child hchild => (h.free child (List.mem_append_left _ hchild)).1
  have hparent := parent?_pushCall t position hchildren
  obtain ⟨hnodup, hrest, hdisjoint⟩ := List.nodup_append.mp h.nodup
  have hfresh : t.parent? t.size = none := by simp [parent?, get?, size]
  have hleft : ∀ id ∈ rest, id ∉ call.allChildren :=
    fun id hid hmem => hdisjoint id hmem id hid rfl
  refine ⟨⟨⟨?_, ?_, ?_⟩, ?_, ?_, ?_⟩, ?_, ?_⟩
  · intro owner child hchild
    rw [below_pushCall] at hchild
    rw [hparent]
    split at hchild
    · next howner => rw [if_pos hchild, howner]
    · rw [if_neg, h.parent hchild]
      intro hmem
      have hfree := (h.free child (List.mem_append_left _ hmem)).2
      simp [h.parent hchild] at hfree
  · intro owner
    rw [below_pushCall]
    split
    · exact hnodup
    · exact h.distinct owner
  · intro child owner howner
    rw [hparent] at howner
    rw [size_pushCall]
    split at howner
    · cases howner
      exact Nat.lt_succ_self _
    · exact Nat.lt_succ_of_lt (h.inside howner)
  · intro owner child hchild
    rw [below_pushCall] at hchild
    split at hchild
    · next howner => exact howner ▸ hchildren child hchild
    · exact h.older hchild
  · intro owner other hother
    rw [call?_pushCall] at hother
    split at hother
    · cases hother
      exact hdeclared
    · exact h.declared owner other hother
  · intro owner other hother
    rw [call?_pushCall] at hother
    split at hother
    · cases hother
      exact hunnamed
    · exact h.unnamed owner other hother
  · refine List.nodup_cons.mpr ⟨fun hmem => ?_, hrest⟩
    exact Nat.lt_irrefl _ (h.free _ (List.mem_append_right _ hmem)).1
  · intro id hid
    rw [hparent, size_pushCall]
    rcases List.mem_cons.mp hid with rfl | hid
    · rw [if_neg fun hmem => Nat.lt_irrefl _ (hchildren _ hmem)]
      exact ⟨Nat.lt_succ_self _, hfresh⟩
    · rw [if_neg (hleft id hid)]
      have hfree := h.free id (List.mem_append_right _ hid)
      exact ⟨Nat.lt_succ_of_lt hfree.1, hfree.2⟩

end Tree

open Macromark.Tree (Loose)

variable {registry : Registry} {tree : Tree} {rest : List NodeId}

-- ----------------------------------------------------------------------------
-- The arguments of a macro
-- ----------------------------------------------------------------------------

def OpenCall.children (call : OpenCall) : List NodeId := call.arguments.flatMap (·.children)

namespace Parser

theorem takeArgument_perm {name : String} {written others : List Argument} {argument : Argument}
    (h : takeArgument name written = some (argument, others)) :
    (argument :: others).Perm written ∧ argument.name = name := by
  unfold takeArgument at h
  split at h
  · next i last hi hlast =>
    obtain ⟨taken, htaken, heq⟩ := Option.map_eq_some_iff.mp h
    obtain ⟨rfl, rfl⟩ := Prod.mk.inj heq
    obtain ⟨hlt, htaken⟩ := List.getElem?_eq_some_iff.mp htaken
    refine ⟨?_, ?_⟩
    · obtain ⟨front, rfl⟩ := List.getLast?_eq_some_iff.mp hlast
      rw [List.length_append, List.length_singleton] at hlt
      rcases Nat.lt_succ_iff_lt_or_eq.mp hlt with hi | rfl
      · rw [List.getElem_append_left hi] at htaken
        rw [List.set_append_left i last hi, List.dropLast_concat,
          List.set_eq_take_append_cons_drop, if_pos hi, ← htaken]
        conv_rhs => rw [← List.take_append_drop i front, List.drop_eq_getElem_cons hi]
        rw [List.perm_iff_count]
        intro argument
        simp only [List.count_cons, List.count_append, List.count_nil]
        omega
      · rw [List.getElem_append_right (Nat.le_refl _)] at htaken
        simp only [Nat.sub_self, List.getElem_cons_zero] at htaken
        subst htaken
        simpa using (List.perm_append_singleton last front).symm
    · obtain ⟨hi', hname, -⟩ := List.findIdx?_eq_some_iff_getElem.mp hi
      simpa [htaken] using hname
  · simp at h

theorem fillArguments_loose (position : Position) (names : List String) (written : List Argument)
    (h : tree.Loose registry (written.flatMap (·.children) ++ rest)) :
    (fillArguments position names written tree).2.Loose registry
        ((fillArguments position names written tree).1.flatMap (·.children) ++ rest) ∧
      (fillArguments position names written tree).1.map (·.name) = names := by
  induction names generalizing written tree rest with
  | nil =>
    refine ⟨h.mono ?_, rfl⟩
    exact (List.sublist_append_right _ _).subperm
  | cons name names ih =>
    unfold fillArguments
    split
    · next argument others htake =>
      obtain ⟨hperm, hname⟩ := takeArgument_perm htake
      have htaken : tree.Loose registry (others.flatMap (·.children) ++ (argument.children ++ rest)) := by
        refine h.mono (List.Perm.subperm ?_)
        refine List.Perm.trans ?_ ((hperm.flatMap_right _).append_right _)
        rw [List.perm_iff_count]
        intro id
        simp only [List.flatMap_cons, List.count_append]
        omega
      obtain ⟨hloose, hnames⟩ := ih others htaken
      refine ⟨hloose.mono (List.Perm.subperm ?_), by simp [hnames, hname]⟩
      rw [List.perm_iff_count]
      intro id
      simp only [List.flatMap_cons, List.count_append]
      omega
    · have hpushed := h.push (.plaintext "") (by simp) position
      have hmoved : (tree.push (.plaintext "") position).2.Loose registry
          (written.flatMap (·.children) ++ tree.size :: rest) :=
        hpushed.mono List.perm_middle.subperm
      obtain ⟨hloose, hnames⟩ := ih written hmoved
      refine ⟨hloose.mono (List.Perm.subperm ?_), by simp [hnames]⟩
      simpa using List.perm_middle.symm

-- ----------------------------------------------------------------------------
-- What the parser holds
-- ----------------------------------------------------------------------------

namespace Expecting

def calls : Expecting → List OpenCall
  | .content => []
  | .arguments call => [call]
  | .argumentName owner _ => owner.toList

@[simp] theorem calls_content : calls .content = [] := rfl

end Expecting

namespace State

variable {s : State} {call : OpenCall} {a : OpenArgument} {below : List OpenArgument}
variable {nodes : List NodeId}

def calls (s : State) : List OpenCall := s.expecting.calls ++ s.stack.flatMap (·.owner.toList)

def loose (s : State) : List NodeId :=
  s.expecting.calls.flatMap (·.children) ++
    s.stack.flatMap fun a => a.owner.toList.flatMap (·.children) ++ a.children

/-- The outermost argument is one of the root, a macro named `top`. -/
def Based (top : String) (s : State) : Prop :=
  ∀ a ∈ s.stack.getLast?, ∃ call ∈ a.owner, call.name = top

structure Top (registry : Registry) (top : String) (t : Tree) (root : NodeId) : Prop where
  whole : t.isParagraphBreak root = false
  name : ∀ call, t.call? root = some call → call.name = top
  defined : registry.contains top = true → ∃ call, t.call? root = some call

/-- The root is complete once there is no open argument, and in no macro. -/
structure Standing (registry : Registry) (top : String) (s : State) : Prop where
  based : s.Based top
  root : s.stack = [] → match s.expecting with
    | .arguments call => call.name = top
    | .argumentName owner _ => ∃ call ∈ owner, call.name = top
    | .content => ∃ root, s.tree.root? = some root ∧ root < s.tree.size ∧
        s.tree.parent? root = none ∧ Top registry top s.tree root

/-- What is true of a state, while `nodes` are handed on. -/
structure Holds (registry : Registry) (nodes : List NodeId) (s : State) : Prop where
  loose : s.tree.Loose registry (nodes ++ s.loose)
  known : ∀ call ∈ s.calls, call.definition = registry.get? call.name

structure Sound (registry : Registry) (top : String) (s : State) : Prop extends Holds registry [] s where
  standing : s.Standing registry top

theorem Holds.frame {t : State} {fewer : List NodeId} (h : s.Holds registry nodes)
    (htree : t.tree = s.tree)
    (hloose : ∀ id, (fewer ++ t.loose).count id ≤ (nodes ++ s.loose).count id)
    (hcalls : ∀ call ∈ t.calls, call.definition = registry.get? call.name) :
    t.Holds registry fewer :=
  ⟨htree ▸ h.loose.mono (List.subperm_ext_iff.mpr fun id _ => hloose id), hcalls⟩

theorem Sound.report (h : s.Sound registry top) (position : Position) (problem : Problem) :
    (s.report position problem).Sound registry top :=
  ⟨⟨h.loose, h.known⟩, ⟨h.standing.based, h.standing.root⟩⟩

theorem expecting_deliver (s : State) (nodes : List NodeId) :
    (s.deliver nodes).expecting = s.expecting := by
  unfold State.deliver
  split <;> rfl

theorem content_eq (h : s.expecting = .content) : s.content = s := by
  rw [State.content, ← h]

-- ----------------------------------------------------------------------------
-- Steps of the parser
-- ----------------------------------------------------------------------------

theorem Holds.deliver (h : s.Holds registry nodes) (hbased : s.Based top)
    (hroot : s.stack = [] → ∃ root, nodes = [root] ∧ Top registry top s.tree root) :
    ((s.deliver nodes).content).Sound registry top := by
  unfold State.deliver
  split
  · next innermost below hstack =>
    refine ⟨h.frame rfl ?_ ?_, ⟨?_, ?_⟩⟩
    · intro id
      simp only [State.loose, content, hstack, Expecting.calls_content, List.flatMap_nil,
        List.nil_append, List.flatMap_cons, List.count_append]
      omega
    · intro call hcall
      refine h.known call (List.mem_append_right _ ?_)
      simpa [State.calls, content, hstack, Expecting.calls] using hcall
    · intro a ha
      simp only [Based, hstack] at hbased
      cases below with
      | nil =>
        cases Option.mem_some_iff.mp ha
        exact hbased innermost (by simp)
      | cons next below =>
        rw [content, List.getLast?_cons_cons] at ha
        exact hbased a (by simpa [List.getLast?_cons_cons] using ha)
    · simp [content]
  · next hstack =>
    obtain ⟨root, rfl, htop⟩ := hroot hstack
    have hfree := h.loose.free root (by simp)
    have hnone : s.tree.Loose registry [] := h.loose.mono List.nil_subperm
    refine ⟨⟨?_, by simp [State.calls, content, Expecting.calls, hstack]⟩, ⟨?_, ?_⟩⟩
    · refine (hnone.setRoot _).mono ?_
      simp [State.loose, content, Expecting.calls, hstack]
    · simp [Based, content, hstack]
    · exact fun _ => ⟨root, rfl, hfree.1, hfree.2, ⟨htop.whole, htop.name, htop.defined⟩⟩

theorem leaf_eq (s : State) (kind : NodeKind) (position : Position) : s.leaf kind position =
    State.deliver { s with tree := (s.tree.push kind position).2 } [s.tree.size] := rfl

theorem Sound.leaf (h : s.Sound registry top) (hcontent : s.expecting = .content)
    (hstack : s.stack ≠ []) {kind : NodeKind} (hkind : ∀ call, kind ≠ .call call)
    (position : Position) : (s.leaf kind position).Sound registry top := by
  have hpushed : Holds registry [s.tree.size] { s with tree := (s.tree.push kind position).2 } :=
    ⟨h.loose.push kind hkind position, h.known⟩
  have hdelivered := hpushed.deliver h.standing.based fun hnil => absurd hnil hstack
  rwa [content_eq] at hdelivered
  rw [expecting_deliver]
  exact hcontent

theorem content_deliver (s : State) (nodes : List NodeId) :
    (s.deliver nodes).content = (s.content.deliver nodes).content := by
  obtain ⟨tree, diagnostics, trace, stack, expecting⟩ := s
  cases stack <;> rfl

theorem Sound.completeCall (h : s.Sound registry top) (hcall : s.expecting = .arguments call) :
    (s.completeCall call).Sound registry top := by
  have hloose : s.tree.Loose registry (call.arguments.flatMap (·.children) ++ s.content.loose) := by
    simpa [State.loose, hcall, Expecting.calls, content, OpenCall.children] using h.loose
  have hknown := h.known call (by simp [State.calls, hcall, Expecting.calls])
  have hothers : ∀ other ∈ s.content.calls, other.definition = registry.get? other.name :=
    fun other hother => h.known other (List.mem_append_right _ hother)
  unfold State.completeCall
  split
  · next hnone =>
    have hpushed := hloose.push (.error (Problem.unknownMacro call.name).message) (by simp) call.position
    simp only
    rw [leaf_eq, content_deliver]
    refine Holds.deliver ⟨hpushed.mono ?_, hothers⟩ h.standing.based fun hstack => ⟨_, rfl, ?_, ?_, ?_⟩
    · exact ((List.sublist_append_right _ _).cons_cons _).subperm
    · exact s.tree.isParagraphBreak_push (.error _) (by simp) call.position
    · intro other hother
      exact absurd hother (by simp [Tree.call?_push, Node.call?, content, State.report])
    · have htop := h.standing.root hstack
      rw [hcall] at htop
      intro hdefined
      rw [Registry.contains, ← htop, ← hknown, hnone] at hdefined
      cases hdefined
  · next definition hdefinition =>
    obtain ⟨hfilled, hnames⟩ :=
      fillArguments_loose call.position definition.argumentNames call.arguments hloose
    generalize fillArguments call.position definition.argumentNames call.arguments s.tree = filled
      at hfilled hnames
    have hpushed : (filled.2.pushCall { name := call.name, arguments := filled.1 } call.position).2.Loose
        registry (filled.2.size :: s.content.loose) :=
      hfilled.pushCall ⟨definition, hknown.symm.trans hdefinition, hnames⟩ ⟨rfl, rfl⟩ call.position
    simp only
    rw [content_deliver]
    have hmade : (filled.2.pushCall { name := call.name, arguments := filled.1 } call.position).2.call?
        filled.2.size = some { name := call.name, arguments := filled.1 } := by
      rw [Tree.call?_pushCall, if_pos rfl]
    refine Holds.deliver ⟨hpushed, hothers⟩ h.standing.based fun hstack => ⟨_, rfl, ?_, ?_, ?_⟩
    · exact Tree.isParagraphBreak_pushCall ..
    · have htop := h.standing.root hstack
      rw [hcall] at htop
      intro other hother
      exact Option.some.inj (hmade.symm.trans hother) ▸ htop
    · exact fun _ => ⟨_, hmade⟩

theorem Sound.enter (h : s.Sound registry top) (hempty : a.children = [])
    (howner : ∀ id, (a.owner.toList.flatMap (·.children)).count id ≤
      (s.expecting.calls.flatMap (·.children)).count id)
    (hknown : ∀ call ∈ a.owner, call.definition = registry.get? call.name)
    (hbased : s.stack = [] → ∃ call ∈ a.owner, call.name = top) : (s.enter a).Sound registry top := by
  refine ⟨h.frame rfl ?_ ?_, ⟨?_, by simp [State.enter]⟩⟩
  · intro id
    have hid := howner id
    simp only [State.loose, State.enter, Expecting.calls_content, hempty, List.flatMap_nil,
      List.nil_append, List.flatMap_cons, List.count_append, List.append_nil]
    omega
  · intro call hcall
    simp only [State.calls, State.enter, Expecting.calls, List.nil_append, List.flatMap_cons,
      List.mem_append, Option.mem_toList] at hcall
    rcases hcall with hcall | hcall
    · exact hknown call hcall
    · exact h.known call (List.mem_append_right _ hcall)
  · intro bottom hbottom
    cases hstack : s.stack with
    | nil =>
      simp only [State.enter, hstack, List.getLast?_singleton, Option.mem_def, Option.some.injEq]
        at hbottom
      exact hbottom ▸ hbased hstack
    | cons next below =>
      refine h.standing.based bottom ?_
      simpa [State.enter, hstack, List.getLast?_cons_cons] using hbottom

theorem Sound.openPositional (h : s.Sound registry top) (hcall : s.expecting = .arguments call)
    (position : Position) : (s.openPositional call position).Sound registry top := by
  have hknown := h.known call (by simp [State.calls, hcall, Expecting.calls])
  have henter : ∀ t : State, t.Sound registry top → t.expecting = s.expecting → ∀ name,
      (t.enter { owner := some { call with positionals := call.positionals + 1 }
                 name, bracket := .positional, position
                 outermost := opensDocument call, children := [] }).Sound registry top := by
    intro t ht hexpecting name
    refine ht.enter rfl ?_ ?_ ?_
    · simp [hexpecting, hcall, Expecting.calls, OpenCall.children]
    · simpa using hknown
    · intro hstack
      have htop := ht.standing.root hstack
      rw [hexpecting, hcall] at htop
      exact ⟨_, rfl, htop⟩
  unfold State.openPositional
  simp only
  split
  · exact henter s h rfl _
  · split
    · exact henter s h rfl _
    · exact henter _ (h.report _ _) rfl _

theorem Sound.openNamed {owner : Option OpenCall} {opener : Position} (h : s.Sound registry top)
    (hexpecting : s.expecting = .argumentName owner opener) (position : Position) (name : String) :
    (s.openNamed owner position name).Sound registry top := by
  have henter : ∀ t : State, t.Sound registry top → t.expecting = s.expecting → ∀ outermost slot,
      (t.enter { owner, name := slot, bracket := .named, position, outermost,
                 children := [] }).Sound registry top := by
    intro t ht hexpecting' outermost slot
    refine ht.enter rfl ?_ ?_ ?_
    · simp [hexpecting', hexpecting, Expecting.calls]
    · intro call hcall
      refine ht.known call (List.mem_append_left _ ?_)
      simpa [hexpecting', hexpecting, Expecting.calls] using hcall
    · intro hstack
      have htop := ht.standing.root hstack
      rwa [hexpecting', hexpecting] at htop
  unfold State.openNamed
  simp only
  split
  · exact henter s h rfl _ _
  · split
    · exact henter s h rfl _ _
    · split
      · exact henter _ (h.report _ _) rfl _ _
      · split
        · exact henter _ (h.report _ _) rfl _ _
        · exact henter s h rfl _ _

theorem Sound.close (h : s.Sound registry top) (hstack : s.stack = a :: below) :
    (s.close a below).Sound registry top := by
  have hbased : ∀ bottom ∈ below.getLast?, ∃ call ∈ bottom.owner, call.name = top := by
    intro bottom hbottom
    refine h.standing.based bottom ?_
    cases below with
    | nil => simp at hbottom
    | cons next rest => simpa [hstack, List.getLast?_cons_cons] using hbottom
  have hknown : ∀ call ∈ a.owner, call.definition = registry.get? call.name := by
    intro call hcall
    refine h.known call (List.mem_append_right _ ?_)
    simp only [hstack, List.flatMap_cons, List.mem_append, Option.mem_toList]
    exact .inl hcall
  have hothers : ∀ call ∈ below.flatMap (·.owner.toList), call.definition = registry.get? call.name := by
    intro call hcall
    refine h.known call (List.mem_append_right _ ?_)
    simp only [hstack, List.flatMap_cons, List.mem_append]
    exact .inr hcall
  cases howner : a.owner with
  | none =>
    have hne : below ≠ [] := by
      rintro rfl
      obtain ⟨call, hcall, -⟩ := h.standing.based a (by simp [hstack])
      simp [howner] at hcall
    have hdropped : Holds registry a.children (content { s with stack := below }) := by
      refine h.frame rfl ?_ hothers
      intro id
      simp only [State.loose, content, hstack, Expecting.calls_content, List.flatMap_nil,
        List.nil_append, List.flatMap_cons, List.count_append]
      omega
    simp only [State.close, howner]
    rw [content_deliver]
    exact hdropped.deliver hbased fun hnil => absurd hnil hne
  | some call =>
    simp only [State.close, howner]
    refine ⟨h.frame rfl ?_ ?_, ⟨hbased, fun hnil => ?_⟩⟩
    · intro id
      cases a.name <;>
      · simp only [State.loose, hstack, Expecting.calls, OpenCall.children, howner,
          List.flatMap_cons, List.flatMap_nil, List.flatMap_append, Option.toList_some,
          List.append_nil, List.nil_append, List.count_append]
        omega
    · intro other hother
      rcases List.mem_append.mp hother with hother | hother
      · obtain rfl := List.mem_singleton.mp hother
        exact hknown call howner
      · exact hothers other hother
    · obtain rfl : below = [] := hnil
      obtain ⟨other, hother, htop⟩ := h.standing.based a (by simp [hstack])
      obtain rfl : call = other := Option.some.inj (howner.symm.trans hother)
      exact htop

theorem expecting_settle (s : State) : s.settle.expecting = .content := by
  unfold State.settle
  split
  · unfold State.completeCall
    split <;> rfl
  · unfold State.openNamed
    simp only
    repeat' split
    all_goals rfl
  · next hcontent => exact hcontent

theorem Sound.settle (h : s.Sound registry top) :
    s.settle.Sound registry top ∧ s.settle.expecting = .content := by
  refine ⟨?_, expecting_settle s⟩
  unfold State.settle
  split
  · next call hcall => exact h.completeCall hcall
  · next owner opener hexpecting => exact h.openNamed hexpecting _ _
  · exact h

theorem Sound.closeDocument (h : s.Sound registry top) (closer : TokenKind) (position : Position) :
    (s.closeDocument closer position).Sound registry top := by
  fun_induction State.closeDocument s closer position with
  | case1 s => exact h.report position _
  | case2 s a below hstack => exact h.close hstack
  | case3 s a below hstack _ ih => exact ih ((h.report _ _).close hstack).settle.1

theorem Sound.finish (h : s.Sound registry top) (hcontent : s.expecting = .content) :
    s.finish.Sound registry top ∧ s.finish.expecting = .content ∧ s.finish.stack = [] := by
  fun_induction State.finish s with
  | case1 s hstack => exact ⟨h, hcontent, hstack⟩
  | case2 s a below hstack ih =>
    have hsettled := ((h.report a.position .unterminatedArgument).close hstack).settle
    exact ih hsettled.1 hsettled.2

theorem Sound.beginCall (h : s.Sound registry top) (hcontent : s.expecting = .content)
    (name : String) (position : Position) (isRoot : Bool) (hstack : s.stack ≠ []) :
    (s.beginCall registry name position isRoot).Sound registry top := by
  refine ⟨h.frame rfl ?_ ?_, ⟨h.standing.based, fun hnil => absurd hnil hstack⟩⟩
  · simp [State.loose, State.beginCall, hcontent, Expecting.calls, OpenCall.children]
  · intro call hcall
    rcases List.mem_append.mp hcall with hcall | hcall
    · obtain rfl := List.mem_singleton.mp hcall
      rfl
    · exact h.known call (List.mem_append_right _ hcall)

/-- A brace opens an argument of no macro. -/
theorem Sound.orphan (h : s.Sound registry top) (hcontent : s.expecting = .content)
    (hstack : s.stack ≠ []) (position : Position) :
    Sound registry top { s with expecting := .argumentName none position } := by
  refine ⟨h.frame rfl ?_ ?_, ⟨h.standing.based, fun hnil => absurd hnil hstack⟩⟩
  · simp [State.loose, hcontent, Expecting.calls]
  · exact fun call hcall => h.known call (List.mem_append_right _ hcall)

theorem Sound.readContent (h : s.Sound registry top) (hcontent : s.expecting = .content)
    (token : Token) (isLast : Bool) : (s.readContent registry token isLast).Sound registry top := by
  unfold State.readContent
  split
  · exact h.report _ _
  · next a below hstack =>
    have hne : s.stack ≠ [] := by simp [hstack]
    split
    · exact h.leaf hcontent hne (by simp) _
    · exact h.leaf hcontent hne (by simp) _
    · exact h.beginCall hcontent _ _ _ hne
    · exact h.report _ _
    · refine (h.report _ _).enter rfl ?_ ?_ fun hnil => absurd hnil hne <;> simp
    · exact (h.report _ _).orphan hcontent hne _
    · split
      · exact h.closeDocument _ _
      · split
        · exact h.report _ _
        · split
          · exact h.close hstack
          · exact (h.report _ _).close hstack

theorem Sound.read (h : s.Sound registry top) (token : Token) (isLast : Bool) :
    (s.read registry token isLast).Sound registry top := by
  unfold State.read
  split
  · next call hcall _ => exact h.openPositional hcall _
  · next call hcall _ =>
    refine ⟨h.frame rfl ?_ ?_, ⟨h.standing.based, fun hstack => ?_⟩⟩
    · simp [State.loose, hcall, Expecting.calls]
    · simpa [State.calls, hcall, Expecting.calls] using h.known
    · have htop := h.standing.root hstack
      rw [hcall] at htop
      exact ⟨call, rfl, htop⟩
  · next owner opener name hexpecting _ => exact h.openNamed hexpecting _ _
  · exact h.settle.1.readContent h.settle.2 _ _

theorem Sound.readAll (h : s.Sound registry top) (tokens : List Token) :
    let t := s.readAll registry tokens
    t.Sound registry top ∧ t.expecting = .content ∧ t.stack = [] := by
  induction tokens generalizing s with
  | nil => exact h.settle.1.finish h.settle.2
  | cons token rest ih => exact ih (h.read token rest.isEmpty)

theorem sound_beginCall_initial (registry : Registry) (name : String) (position : Position) :
    (State.initial.beginCall registry name position true).Sound registry name := by
  refine ⟨⟨?_, ?_⟩, ⟨by simp [Based, State.beginCall, State.initial], fun _ => rfl⟩⟩
  · simpa [State.beginCall, State.initial, State.loose, Expecting.calls, OpenCall.children]
      using Tree.loose_empty registry
  · simp [State.calls, State.beginCall, State.initial, Expecting.calls]

end State
end Parser

-- ----------------------------------------------------------------------------
-- The tree of a document
-- ----------------------------------------------------------------------------

/-- Where the macro at the head of a document is defined, the root is a use of it. -/
theorem parse_root (registry : Registry) (name : String) (position : Position) (rest : List Token)
    (hdefined : registry.contains name = true) :
    let t := (parse registry (⟨.macroName name, position⟩ :: rest)).tree
    ∃ call, t.call? t.root = some call ∧ call.name = name := by
  obtain ⟨hsound, hcontent, hstack⟩ :=
    (Parser.State.sound_beginCall_initial registry name position).readAll rest
  have hroot := hsound.standing.root hstack
  rw [hcontent] at hroot
  obtain ⟨root, hroot, -, -, htop⟩ := hroot
  obtain ⟨call, hcall⟩ := htop.defined hdefined
  simp only [parse, Tree.root, hroot, Option.getD_some]
  exact ⟨call, hcall, htop.name call hcall⟩

theorem parse_tree (registry : Registry) (tokens : List Token) :
    let t := (parse registry tokens).tree
    t.Grown registry ∧ t.Rooted ∧ t.isParagraphBreak t.root = false ∧
      ∀ call, t.call? t.root = some call →
        tokens.head?.map (·.kind) = some (.macroName call.name) := by
  unfold parse
  split
  · next name position rest =>
    obtain ⟨hsound, hcontent, hstack⟩ :=
      (Parser.State.sound_beginCall_initial registry name position).readAll rest
    have hroot := hsound.standing.root hstack
    rw [hcontent] at hroot
    obtain ⟨root, hroot, hlt, hparent, htop⟩ := hroot
    simp only [Tree.root, hroot, Option.getD_some]
    refine ⟨hsound.loose.toGrown, ⟨hsound.loose.toLinked, ?_, ?_⟩, htop.whole, fun call hcall => ?_⟩
    · simpa [Tree.root, hroot] using hlt
    · simpa [Tree.root, hroot] using hparent
    · rw [htop.name call hcall]
      rfl
  · have hpushed := (Tree.loose_empty registry).push
      (.error "document does not start with a macro") (by simp) .origin
    have hset := hpushed.setRoot (some 0)
    have hfree := hset.free 0 List.mem_cons_self
    refine ⟨hset.toGrown, ⟨hset.toLinked, hfree.1, hfree.2⟩, rfl, fun call hcall => ?_⟩
    change none = some call at hcall
    cases hcall

end Macromark
