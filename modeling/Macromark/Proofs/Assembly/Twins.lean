import Macromark.Proofs.Assembly.Gists
import Mathlib.Data.List.Zip

/-!
# Two trees of one passage

Where the passages of two trees are the same at their roots, every node of one
of them has a twin in the other one, which is found in the same place
(`Tree.Twin`). Twins are nodes of one kind whose children are twins
(`Tree.Likeness.kinds`), so that they have the same words.
-/

namespace Macromark

variable {α : Type}

-- ----------------------------------------------------------------------------
-- Nodes of one kind
-- ----------------------------------------------------------------------------

/-- Arguments that differ in where they stand. -/
structure Argument.Like (R : NodeId → NodeId → Prop) (a b : Argument) : Prop where
  name : a.name = b.name
  supplied : a.supplied = b.supplied
  children : List.Forall₂ R a.children b.children

/-- Macros that differ in what the assembly enters at them, and in who wrote them. -/
structure MacroCall.Like (R : NodeId → NodeId → Prop) (call call' : MacroCall) : Prop where
  name : call.name = call'.name
  arguments : List.Forall₂ (Argument.Like R) call.arguments call'.arguments

inductive NodeKind.Like (R : NodeId → NodeId → Prop) : NodeKind → NodeKind → Prop
  | plaintext (text : String) : Like R (.plaintext text) (.plaintext text)
  | paragraphBreak : Like R .paragraphBreak .paragraphBreak
  | error (message : String) : Like R (.error message) (.error message)
  | call {call call' : MacroCall} : call.Like R call' → Like R (.call call) (.call call')

theorem map_eq_of_forall₂ {β γ δ : Type} {R : β → γ → Prop} {xs : List β} {ys : List γ}
    (h : List.Forall₂ R xs ys) {f : β → δ} {g : γ → δ} (hfg : ∀ x ∈ xs, ∀ y, R x y → f x = g y) :
    xs.map f = ys.map g := by
  induction h with
  | nil => rfl
  | @cons x y xs ys hxy _ ih =>
    rw [List.map_cons, List.map_cons, hfg x List.mem_cons_self y hxy,
      ih fun x hx => hfg x (List.mem_cons_of_mem _ hx)]

theorem eq_of_mem_zip {β γ : Type} {xs : List β} {ys : List γ} (h : xs.Nodup) {x : β} {y y' : γ}
    (hy : (x, y) ∈ xs.zip ys) (hy' : (x, y') ∈ xs.zip ys) : y = y' := by
  induction xs generalizing ys with
  | nil => cases hy
  | cons first xs ih =>
    obtain ⟨hfirst, hrest⟩ := List.nodup_cons.mp h
    cases ys with
    | nil => cases hy
    | cons second ys =>
      simp only [List.zip_cons_cons, List.mem_cons, Prod.mk.injEq] at hy hy'
      rcases hy with ⟨rfl, rfl⟩ | hy
      · rcases hy' with ⟨-, rfl⟩ | hy'
        · rfl
        · exact absurd (List.of_mem_zip hy').1 hfirst
      · rcases hy' with ⟨rfl, rfl⟩ | hy'
        · exact absurd (List.of_mem_zip hy).1 hfirst
        · exact ih hrest hy hy'

namespace MacroCall.Like

variable {R : NodeId → NodeId → Prop} {call call' : MacroCall}

theorem argument? (h : call.Like R call') (name : String) :
    Option.Rel (Argument.Like R) (call.argument? name) (call'.argument? name) := by
  have harguments := h.arguments
  unfold MacroCall.argument?
  generalize call.arguments = as at harguments
  generalize call'.arguments = bs at harguments
  induction harguments with
  | nil => exact .none
  | @cons a b as bs hab _ ih =>
    rw [List.find?_cons, List.find?_cons, hab.name]
    cases b.name == name with
    | true => exact .some hab
    | false => exact ih

theorem children (h : call.Like R call') (name : String) :
    List.Forall₂ R (call.children name) (call'.children name) := by
  have hargument := h.argument? name
  unfold MacroCall.children
  generalize call.argument? name = a at hargument
  generalize call'.argument? name = b at hargument
  cases hargument with
  | none => exact .nil
  | some hargument => exact hargument.children

theorem supplies (h : call.Like R call') (name : String) :
    call.supplies name = call'.supplies name := by
  have hargument := h.argument? name
  unfold MacroCall.supplies
  generalize call.argument? name = a at hargument
  generalize call'.argument? name = b at hargument
  cases hargument with
  | none => rfl
  | some hargument => exact hargument.supplied

theorem map_children {β : Type} (h : call.Like R call') (name : String) {f g : NodeId → β}
    (hfg : ∀ x ∈ call.children name, ∀ y, R x y → f x = g y) :
    (call.children name).map f = (call'.children name).map g :=
  map_eq_of_forall₂ (h.children name) hfg

end MacroCall.Like

theorem NodeKind.Like.refl (kind : NodeKind) : kind.Like Eq kind := by
  cases kind with
  | plaintext text => exact .plaintext text
  | paragraphBreak => exact .paragraphBreak
  | error message => exact .error message
  | call call =>
    exact .call ⟨rfl, List.forall₂_same.mpr fun argument _ =>
      ⟨rfl, rfl, List.forall₂_same.mpr fun _ _ => rfl⟩⟩

theorem NodeKind.Like.imp {R S : NodeId → NodeId → Prop} {kind kind' : NodeKind}
    (h : kind.Like R kind') (hRS : ∀ x y, R x y → S x y) : kind.Like S kind' := by
  cases h with
  | plaintext text => exact .plaintext text
  | paragraphBreak => exact .paragraphBreak
  | error message => exact .error message
  | call hcalls =>
    exact .call ⟨hcalls.name, hcalls.arguments.imp fun a b hab =>
      ⟨hab.name, hab.supplied, hab.children.imp hRS⟩⟩

theorem NodeKind.Like.words_eq {registry : Registry} {R : NodeId → NodeId → Prop}
    {kind kind' : NodeKind} {f g : NodeId → String} (h : kind.Like R kind')
    (hfg : ∀ child ∈ kind.below, ∀ child', R child child' → f child = g child') :
    kind.words registry f = kind'.words registry g := by
  cases h with
  | @call call call' hcalls =>
    have htext : ∀ name, (call.children name).map f = (call'.children name).map g := fun name =>
      hcalls.map_children name fun child hchild => hfg child (call.children_subset name hchild)
    simp only [words, hcalls.name, Tree.plainTextOfCall, htext]
  | _ => rfl

namespace Tree

theorem Acyclic.plainText_of_get? {t : Tree} {registry : Registry} {x : NodeId} (h : t.Acyclic)
    {node : Node} (hnode : t.get? x = some node) :
    t.plainText registry x = node.kind.words registry (t.plainText registry) := by
  have hface : t.face? x = some node.kind.face := by simp [face?, kind?, hnode]
  rw [h.plainText_eq hface, NodeKind.words_face]

/-- A relation between the nodes of two trees that leads from the roots to nodes of one kind. No
node is related to two of the other tree. -/
structure Likeness (t u : Tree) (R : NodeId → NodeId → Prop) : Prop where
  root : R t.root u.root
  kinds : ∀ {x y}, R x y → ∃ node node', t.get? x = some node ∧ u.get? y = some node' ∧
    node.kind.Like R node'.kind
  right : ∀ {x y y'}, R x y → R x y' → y = y'
  left : ∀ {x x' y}, R x y → R x' y → x = x'

namespace Likeness

variable {t u : Tree} {R : NodeId → NodeId → Prop} {x y : NodeId} {registry : Registry}

theorem call? (h : t.Likeness u R) (hxy : R x y) :
    Option.Rel (MacroCall.Like R) (t.call? x) (u.call? y) := by
  obtain ⟨node, node', hnode, hnode', hkind⟩ := h.kinds hxy
  simp only [Tree.call?, hnode, hnode', Option.bind_some, Node.call?]
  generalize node.kind = kind at hkind ⊢
  generalize node'.kind = kind' at hkind ⊢
  cases hkind with
  | call hcall => exact .some hcall
  | _ => exact .none

theorem call?_of_some (h : t.Likeness u R) (hxy : R x y) {call : MacroCall}
    (hcall : t.call? x = some call) : ∃ call', u.call? y = some call' ∧ call.Like R call' := by
  have hlike := h.call? hxy
  rw [hcall] at hlike
  cases hother : u.call? y with
  | none =>
    rw [hother] at hlike
    cases hlike
  | some call' =>
    rw [hother] at hlike
    cases hlike with
    | some hcalls => exact ⟨call', rfl, hcalls⟩

theorem plaintext? (h : t.Likeness u R) (hxy : R x y) : t.plaintext? x = u.plaintext? y := by
  obtain ⟨node, node', hnode, hnode', hkind⟩ := h.kinds hxy
  simp only [Tree.plaintext?, hnode, hnode', Option.bind_some, Node.plaintext?]
  generalize node.kind = kind at hkind ⊢
  generalize node'.kind = kind' at hkind ⊢
  cases hkind <;> rfl

theorem inside (h : t.Likeness u R) (hxy : R x y) : x < t.size ∧ y < u.size := by
  obtain ⟨node, node', hnode, hnode', -⟩ := h.kinds hxy
  exact ⟨lt_size_iff.mpr ⟨node, hnode⟩, lt_size_iff.mpr ⟨node', hnode'⟩⟩

/-- What holds of twins if it holds of the twins below them. -/
theorem induction (h : t.Likeness u R) (ht : t.Acyclic) {motive : NodeId → NodeId → Prop}
    (hstep : ∀ x y, R x y → (∀ child ∈ t.below x, ∀ child', R child child' → motive child child') →
      motive x y) (hxy : R x y) : motive x y := by
  have hall := ht.induction (motive := fun x => ∀ y, R x y → motive x y)
    (fun x _ ih y hxy => hstep x y hxy ih) (h.inside hxy).1
  exact hall y hxy

theorem plainText_eq (h : t.Likeness u R) (ht : t.Acyclic) (hu : u.Acyclic) (hxy : R x y) :
    t.plainText registry x = u.plainText registry y := by
  refine h.induction ht (motive := fun x y => t.plainText registry x = u.plainText registry y)
    (fun x y hxy ih => ?_) hxy
  obtain ⟨node, node', hnode, hnode', hkind⟩ := h.kinds hxy
  rw [ht.plainText_of_get? hnode, hu.plainText_of_get? hnode']
  rw [below_of_get? hnode, below_node] at ih
  exact hkind.words_eq ih

theorem argumentText_eq (h : t.Likeness u R) (ht : t.Acyclic) (hu : u.Acyclic) (hxy : R x y)
    (argument : String) : t.argumentText registry x argument = u.argumentText registry y argument := by
  cases hcall : t.call? x with
  | none =>
    have hnone := h.call? hxy
    rw [hcall] at hnone
    cases hother : u.call? y with
    | none => simp [argumentText, hcall, hother]
    | some call' =>
      rw [hother] at hnone
      cases hnone
  | some call =>
    obtain ⟨call', hcall', hcalls⟩ := h.call?_of_some hxy hcall
    simp only [argumentText, hcall, hcall']
    exact congrArg String.join
      (hcalls.map_children argument fun x _ y hxy => h.plainText_eq ht hu hxy)

end Likeness

-- ----------------------------------------------------------------------------
-- Twins
-- ----------------------------------------------------------------------------

/-- Nodes that are found in the same place below the roots. -/
inductive Twin (t u : Tree) : NodeId → NodeId → Prop
  | root : Twin t u t.root u.root
  | child {a b x y : NodeId} : Twin t u a b → (x, y) ∈ (t.below a).zip (u.below b) → Twin t u x y

namespace Twin

variable {t u : Tree} {a b x y : NodeId} {label : NodeId → α} {label' : NodeId → α}

theorem reaches (h : Twin t u x y) : t.Reaches t.root x ∧ u.Reaches u.root y := by
  induction h with
  | root => exact ⟨.refl, .refl⟩
  | child _ hmem ih =>
    obtain ⟨hx, hy⟩ := List.of_mem_zip hmem
    exact ⟨ih.1.tail hx, ih.2.tail hy⟩

theorem swap (h : Twin t u x y) : Twin u t y x := by
  induction h with
  | root => exact .root
  | child _ hmem ih =>
    refine .child ih ?_
    rw [← List.zip_swap]
    exact List.mem_map.mpr ⟨_, hmem, rfl⟩

theorem right (ht : t.Rooted) {y' : NodeId} (h : Twin t u x y)
    (h' : Twin t u x y') : y = y' := by
  induction h generalizing y' with
  | root =>
    cases h' with
    | root => rfl
    | child _ hmem =>
      have hparent := ht.parent (List.of_mem_zip hmem).1
      rw [ht.top] at hparent
      cases hparent
  | @child a b x y _ hmem ih =>
    have hparent := ht.parent (List.of_mem_zip hmem).1
    cases h' with
    | root =>
      rw [ht.top] at hparent
      cases hparent
    | @child a' b' _ _ hab' hmem' =>
      obtain rfl := Option.some.inj (hparent.symm.trans (ht.parent (List.of_mem_zip hmem').1))
      obtain rfl := ih hab'
      exact eq_of_mem_zip (ht.distinct a) hmem hmem'

end Twin

/-- The passages at two nodes are the same, with their marks. -/
def Same (label label' : NodeId → α) (t u : Tree) (x y : NodeId) : Prop :=
  x < t.size ∧ y < u.size ∧ (t.passage label x).plain = (u.passage label' y).plain

variable {t u : Tree} {x y : NodeId} {label label' : NodeId → α}

theorem mem_zip_children {arguments arguments' : List Argument}
    (h : List.Forall₂ (fun a b : Argument => a.children.length = b.children.length) arguments arguments') :
    List.Forall₂ (fun a b : Argument => ∀ pair ∈ a.children.zip b.children,
      pair ∈ (arguments.flatMap (·.children)).zip (arguments'.flatMap (·.children)))
      arguments arguments' := by
  induction h with
  | nil => exact .nil
  | @cons a b as bs hlength _ ih =>
    simp only [List.flatMap_cons, List.zip_append hlength, List.mem_append]
    exact .cons (fun _ => .inl) (ih.imp fun _ _ hab pair hpair => .inr (hab pair hpair))

/-- Where the passages of two macros are the same, their arguments are, and what stands in them. -/
theorem call_like_of_slots {call call' : MacroCall} {f g : NodeId → Passage α}
    (hname : call.name = call'.name)
    (hslots : (call.arguments.map (·.slot f)).map (·.map Passage.plain) =
      (call'.arguments.map (·.slot g)).map (·.map Passage.plain)) :
    call.Like (fun x y => (x, y) ∈ call.allChildren.zip call'.allChildren) call' ∧
      call.allChildren.map (fun x => (f x).plain) = call'.allChildren.map (fun x => (g x).plain) := by
  have hsame : List.Forall₂ (fun a b : Argument => a.name = b.name ∧ a.supplied = b.supplied ∧
      a.children.map (fun x => (f x).plain) = b.children.map (fun x => (g x).plain))
      call.arguments call'.arguments := by
    rw [List.map_map, List.map_map, ← List.forall₂_eq_eq_eq, List.forall₂_map_left_iff,
      List.forall₂_map_right_iff] at hslots
    refine hslots.imp fun a b hab => ?_
    simpa [Argument.slot, Slot.map, Function.comp_def] using hab
  have hlength := hsame.imp fun a b hab => by simpa using congrArg List.length hab.2.2
  refine ⟨⟨hname, List.forall₂_iff_zip.mpr ⟨hsame.length_eq, fun {a b} hab => ?_⟩⟩, ?_⟩
  · obtain ⟨hargument, hsupplied, -⟩ := List.forall₂_zip hsame hab
    have hchildren := List.forall₂_zip (mem_zip_children hlength) hab
    exact ⟨hargument, hsupplied, List.forall₂_iff_zip.mpr
      ⟨List.forall₂_zip hlength hab, fun hpair => hchildren _ hpair⟩⟩
  · simp only [MacroCall.allChildren, List.map_flatMap]
    generalize call.arguments = as at hsame
    generalize call'.arguments = bs at hsame
    induction hsame with
    | nil => rfl
    | cons hab _ ih => rw [List.flatMap_cons, List.flatMap_cons, hab.2.2, ih]

/-- Nodes of one passage are of one kind, and so are those below them. -/
theorem Same.kinds (ht : t.Acyclic) (hu : u.Acyclic) (h : Same label label' t u x y) :
    ∃ node node', t.get? x = some node ∧ u.get? y = some node' ∧ label x = label' y ∧
      node.kind.Like (fun a b => (a, b) ∈ (t.below x).zip (u.below y)) node'.kind ∧
      ∀ a b, (a, b) ∈ (t.below x).zip (u.below y) → Same label label' t u a b := by
  obtain ⟨hx, hy, hplain⟩ := h
  obtain ⟨node, hnode⟩ := lt_size_iff.mp hx
  obtain ⟨node', hnode'⟩ := lt_size_iff.mp hy
  have hbelow := below_of_get? hnode
  have hbelow' := below_of_get? hnode'
  rw [below_node] at hbelow hbelow'
  rw [ht.passage_of_get? hnode, hu.passage_of_get? hnode'] at hplain
  refine ⟨node, node', hnode, hnode', ?_⟩
  have hinside : ∀ a b, (a, b) ∈ (t.below x).zip (u.below y) → a < t.size ∧ b < u.size := by
    intro a b hab
    obtain ⟨ha, hb⟩ := List.of_mem_zip hab
    exact ⟨ht.inside ha, hu.inside hb⟩
  generalize node.kind = kind at hplain hbelow
  generalize node'.kind = kind' at hplain hbelow'
  cases kind with
  | call call =>
    cases kind' with
    | call call' =>
      simp only [NodeKind.passage, Passage.plain_call, Passage.call.injEq, true_and] at hplain
      obtain ⟨hmark, hname, hslots⟩ := hplain
      obtain ⟨hlike, hchildren⟩ := call_like_of_slots hname hslots
      rw [NodeKind.below] at hbelow hbelow'
      rw [hbelow, hbelow'] at hinside ⊢
      refine ⟨hmark, .call hlike, fun a b hab => ⟨(hinside a b hab).1, (hinside a b hab).2, ?_⟩⟩
      rw [← List.forall₂_eq_eq_eq, List.forall₂_map_left_iff, List.forall₂_map_right_iff] at hchildren
      exact List.forall₂_zip hchildren hab
    | _ => simp [NodeKind.passage, Passage.plain_call, Passage.plain] at hplain
  | plaintext text =>
    cases kind' with
    | plaintext text' =>
      simp only [NodeKind.passage, Passage.plain, Passage.text.injEq] at hplain
      obtain ⟨hmark, rfl⟩ := hplain
      exact ⟨hmark, .plaintext text, by simp [hbelow, NodeKind.below]⟩
    | _ => simp [NodeKind.passage, Passage.plain] at hplain
  | paragraphBreak =>
    cases kind' with
    | paragraphBreak =>
      simp only [NodeKind.passage, Passage.plain, Passage.paragraphBreak.injEq] at hplain
      exact ⟨hplain, .paragraphBreak, by simp [hbelow, NodeKind.below]⟩
    | _ => simp [NodeKind.passage, Passage.plain] at hplain
  | error message =>
    cases kind' with
    | error message' =>
      simp only [NodeKind.passage, Passage.plain, Passage.error.injEq] at hplain
      obtain ⟨hmark, rfl⟩ := hplain
      exact ⟨hmark, .error message, by simp [hbelow, NodeKind.below]⟩
    | _ => simp [NodeKind.passage, Passage.plain] at hplain

theorem Twin.same (ht : t.Acyclic) (hu : u.Acyclic) (hroot : Same label label' t u t.root u.root)
    (h : Twin t u x y) : Same label label' t u x y := by
  induction h with
  | root => exact hroot
  | child _ hmem ih =>
    obtain ⟨_, _, -, -, -, -, hbelow⟩ := ih.kinds ht hu
    exact hbelow _ _ hmem

/-- Twins are of one kind where the passages at the roots are the same. -/
theorem likeness_twin (ht : t.Acyclic) (ht' : t.Rooted) (hu : u.Acyclic) (hu' : u.Rooted)
    (hroot : Same label label' t u t.root u.root) : t.Likeness u (Twin t u) := by
  refine ⟨.root, fun hxy => ?_, fun hxy hxy' => hxy.right ht' hxy', fun hxy hxy' =>
    hxy.swap.right hu' hxy'.swap⟩
  obtain ⟨node, node', hnode, hnode', -, hkind, -⟩ := (hxy.same ht hu hroot).kinds ht hu
  exact ⟨node, node', hnode, hnode', hkind.imp fun a b hab => .child hxy hab⟩

end Tree
end Macromark
