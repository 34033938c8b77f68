import Macromark.Proofs.Assembly.Naming
import Macromark.Proofs.Assembly.Outcome

/-!
# What has not been visited

A visit changes its macro and the faces of what stands in it. So a macro that
waits for its visit still has the words that the author wrote
(`Untouched.argumentText`): it is named by them, whatever has become of the tree
around it.
-/

namespace Macromark

-- ----------------------------------------------------------------------------
-- Words
-- ----------------------------------------------------------------------------

def NodeKind.words (registry : Registry) (below : NodeId → String) : NodeKind → String
  | .plaintext text => text
  | .paragraphBreak => "\n\n"
  | .error _ => ""
  | .call written =>
    match registry.get? written.name with
    | some definition => Tree.plainTextOfCall definition.rendering written below
    | none => ""

theorem MacroCall.children_subset (call : MacroCall) (name : String) :
    call.children name ⊆ call.allChildren := by
  intro child hchild
  unfold children argument? at hchild
  cases hfound : call.arguments.find? (·.name == name) with
  | none => simp [hfound] at hchild
  | some argument =>
    rw [hfound] at hchild
    exact List.mem_flatMap.mpr ⟨argument, List.mem_of_find?_eq_some hfound, hchild⟩

namespace NodeKind

variable {registry : Registry} {f g : NodeId → String}

@[simp] theorem words_face (registry : Registry) (below : NodeId → String) (kind : NodeKind) :
    kind.face.words registry below = kind.words registry below := by
  cases kind <;> rfl

theorem words_congr {kind : NodeKind} (h : ∀ child ∈ kind.below, f child = g child) :
    kind.words registry f = kind.words registry g := by
  cases kind with
  | call call =>
    have htext : ∀ name, (call.children name).map f = (call.children name).map g := fun name =>
      List.map_congr_left fun child hchild => h child (call.children_subset name hchild)
    simp only [words, Tree.plainTextOfCall, htext]
  | _ => rfl

end NodeKind

namespace Tree

variable {registry : Registry} {t u : Tree} {id : NodeId} {kind : NodeKind}

theorem Acyclic.plainText_eq (h : t.Acyclic) (hface : t.face? id = some kind) :
    t.plainText registry id = kind.words registry (t.plainText registry) := by
  obtain ⟨_, hwritten, rfl⟩ := Option.map_eq_some_iff.mp hface
  obtain ⟨node, hnode, rfl⟩ := Option.map_eq_some_iff.mp hwritten
  have hwords : t.plainText registry =
      t.recurse (fun _ node below => node.kind.words registry below) "" := by
    unfold plainText
    congr 1
  rw [NodeKind.words_face, hwords]
  refine h.recurse_eq (fun id node f g hfg => ?_) hnode
  exact NodeKind.words_congr (below_node node ▸ hfg)

/-- Other nodes than those that are reached have no part in the words. -/
theorem Acyclic.plainText_congr (ht : t.Acyclic) (hu : u.Acyclic) (hid : id < t.size)
    (h : ∀ x, t.Reaches id x → u.face? x = t.face? x) :
    u.plainText registry id = t.plainText registry id := by
  refine ht.induction (motive := fun id => (∀ x, t.Reaches id x → u.face? x = t.face? x) →
    u.plainText registry id = t.plainText registry id) (fun id hid ih h => ?_) hid h
  obtain ⟨kind, hface⟩ := exists_face? hid
  rw [ht.plainText_eq hface, hu.plainText_eq ((h id .refl).trans hface)]
  refine NodeKind.words_congr fun child hchild => ?_
  have hbelow : child ∈ t.below id := below_of_face? hface ▸ hchild
  exact ih child hbelow fun x hx => h x (.head hbelow hx)

/-- The words of an argument are those of what stands in it. -/
theorem argumentText_congr {call written : MacroCall} (hcall : u.call? id = some call)
    (hwritten : t.call? id = some written) (harguments : call.arguments = written.arguments)
    (h : ∀ child ∈ t.below id, u.plainText registry child = t.plainText registry child)
    (argument : String) :
    u.argumentText registry id argument = t.argumentText registry id argument := by
  have hchildren : call.children argument = written.children argument := by
    unfold MacroCall.children MacroCall.argument?
    rw [harguments]
  simp only [argumentText, hcall, hwritten, hchildren]
  refine congrArg String.join (List.map_congr_left fun child hchild => h child ?_)
  rw [below_of_call? hwritten]
  exact written.children_subset argument hchild

theorem Kept.implied (hkept : t.Kept u) (hx : id < t.size)
    (h : ∀ call, t.call? id = some call → call.Implied) {call : MacroCall}
    (hcall : u.call? id = some call) : call.Implied := by
  obtain ⟨written, hwritten, -⟩ := hkept.call?_of_lt hx hcall
  obtain ⟨later, hlater, -, -, harguments⟩ := hkept.call? hwritten
  obtain rfl := Option.some.inj (hcall.symm.trans hlater)
  intro argument hargument hsupplied
  have hmem := List.mem_map_of_mem (f := fun a : Argument => { a with children := [] }) hargument
  rw [harguments] at hmem
  obtain ⟨other, hother, heq⟩ := List.mem_map.mp hmem
  injection heq with hname _ _ hgiven
  exact hname ▸ h written hwritten other hother (hgiven.trans hsupplied)

end Tree

namespace Assembly

variable {setting : Setting} {s start : State} {rank : NodeId → Nat} {t u : Tree} {node : NodeId}
variable {nodes : List NodeId} {visit : Visit} {made : List Arrival} {registry : Registry}

theorem Labeled.argumentText (h : Labeled t u) (ht : t.Acyclic) (hu : u.Acyclic) (id : NodeId)
    (argument : String) :
    u.argumentText registry id argument = t.argumentText registry id argument := by
  cases hcall : t.call? id with
  | none =>
    have hcalls := h.calls id
    rw [hcall, Option.map_none, Option.map_eq_none_iff] at hcalls
    rw [Tree.argumentText, Tree.argumentText, hcall, hcalls]
  | some call =>
    obtain ⟨later, hlater, -⟩ := h.kept.call? hcall
    obtain ⟨written, hwritten, -, harguments⟩ := h.call? hlater
    refine Tree.argumentText_congr hlater hwritten harguments.symm (fun child hchild => ?_) argument
    exact ht.plainText_congr hu (ht.inside hchild) fun x _ => h.faces x

-- ----------------------------------------------------------------------------
-- Visits
-- ----------------------------------------------------------------------------

/-- From `t`, where no macro had been visited, the visits of `nodes` lead to `u`. -/
structure Untouched (t : Tree) (nodes : List NodeId) (u : Tree) : Prop where
  size_le : t.size ≤ u.size
  calls : ∀ x < t.size, x ∉ nodes → u.call? x = t.call? x
  faces : ∀ x < t.size, x ∉ nodes → ∀ child ∈ t.below x, u.face? child = t.face? child
  implied : ∀ x, t.size ≤ x → ∀ call, u.call? x = some call → call.Implied

namespace Untouched

theorem refl (t : Tree) : Untouched t [] t := by
  refine ⟨Nat.le_refl _, fun _ _ _ => rfl, fun _ _ _ _ _ => rfl, fun x hx call hcall => ?_⟩
  simp [Tree.call?_eq_none hx] at hcall

variable (h : Untouched t nodes u) (hdownward : Downward u nodes)
include h

theorem below {x : NodeId} (hx : x < t.size) (hout : x ∉ nodes) : u.below x = t.below x := by
  rw [Tree.below, Tree.below, h.calls x hx hout]

include hdownward

/-- What stands in a macro that waits for its visit waits for its own. -/
theorem not_mem_of_reaches (ht : t.Acyclic) {x y : NodeId} (hx : x < t.size) (hout : x ∉ nodes)
    (hreaches : t.Reaches x y) : y ∉ nodes := by
  induction hreaches with
  | refl => exact hout
  | @tail owner y howner hchild ih =>
    rw [← h.below (ht.lt_of_reaches hx howner) ih] at hchild
    exact fun hmem => ih (hdownward owner y hchild hmem)

/-- A macro that waits for its visit has the words that it was written with. -/
theorem argumentText (ht : t.Acyclic) (hu : u.Acyclic) {x : NodeId} (hx : x < t.size)
    (hout : x ∉ nodes) (argument : String) :
    u.argumentText registry x argument = t.argumentText registry x argument := by
  cases hcall : t.call? x with
  | none => simp only [Tree.argumentText, h.calls x hx hout, hcall]
  | some call =>
    refine Tree.argumentText_congr ((h.calls x hx hout).trans hcall) hcall rfl
      (fun child hchild => ?_) argument
    refine ht.plainText_congr hu (ht.inside hchild) fun y hy => ?_
    -- the last step of the way to `y` is one from a macro that waits
    cases Relation.ReflTransGen.head hchild hy with
    | refl => exact absurd hy (ht.not_reaches hchild)
    | @tail owner _ howner hstep =>
      exact h.faces owner (ht.lt_of_reaches hx howner)
        (h.not_mem_of_reaches hdownward ht hx hout howner) y hstep

end Untouched

theorem visitNode_untouched (hr : setting.registry.Coherent)
    (hshape : Shape setting.registry rank (fun id _ => id ∈ nodes) s.tree)
    (hnode : visit.node < s.tree.size) (hnot : visit.node ∉ nodes)
    (hopen : ∀ owner, s.tree.parent? visit.node = some owner → owner ∈ nodes)
    (h : Untouched t nodes s.tree) :
    Untouched t (visit.node :: nodes) (visitNode setting visit s).2.tree := by
  obtain ⟨given, named, hnaming, -, -, hadorned⟩ := visitNode_naming visit hshape.declared hnode
  obtain ⟨-, later, -, hstepped⟩ := visitNode_shape hr hshape hnode fun _ => hnot
  have hfresh : ∀ id, s.tree.size ≤ id → (fun _ : NodeId => ()) id = () := fun _ _ => rfl
  obtain ⟨-, hfaces⟩ := visitNode_passage hr hshape hnode (fun _ => hnot) hfresh
  refine ⟨Nat.le_trans h.size_le hstepped.kept.size_le, fun x hx hout => ?_,
    fun x hx hout child hchild => ?_, fun x hx call hcall => ?_⟩
  · obtain ⟨hne, hout⟩ := not_or.mp (List.mem_cons.not.mp hout)
    have hlt := Nat.lt_of_lt_of_le hx h.size_le
    rw [hadorned.calls x (hnaming.labeled.size_eq ▸ hlt) hne, hnaming.others hne, h.calls x hx hout]
  · obtain ⟨hne, hout⟩ := not_or.mp (List.mem_cons.not.mp hout)
    have hbelow : child ∈ s.tree.below x := by rwa [h.below hx hout]
    have hparent := hshape.parent hbelow
    rw [hfaces child (hshape.lt_of_below hbelow) ?_ ?_, h.faces x hx hout child hchild]
    · rintro rfl
      exact hout (hopen x hparent)
    · exact fun hmem => hne (Option.some.inj (hparent.symm.trans (hshape.parent hmem)))
  · by_cases hold : x < s.tree.size
    · exact hstepped.kept.implied hold (h.implied x hx) hcall
    · exact hadorned.implied x (hnaming.labeled.size_eq ▸ Nat.le_of_not_lt hold) call hcall

theorem Visited.untouched (h : Visited setting start made s) (hr : setting.registry.Coherent) :
    Untouched start.tree (made.map (·.node)) s.tree ∧ Downward s.tree (made.map (·.node)) := by
  induction h with
  | start => exact ⟨.refl _, fun _ _ _ hmem => absurd hmem (by simp)⟩
  | @visit earlier s rank visit _ hshape hnot hnode hopen ih =>
    obtain ⟨huntouched, hdownward⟩ := ih
    obtain ⟨-, later, hlater, hstepped⟩ := visitNode_shape hr hshape hnode fun _ => hnot
    exact ⟨visitNode_untouched hr hshape hnode hnot hopen huntouched,
      (hstepped.walk hshape hlater hdownward hnode hnot hopen).downward⟩

-- ----------------------------------------------------------------------------
-- The document as a whole
-- ----------------------------------------------------------------------------

variable {x : NodeId}

/-- On its visit a macro stands there as it was written. -/
theorem Visited.written (h : Visited setting (registerDocument setting (.initial t)) made s)
    (hr : setting.registry.Coherent) (ht : t.Acyclic) (hu : s.tree.Acyclic) (hx : x < t.size)
    (hout : x ∉ made.map (·.node)) (registry : Registry) :
    (s.tree.call? x).map (fun call => (call.name, call.arguments)) =
        (t.call? x).map (fun call => (call.name, call.arguments)) ∧
      ∀ argument, s.tree.argumentText registry x argument = t.argumentText registry x argument := by
  have hlabeled := registerDocument_labeled setting t
  obtain ⟨huntouched, hdownward⟩ := h.untouched hr
  have hstart : (registerDocument setting (.initial t)).tree.Acyclic :=
    ht.of_below (Nat.le_of_eq hlabeled.size_eq.symm) hlabeled.below
  have hlt := hlabeled.size_eq.symm ▸ hx
  refine ⟨by rw [huntouched.calls x hlt hout, hlabeled.calls], fun argument => ?_⟩
  rw [huntouched.argumentText hdownward hstart hu hlt hout, hlabeled.argumentText ht hstart]

theorem Visited.implied (h : Visited setting (registerDocument setting (.initial t)) made s)
    (hr : setting.registry.Coherent) (hx : t.size ≤ x) {call : MacroCall}
    (hcall : s.tree.call? x = some call) : call.Implied :=
  (h.untouched hr).1.implied x ((registerDocument_labeled setting t).size_eq.symm ▸ hx) call hcall

/-- What the compiler writes asks for no identifier. -/
theorem requestedId_implied {call : MacroCall} (hcall : s.tree.call? x = some call)
    (himplied : call.Implied) : requestedId setting s x = none := by
  have hid := himplied.supplies (show "id" ≠ "content" by decide)
  have htitle := himplied.supplies (show "title" ≠ "content" by decide)
  have hlocal : ∀ definition, localId setting s x call definition = none := by
    intro definition
    simp [localId, hid, htitle]
  unfold requestedId
  split
  · rfl
  · simp [hcall, hlocal]

theorem Visited.lt_of_requestedId
    (h : Visited setting (registerDocument setting (.initial t)) made s)
    (hr : setting.registry.Coherent) {id : String} (hasked : requestedId setting s x = some id) :
    x < t.size := by
  by_contra hlt
  cases hcall : s.tree.call? x with
  | none =>
    unfold requestedId at hasked
    simp [hcall] at hasked
  | some call =>
    rw [requestedId_implied hcall (h.implied hr (Nat.le_of_not_lt hlt) hcall)] at hasked
    cases hasked

section
variable (h : Visited setting (registerDocument setting (.initial t)) made s)
variable (hr : setting.registry.Coherent) (ht : t.Acyclic) (hu : s.tree.Acyclic) (hx : x < t.size)
variable (hout : x ∉ made.map (·.node))
include h hr ht hu hx hout

theorem Visited.name? : s.tree.name? x = t.name? x := by
  have hname : ∀ t : Tree, t.name? x =
      ((t.call? x).map (fun call => (call.name, call.arguments))).map (·.1) := by
    intro t
    unfold Tree.name?
    cases t.call? x <;> rfl
  rw [hname, hname, (h.written hr ht hu hx hout setting.registry).1]

theorem Visited.isSynonym :
    s.tree.isSynonym registry x = t.isSynonym registry x := by
  rw [Tree.isSynonym, Tree.isSynonym, h.name? hr ht hu hx hout, (h.written hr ht hu hx hout registry).2]

theorem Visited.isHeading :
    s.tree.isHeading registry x = t.isHeading registry x := by
  rw [Tree.isHeading, Tree.isHeading, h.name? hr ht hu hx hout, (h.written hr ht hu hx hout registry).2]

end

end Assembly
end Macromark
