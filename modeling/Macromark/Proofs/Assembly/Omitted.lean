import Macromark.Proofs.Assembly.Scopes

/-!
# What is left out is empty

A macro that the compiler writes holds its content and otherwise empty texts.
No later step takes a text for one of them or writes over it (`Spares`), so that
whenever such a macro is looked at, it says nothing in its other arguments
(`Visited.reticent`).
-/

namespace Macromark

theorem MacroCall.mem_arguments_setChildren {call : MacroCall} {name : String}
    {children : List NodeId} {argument : Argument}
    (h : argument ∈ (call.setChildren name children).arguments) :
    argument ∈ call.arguments ∨ argument.name = name ∧ argument.children = children := by
  change argument ∈ setChildren.go name children call.arguments at h
  generalize call.arguments = arguments at h ⊢
  induction arguments with
  | nil => simp [setChildren.go] at h
  | cons other rest ih =>
    unfold setChildren.go at h
    split at h
    · next hname =>
      rcases List.mem_cons.mp h with rfl | h
      · exact .inr ⟨hname, rfl⟩
      · exact .inl (List.mem_cons_of_mem _ h)
    · rcases List.mem_cons.mp h with rfl | h
      · exact .inl List.mem_cons_self
      · exact (ih h).imp_left (List.mem_cons_of_mem _)

namespace Tree

variable {t u v : Tree} {first id : NodeId} {registry : Registry}

def IsEmptyText (t : Tree) (id : NodeId) : Prop := t.face? id = some (.plaintext "")

/-- The macros from `first` on hold nothing but their content. -/
def Reticent (first : NodeId) (t : Tree) : Prop :=
  ∀ x, first ≤ x → ∀ call, t.call? x = some call → ∀ argument ∈ call.arguments,
    argument.name ≠ "content" → ∀ child ∈ argument.children, t.IsEmptyText child

/-- From `t` to `u` no empty text changes, and what holds nothing but its content still does. -/
structure Spares (first : NodeId) (t u : Tree) : Prop where
  texts : ∀ id, t.IsEmptyText id → u.IsEmptyText id
  reticent : t.Reticent first → u.Reticent first

theorem Spares.refl (first : NodeId) (t : Tree) : Spares first t t := ⟨fun _ h => h, fun h => h⟩

theorem Spares.trans (h : Spares first t u) (h' : Spares first u v) : Spares first t v :=
  ⟨fun id hid => h'.texts id (h.texts id hid), fun ht => h'.reticent (h.reticent ht)⟩

/-- Every argument was there before, or it is known to be empty now. -/
theorem Spares.of_texts (htexts : ∀ id, t.IsEmptyText id → u.IsEmptyText id)
    (hcalls : ∀ x, first ≤ x → ∀ call, u.call? x = some call → ∀ argument ∈ call.arguments,
      argument.name ≠ "content" →
        (∃ written, t.call? x = some written ∧ argument ∈ written.arguments) ∨
          ∀ child ∈ argument.children, u.IsEmptyText child) : Spares first t u := by
  refine ⟨htexts, fun h x hx call hcall argument hargument hname => ?_⟩
  rcases hcalls x hx call hcall argument hargument hname with ⟨written, hwritten, hmem⟩ | hempty
  · exact fun child hchild => htexts child (h x hx written hwritten argument hmem hname child hchild)
  · exact hempty

theorem Spares.of_calls (htexts : ∀ id, t.IsEmptyText id → u.IsEmptyText id)
    (hcalls : ∀ id, u.call? id = t.call? id) : Spares first t u :=
  .of_texts htexts fun x _ call hcall _ hargument _ => .inl ⟨call, hcalls x ▸ hcall, hargument⟩

namespace IsEmptyText

variable (h : t.IsEmptyText id)
include h

theorem lt : id < t.size := by
  by_contra hout
  simp [IsEmptyText, face?, kind?, get?_eq_none (Nat.le_of_not_lt hout)] at h

theorem kind? : t.kind? id = some (.plaintext "") := by
  obtain ⟨kind, hkind, hface⟩ := Option.map_eq_some_iff.mp h
  cases kind with
  | plaintext words => exact hface ▸ hkind
  | _ => cases hface

theorem get? : ∃ node, t.get? id = some node ∧ node.kind = .plaintext "" :=
  Option.map_eq_some_iff.mp h.kind?

theorem call? : t.call? id = none := by
  obtain ⟨node, hnode, hkind⟩ := h.get?
  simp [Tree.call?, hnode, Node.call?, hkind]

theorem isParagraphBreak : t.isParagraphBreak id = false := by
  obtain ⟨node, hnode, hkind⟩ := h.get?
  simp [Tree.isParagraphBreak, hnode, Node.isParagraphBreak, hkind]

theorem plaintext? : t.plaintext? id = some "" := by
  obtain ⟨node, hnode, hkind⟩ := h.get?
  simp [Tree.plaintext?, hnode, Node.plaintext?, hkind]

theorem plainText (ht : t.Acyclic) (registry : Registry) : t.plainText registry id = "" :=
  ht.plainText_eq h

theorem push (kind : NodeKind) (position : Position) : (t.push kind position).2.IsEmptyText id := by
  rw [IsEmptyText, face?_push, if_neg (Nat.ne_of_lt h.lt)]
  exact h

theorem pushCall (call : MacroCall) (position : Position) :
    (t.pushCall call position).2.IsEmptyText id := by
  rw [IsEmptyText, face?_pushCall, if_neg (Nat.ne_of_lt h.lt)]
  exact h

theorem setKind {node : NodeId} (hnode : id ≠ node) (kind : NodeKind) :
    (t.setKind node kind).IsEmptyText id := by
  rw [IsEmptyText, face?_setKind, if_neg (Ne.symm hnode)]
  exact h

theorem setChildren (owner : NodeId) (name : String) (children : List NodeId) :
    (t.setChildren owner name children).IsEmptyText id := by
  have hadopted : (t.adopt owner children).IsEmptyText id := (face?_adopt ..).trans h
  obtain ⟨node, hnode, hkind⟩ := hadopted.get?
  simp only [Tree.setChildren, IsEmptyText, face?, Tree.kind?, get?_modifyCall, hnode]
  split <;> simp [hkind, NodeKind.face]

end IsEmptyText

/-- Whatever the reader wants to know of a macro that holds nothing but its content. -/
theorem Reticent.argumentText (h : t.Reticent first) (ht : t.Acyclic) (hid : first ≤ id)
    {name : String} (hname : name ≠ "content") (registry : Registry) :
    t.argumentText registry id name = "" := by
  unfold Tree.argumentText
  split
  · next call hcall =>
    have hempty : ∀ child ∈ call.children name, t.plainText registry child = "" := by
      intro child hchild
      unfold MacroCall.children at hchild
      cases hfound : call.argument? name with
      | none => simp [hfound] at hchild
      | some argument =>
        have hargument := List.mem_of_find?_eq_some hfound
        have hsame : argument.name = name := by simpa using List.find?_some hfound
        rw [hfound] at hchild
        exact (h id hid call hcall argument hargument (hsame ▸ hname) child hchild).plainText ht _
    rw [List.map_congr_left hempty]
    induction call.children name with
    | nil => rfl
    | cons child rest ih => simpa [String.join] using ih
  · rfl

end Tree

namespace Assembly

open Macromark.Tree (IsEmptyText Reticent Spares)

variable {setting : Setting} {s start : State} {t u v : Tree} {first node : NodeId}
variable {nodes : List NodeId} {visit : Visit} {registry : Registry} {made : List Arrival}

-- ----------------------------------------------------------------------------
-- New macros
-- ----------------------------------------------------------------------------

theorem synthesizeArguments_spares (first : NodeId) (position : Position) (names : List String)
    (content : Option (List NodeId)) (t : Tree) :
    let result := synthesizeArguments position names content t
    Spares first t result.2 ∧ ∀ argument ∈ result.1, argument.name ≠ "content" →
      ∀ child ∈ argument.children, result.2.IsEmptyText child := by
  induction names generalizing content t with
  | nil => exact ⟨.refl first t, by simp [synthesizeArguments]⟩
  | cons name names ih =>
    unfold synthesizeArguments
    simp only
    split
    · next child children hgiven =>
      obtain ⟨hspares, hempty⟩ := ih (if name = "content" then none else content) t
      refine ⟨hspares, fun argument hargument hname => ?_⟩
      rcases List.mem_cons.mp hargument with rfl | hargument
      · simp [hname] at hgiven
      · exact hempty argument hargument hname
    · obtain ⟨hspares, hempty⟩ := ih (if name = "content" then none else content)
        (t.push (.plaintext "") position).2
      have hpushed : Spares first t (t.push (.plaintext "") position).2 := by
        refine .of_calls (fun id hid => hid.push _ _) fun id => ?_
        rw [Tree.call?_push]
        split
        · next heq => simp [Node.call?, heq, Tree.call?_eq_none]
        · rfl
      refine ⟨hpushed.trans hspares, fun argument hargument hname => ?_⟩
      rcases List.mem_cons.mp hargument with rfl | hargument
      · intro child hchild
        obtain rfl := List.mem_singleton.mp hchild
        refine hspares.texts _ ?_
        rw [IsEmptyText, Tree.face?_push, Tree.push_fst, if_pos rfl]
        rfl
      · exact hempty argument hargument hname

theorem pushCall_spares {call : MacroCall} (position : Position)
    (h : ∀ argument ∈ call.arguments, argument.name ≠ "content" →
      ∀ child ∈ argument.children, t.IsEmptyText child) :
    Spares first t (t.pushCall call position).2 := by
  refine .of_texts (fun id hid => hid.pushCall _ _) ?_
  intro x _ found hfound argument hargument hname
  rw [Tree.call?_pushCall] at hfound
  split at hfound
  · obtain rfl := Option.some.inj hfound
    exact .inr fun child hchild => (h argument hargument hname child hchild).pushCall _ _
  · exact .inl ⟨found, hfound, hargument⟩

theorem synthesize_spares {name : String} {position : Position}
    (hmade : synthesize registry name nodes position t = some (node, u)) : Spares first t u := by
  unfold synthesize at hmade
  split at hmade
  · simp at hmade
  · next d hd =>
    split at hmade
    · obtain ⟨hspares, hempty⟩ :=
        synthesizeArguments_spares first position d.argumentNames (some nodes) t
      generalize synthesizeArguments position d.argumentNames (some nodes) t = result at *
      obtain ⟨arguments, p⟩ := result
      obtain ⟨-, hu⟩ := Prod.mk.inj (Option.some.inj hmade)
      exact hu ▸ hspares.trans (pushCall_spares position hempty)
    · simp at hmade

theorem gatherRows_spares (first : NodeId) (registry : Registry) (owner : String)
    (nodes : List NodeId) (t : Tree) : Spares first t (gatherRows registry owner nodes t).2 := by
  fun_induction gatherRows registry owner nodes t with
  | case1 t => exact .refl first t
  | case2 node rest t hnone gathered u heq ih =>
    rw [heq] at ih
    exact ih
  | case3 node rest t container hsome isMember row hempty gathered u heq =>
    rename_i ih
    rw [heq] at ih
    exact ih
  | case4 node rest t container hsome isMember row hne wrapper u hmade gathered v heq =>
    rename_i ih
    rw [heq] at ih
    exact (synthesize_spares hmade).trans ih
  | case5 node rest t container hsome isMember row hne hmade gathered v heq =>
    rename_i ih
    rw [heq] at ih
    exact ih

/-- An empty text is taken out, and not cut. -/
theorem trimFront_spares (first : NodeId) {cut : List Char → List Char} (hcut : cut [] = [])
    (nodes : List NodeId) (t : Tree) : Spares first t (trimFront cut nodes t).2 := by
  fun_induction trimFront cut nodes t with
  | case1 => exact .refl first _
  | case2 => exact .refl first _
  | case3 node rest t text _ _ ih => exact ih
  | case4 node rest t text htext hkept =>
    refine .of_calls (fun id hid => hid.setKind ?_ _) (retexted_setKind htext).calls
    rintro rfl
    obtain rfl := Option.some.inj (hid.plaintext?.symm.trans htext)
    exact hkept hcut

theorem wrapChunk_spares (first : NodeId) (registry : Registry) (chunk : List NodeId) (t : Tree) :
    Spares first t (wrapChunk registry chunk t).2 := by
  have htrimmed : Spares first t (trimChunk chunk t).2 :=
    (trimFront_spares first rfl chunk t).trans (trimFront_spares first rfl _ _)
  unfold wrapChunk
  split
  · next u heq => rwa [heq] at htrimmed
  · next head rest u heq =>
    rw [heq] at htrimmed
    split
    · split
      · next paragraph v hmade => exact htrimmed.trans (synthesize_spares hmade)
      · exact htrimmed
    · exact htrimmed

theorem wrapChunks_spares (first : NodeId) (registry : Registry) (rows : List (List NodeId))
    (t : Tree) : Spares first t (wrapChunks registry rows t).2 := by
  induction rows generalizing t with
  | nil => exact .refl first t
  | cons chunk others ih => exact (wrapChunk_spares first registry chunk t).trans (ih _)

-- ----------------------------------------------------------------------------
-- Arrangements
-- ----------------------------------------------------------------------------

theorem arrangeArgument_spares (first : NodeId) (setting : Setting) (owner : String) (isRoot : Bool)
    (argument : Argument) (t : Tree) :
    Spares first t (arrangeArgument setting owner isRoot argument t).2 := by
  have hgathered : Spares first t (gather setting.registry owner argument.children t).2 :=
    gatherRows_spares ..
  unfold arrangeArgument
  simp only
  split
  · exact hgathered.trans (wrapChunks_spares ..)
  · exact hgathered

/-- Of empty texts some may go. -/
theorem arrangeArgument_of_empty (setting : Setting) (owner : String) {argument : Argument}
    (h : ∀ child ∈ argument.children, t.IsEmptyText child) :
    (arrangeArgument setting owner false argument t).1 ⊆ argument.children := by
  have hwhole : ¬(argument.children.any t.isParagraphBreak = true ∨
      (false = true ∧ argument.name = "content")) := by
    rintro (hbreak | ⟨hroot, -⟩)
    · obtain ⟨child, hchild, hbreak⟩ := List.any_eq_true.mp hbreak
      simp [(h child hchild).isParagraphBreak] at hbreak
    · cases hroot
  have hnone : ∀ child ∈ argument.children,
      containerFor setting.registry t owner child = none := fun child hchild => by
    simp [containerFor, (h child hchild).call?]
  unfold arrangeArgument
  simp only [if_neg hwhole, gather]
  split
  · rw [gatherRows_of_none fun child hchild => hnone child (List.mem_of_mem_filter hchild)]
    exact List.filter_subset_self _
  · rw [gatherRows_of_none hnone]
    exact List.Subset.refl _

theorem setChildren_spares {name : String} {children : List NodeId}
    (h : first ≤ node → name ≠ "content" → ∀ child ∈ children, t.IsEmptyText child) :
    Spares first t (t.setChildren node name children) := by
  refine .of_texts (fun id hid => hid.setChildren ..) ?_
  intro x hx call hcall argument hargument hname
  rw [Tree.setChildren, Tree.call?_modifyCall, Tree.call?_adopt] at hcall
  split at hcall
  · next heq =>
    obtain ⟨written, hwritten, rfl⟩ := Option.map_eq_some_iff.mp hcall
    rcases MacroCall.mem_arguments_setChildren hargument with hmem | ⟨hsame, hchildren⟩
    · exact .inl ⟨written, hwritten, hmem⟩
    · rw [hchildren]
      exact .inr fun child hchild => (h (heq ▸ hx) (hsame ▸ hname) child hchild).setChildren ..
  · exact .inl ⟨call, hcall, hargument⟩

theorem arrangeOne_spares {name : String} {isRoot : Bool} {argument : Argument}
    (hroot : first ≤ node → isRoot = false)
    (h : first ≤ node → argument.name ≠ "content" →
      ∀ child ∈ argument.children, s.tree.IsEmptyText child) :
    Spares first s.tree (arrangeOne setting node name isRoot s argument).tree := by
  have harranged := arrangeArgument_spares first setting name isRoot argument s.tree
  simp only [arrangeOne]
  split
  · exact harranged
  · refine harranged.trans (setChildren_spares fun hnode hname child hchild => ?_)
    have hempty := h hnode hname
    rw [hroot hnode] at hchild
    exact harranged.texts child
      (hempty child (arrangeArgument_of_empty setting name hempty hchild))

theorem arrange_spares {call : MacroCall} {isRoot : Bool} (hroot : first ≤ node → isRoot = false)
    (h : first ≤ node → ∀ argument ∈ call.arguments, argument.name ≠ "content" →
      ∀ child ∈ argument.children, s.tree.IsEmptyText child) :
    Spares first s.tree (arrange setting s node call isRoot).tree := by
  rw [arrange_eq]
  generalize call.arguments = arguments at h
  generalize call.name = name
  induction arguments generalizing s with
  | nil => exact .refl first _
  | cons argument rest ih =>
    have hone : Spares first s.tree (arrangeOne setting node name isRoot s argument).tree :=
      arrangeOne_spares hroot fun hnode => h hnode argument List.mem_cons_self
    refine hone.trans (ih fun hnode other hother hname child hchild => hone.texts child ?_)
    exact h hnode other (List.mem_cons_of_mem _ hother) hname child hchild

-- ----------------------------------------------------------------------------
-- Visits
-- ----------------------------------------------------------------------------

theorem Labeled.spares (h : Labeled t u) (first : NodeId) : Spares first t u := by
  refine .of_texts (fun id hid => (h.faces id).trans hid) ?_
  intro x _ call hcall argument hargument _
  obtain ⟨written, hwritten, -, harguments⟩ := h.call? hcall
  exact .inl ⟨written, hwritten, harguments ▸ hargument⟩

theorem visitNode_reticent (hroot : s.tree.root < first) (h : s.tree.Reticent first) :
    (visitNode setting visit s).2.tree.Reticent first := by
  unfold visitNode
  split
  · exact h
  · next call hcall =>
    have hlabeled : Labeled s.tree (if visit.node = s.tree.root then ((none : Option String), s)
        else visitCall setting s visit call).2.tree := by
      split
      · exact .refl _
      · exact visitCall_labeled ..
    simp only
    generalize (if visit.node = s.tree.root then ((none : Option String), s)
      else visitCall setting s visit call) = called at hlabeled ⊢
    obtain ⟨headerId, t⟩ := called
    simp only at hlabeled ⊢
    have ht := (hlabeled.spares first).reticent h
    obtain ⟨written, hwritten, -⟩ := hlabeled.kept.call? hcall
    rw [hwritten]
    have harranged : Spares first t.tree
        (arrange setting t visit.node written (visit.node = s.tree.root)).tree := by
      refine arrange_spares (fun hnode => ?_) fun hnode => ht visit.node hnode written hwritten
      simpa using Nat.ne_of_gt (Nat.lt_of_lt_of_le hroot hnode)
    simp only
    split <;> exact harranged.reticent ht

theorem Visited.reticent (h : Visited setting start made s) (hr : setting.registry.Coherent)
    (hroot : start.tree.root < start.tree.size) : s.tree.Reticent start.tree.size := by
  induction h with
  | start =>
    intro x hx call hcall
    simp [Tree.call?_eq_none hx] at hcall
  | visit hvisited _ _ _ _ ih =>
    exact visitNode_reticent (hvisited.root_eq hr ▸ hroot) ih

/-- What was not written says nothing when it has been put in either. -/
theorem Visited.argumentText_new
    (h : Visited setting (registerDocument setting (.initial t)) made s)
    (hr : setting.registry.Coherent) (hroot : t.root < t.size) (hs : s.tree.Acyclic) {x : NodeId}
    (hx : t.size ≤ x) {name : String} (hname : name ≠ "content") (registry : Registry) :
    s.tree.argumentText registry x name = t.argumentText registry x name := by
  have hlabeled := registerDocument_labeled setting t
  have hreticent := h.reticent hr (by rwa [hlabeled.kept.root_eq, hlabeled.size_eq])
  rw [hlabeled.size_eq] at hreticent
  rw [hreticent.argumentText hs hx hname, Tree.argumentText, Tree.call?_eq_none hx]

end Assembly
end Macromark
