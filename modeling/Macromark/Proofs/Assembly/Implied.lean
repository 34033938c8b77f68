import Macromark.Proofs.Assembly.Visits

/-!
# The macros that the author left out

What an arrangement adds is bare: a new macro has no identifier, no number and
no supplied argument but its content, and no other macro changes
(`arrangeArgument_bare`). So an arrangement gives nothing a name, and takes none
away (`label_arrange`).
-/

namespace Macromark

/-- No argument but the content is given. -/
def MacroCall.Implied (call : MacroCall) : Prop :=
  ∀ argument ∈ call.arguments, argument.supplied = true → argument.name = "content"

theorem MacroCall.Implied.supplies {call : MacroCall} (h : call.Implied) {name : String}
    (hname : name ≠ "content") : call.supplies name = false := by
  unfold MacroCall.supplies MacroCall.argument?
  cases hfound : call.arguments.find? (·.name == name) with
  | none => rfl
  | some argument =>
    have hmem := List.mem_of_find?_eq_some hfound
    have hargument : argument.name = name := by simpa using List.find?_some hfound
    cases hsupplied : argument.supplied with
    | false => simp [hsupplied]
    | true => exact absurd (hargument ▸ h argument hmem hsupplied) hname

namespace Tree

def label (t : Tree) (id : NodeId) : Option String × Option Nat :=
  ((t.call? id).map fun call => (call.id, call.count)).getD (none, none)

def id? (t : Tree) (id : NodeId) : Option String := (t.label id).1

def count? (t : Tree) (id : NodeId) : Option Nat := (t.label id).2

variable {t : Tree} {id : NodeId} {call : MacroCall}

theorem label_of_call? (h : t.call? id = some call) : t.label id = (call.id, call.count) := by
  simp [label, h]

theorem label_of_none (h : t.call? id = none) : t.label id = (none, none) := by simp [label, h]

theorem id?_eq (t : Tree) (id : NodeId) : t.id? id = (t.call? id).bind (·.id) := by
  unfold id? label
  cases t.call? id <;> rfl

theorem exists_call?_of_id? {name : String} (h : t.id? id = some name) :
    ∃ call, t.call? id = some call ∧ call.id = some name := by
  rw [id?_eq] at h
  exact Option.bind_eq_some_iff.mp h

theorem label_modifyCall (t : Tree) (node : NodeId) {f : MacroCall → MacroCall}
    {entered : Option String × Option Nat} (hf : ∀ call, ((f call).id, (f call).count) = entered)
    (hcall : t.call? node = some call) (id : NodeId) :
    (t.modifyCall node f).label id = if id = node then entered else t.label id := by
  unfold label
  rw [call?_modifyCall]
  by_cases heq : node = id
  · subst heq
    simp [hcall, hf]
  · simp [heq, Ne.symm heq]

theorem label_setChildren (t : Tree) (owner : NodeId) (argument : String) (children : List NodeId)
    (id : NodeId) : (t.setChildren owner argument children).label id = t.label id := by
  unfold label setChildren
  rw [call?_modifyCall, call?_adopt]
  split
  · cases t.call? id <;> rfl
  · rfl

end Tree

namespace Assembly

variable {t u v : Tree} {nodes : List NodeId} {setting : Setting} {s : State}

/-- From `t` to `u` macros are new that say nothing of themselves, and no other macro changes. -/
structure Bare (t u : Tree) : Prop where
  size_le : t.size ≤ u.size
  calls : ∀ id < t.size, u.call? id = t.call? id
  unnamed : ∀ id, t.size ≤ id → u.label id = (none, none)
  implied : ∀ id, t.size ≤ id → ∀ call, u.call? id = some call → call.Implied

theorem Bare.of_calls (hsize : t.size ≤ u.size) (hcalls : ∀ id, u.call? id = t.call? id) :
    Bare t u := by
  have hnone : ∀ id, t.size ≤ id → u.call? id = none := fun id hid => by
    rw [hcalls, Tree.call?_eq_none hid]
  refine ⟨hsize, fun id _ => hcalls id, fun id hid => Tree.label_of_none (hnone id hid), ?_⟩
  intro id hid call hcall
  simp [hnone id hid] at hcall

theorem Bare.refl (t : Tree) : Bare t t := .of_calls (Nat.le_refl _) fun _ => rfl

theorem Bare.label (h : Bare t u) (id : NodeId) : u.label id = t.label id := by
  by_cases hid : id < t.size
  · rw [Tree.label, Tree.label, h.calls id hid]
  · have hnew := Nat.le_of_not_lt hid
    rw [h.unnamed id hnew, Tree.label_of_none (Tree.call?_eq_none hnew)]

theorem Bare.trans (h : Bare t u) (h' : Bare u v) : Bare t v := by
  refine ⟨Nat.le_trans h.size_le h'.size_le, fun id hid => ?_, fun id hid => ?_, fun id hid call hcall => ?_⟩
  · rw [h'.calls id (Nat.lt_of_lt_of_le hid h.size_le), h.calls id hid]
  · rw [h'.label, h.unnamed id hid]
  · by_cases hold : id < u.size
    · exact h.implied id hid call (h'.calls id hold ▸ hcall)
    · exact h'.implied id (Nat.le_of_not_lt hold) call hcall

-- ----------------------------------------------------------------------------
-- New macros
-- ----------------------------------------------------------------------------

theorem synthesizeArguments_bare (position : Position) (names : List String)
    (content : Option (List NodeId)) (t : Tree) :
    let result := synthesizeArguments position names content t
    t.size ≤ result.2.size ∧ (∀ id, result.2.call? id = t.call? id) ∧
      ∀ argument ∈ result.1, argument.supplied = true → argument.name = "content" := by
  induction names generalizing content t with
  | nil => exact ⟨Nat.le_refl _, fun _ => rfl, by simp [synthesizeArguments]⟩
  | cons name names ih =>
    unfold synthesizeArguments
    simp only
    split
    · next child children hgiven =>
      obtain ⟨hsize, hcalls, hsupplied⟩ := ih (if name = "content" then none else content) t
      refine ⟨hsize, hcalls, fun argument hargument hgives => ?_⟩
      rcases List.mem_cons.mp hargument with rfl | hargument
      · by_contra hname
        simp [hname] at hgiven
      · exact hsupplied argument hargument hgives
    · obtain ⟨hsize, hcalls, hsupplied⟩ :=
        ih (if name = "content" then none else content) (t.push (.plaintext "") position).2
      refine ⟨Nat.le_trans (by simp) hsize, fun id => ?_, fun argument hargument hgives => ?_⟩
      · rw [hcalls, Tree.call?_push]
        split
        · next heq => simp [Node.call?, heq, Tree.call?_eq_none]
        · rfl
      · rcases List.mem_cons.mp hargument with rfl | hargument
        · by_contra hname
          simp [hname] at hgives
        · exact hsupplied argument hargument hgives

theorem bare_pushCall {call : MacroCall} (hlabel : (call.id, call.count) = (none, none))
    (himplied : call.Implied) (position : Position) : Bare t (t.pushCall call position).2 := by
  have hcalls := t.call?_pushCall call position
  refine ⟨by simp, fun id hid => ?_, fun id hid => ?_, fun id hid other hother => ?_⟩
  · rw [hcalls, if_neg (Nat.ne_of_lt hid)]
  · unfold Tree.label
    rw [hcalls]
    split
    · exact hlabel
    · rw [Tree.call?_eq_none hid]
      rfl
  · rw [hcalls] at hother
    split at hother
    · cases hother
      exact himplied
    · simp [Tree.call?_eq_none hid] at hother

theorem synthesize_bare {registry : Registry} {name : String} {position : Position} {node : NodeId}
    (hmade : synthesize registry name nodes position t = some (node, u)) : Bare t u := by
  unfold synthesize at hmade
  split at hmade
  · simp at hmade
  · next d hd =>
    split at hmade
    · obtain ⟨hsize, hcalls, hsupplied⟩ :=
        synthesizeArguments_bare position d.argumentNames (some nodes) t
      generalize synthesizeArguments position d.argumentNames (some nodes) t = result at *
      obtain ⟨arguments, p⟩ := result
      obtain ⟨-, hu⟩ := Prod.mk.inj (Option.some.inj hmade)
      have himplied : MacroCall.Implied { name, arguments, synthetic := true } := hsupplied
      rw [← hu]
      exact (Bare.of_calls hsize hcalls).trans (bare_pushCall rfl himplied position)
    · simp at hmade

theorem Retexted.bare (h : Retexted t u) : Bare t u := .of_calls (Nat.le_of_eq h.size_eq.symm) h.calls

theorem gatherRows_bare (registry : Registry) (owner : String) (nodes : List NodeId) (t : Tree) :
    Bare t (gatherRows registry owner nodes t).2 := by
  fun_induction gatherRows registry owner nodes t with
  | case1 t => exact .refl t
  | case2 node rest t hnone gathered u heq ih =>
    rw [heq] at ih
    exact ih
  | case3 node rest t container hsome isMember row hempty gathered u heq =>
    rename_i ih
    rw [heq] at ih
    exact ih
  | case4 node rest t container hsome isMember row hne wrapper u hmade gathered v heq =>
    rename_i ih
    rw [heq] at ih
    exact (synthesize_bare hmade).trans ih
  | case5 node rest t container hsome isMember row hne hmade gathered v heq =>
    rename_i ih
    rw [heq] at ih
    exact ih

theorem wrapChunk_bare (registry : Registry) (chunk : List NodeId) (t : Tree) :
    Bare t (wrapChunk registry chunk t).2 := by
  have htrimmed := (trimChunk_retexted chunk t).1.bare
  unfold wrapChunk
  split
  · next u heq => rwa [heq] at htrimmed
  · next first rest u heq =>
    rw [heq] at htrimmed
    split
    · split
      · next paragraph v hmade => exact htrimmed.trans (synthesize_bare hmade)
      · exact htrimmed
    · exact htrimmed

theorem wrapChunks_bare (registry : Registry) (rows : List (List NodeId)) (t : Tree) :
    Bare t (wrapChunks registry rows t).2 := by
  induction rows generalizing t with
  | nil => exact .refl t
  | cons chunk others ih => exact (wrapChunk_bare registry chunk t).trans (ih _)

/-- What is added to an argument is bare. -/
theorem arrangeArgument_bare (setting : Setting) (owner : String) (isRoot : Bool)
    (argument : Argument) (t : Tree) :
    Bare t (arrangeArgument setting owner isRoot argument t).2 := by
  have hgathered : Bare t (gather setting.registry owner argument.children t).2 :=
    gatherRows_bare ..
  unfold arrangeArgument
  simp only
  split
  · exact hgathered.trans (wrapChunks_bare ..)
  · exact hgathered

-- ----------------------------------------------------------------------------
-- All arguments of a macro
-- ----------------------------------------------------------------------------

structure Adorned (t : Tree) (node : NodeId) (u : Tree) : Prop where
  size_le : t.size ≤ u.size
  labels : ∀ id, u.label id = t.label id
  calls : ∀ id < t.size, id ≠ node → u.call? id = t.call? id
  implied : ∀ id, t.size ≤ id → ∀ call, u.call? id = some call → call.Implied

theorem Adorned.trans {node : NodeId} (h : Adorned t node u) (h' : Adorned u node v)
    (hnode : node < t.size) : Adorned t node v := by
  refine ⟨Nat.le_trans h.size_le h'.size_le, fun id => ?_, fun id hid hne => ?_, fun id hid call hcall => ?_⟩
  · rw [h'.labels, h.labels]
  · rw [h'.calls id (Nat.lt_of_lt_of_le hid h.size_le) hne, h.calls id hid hne]
  · by_cases hold : id < u.size
    · have hne : id ≠ node := fun heq => Nat.not_le_of_lt hnode (heq ▸ hid)
      exact h.implied id hid call (h'.calls id hold hne ▸ hcall)
    · exact h'.implied id (Nat.le_of_not_lt hold) call hcall

theorem Bare.adorned (h : Bare t u) (node : NodeId) : Adorned t node u :=
  ⟨h.size_le, h.label, fun id hid _ => h.calls id hid, h.implied⟩

theorem adorned_setChildren (t : Tree) (node : NodeId) (argument : String)
    (children : List NodeId) : Adorned t node (t.setChildren node argument children) := by
  refine ⟨by simp [Tree.setChildren], t.label_setChildren node argument children,
    fun id _ hne => ?_, fun id hid call hcall => ?_⟩
  · rw [Tree.setChildren, Tree.call?_modifyCall, if_neg (Ne.symm hne), Tree.call?_adopt]
  · have hlt := Tree.lt_of_call? hcall
    simp [Tree.setChildren] at hlt
    exact absurd hlt (Nat.not_lt.mpr hid)

theorem arrange_adorned (setting : Setting) (s : State) {node : NodeId} (hnode : node < s.tree.size)
    (call : MacroCall) (isRoot : Bool) :
    Adorned s.tree node (arrange setting s node call isRoot).tree := by
  rw [arrange_eq]
  generalize call.arguments = arguments
  induction arguments generalizing s with
  | nil => exact (Bare.refl s.tree).adorned node
  | cons argument rest ih =>
    have hfirst : Adorned s.tree node (arrangeOne setting node call.name isRoot s argument).tree := by
      have hbare := arrangeArgument_bare setting call.name isRoot argument s.tree
      simp only [arrangeOne]
      split
      · exact hbare.adorned node
      · exact (hbare.adorned node).trans (adorned_setChildren ..) hnode
    exact hfirst.trans (ih _ (Nat.lt_of_lt_of_le hnode hfirst.size_le)) hnode

theorem arrange_tree (setting : Setting) (s : State) (node : NodeId) (call : MacroCall)
    (isRoot : Bool) : arrange setting s node call isRoot =
      { s with tree := (arrange setting s node call isRoot).tree } := by
  rw [arrange_eq]
  generalize call.arguments = arguments
  induction arguments generalizing s with
  | nil => rfl
  | cons argument rest ih =>
    rw [List.foldl_cons, ih]
    rfl

/-- Once a macro has been named and noted, its visit changes nothing but the tree. -/
theorem visitNode_rest {setting : Setting} {s : State} {visit : Visit} {call : MacroCall}
    (hcall : s.tree.call? visit.node = some call) :
    (visitNode setting visit s).2 =
      { (if visit.node = s.tree.root then ((none : Option String), s)
          else visitCall setting s visit call).2 with tree := (visitNode setting visit s).2.tree } := by
  simp only [visitNode, hcall]
  generalize (if visit.node = s.tree.root then ((none : Option String), s)
    else visitCall setting s visit call) = called
  obtain ⟨headerId, t⟩ := called
  cases t.tree.call? visit.node with
  | none =>
    simp only
    split <;> rfl
  | some written =>
    have harranged := arrange_tree setting t visit.node written (visit.node = s.tree.root)
    simp only
    split <;> exact harranged

end Assembly
end Macromark
