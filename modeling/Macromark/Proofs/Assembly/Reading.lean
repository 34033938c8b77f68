import Macromark.Proofs.Assembly.Arrangement
import Macromark.Proofs.Assembly.Settling

/-!
# The visit of an argument, read as passages

What a visit does to the nodes of an argument is what `Passage.tidyContent` does
to the passages at them (`arrangeArgument_remade`), and nothing changes
elsewhere. A container only puts new macros above nodes. Trimming changes texts;
since no node of an argument reaches another, it changes no other passage.
-/

namespace Macromark.Assembly

variable {α : Type} {registry : Registry} {t u v : Tree} {owner : String} {nodes : List NodeId}
variable {node : NodeId} {label : NodeId → α} {fresh : α}

-- ----------------------------------------------------------------------------
-- One node
-- ----------------------------------------------------------------------------

section
variable (h : t.Acyclic) (label : NodeId → α)
include h

theorem containerFor_passage (registry : Registry) (owner : String) (id : NodeId) :
    containerFor registry t owner id = (t.passage label id).container? registry owner := by
  cases hnode : t.get? id with
  | none => simp [containerFor, Tree.call?, hnode, Tree.passage_of_none, Passage.container?]
  | some node =>
    rw [h.passage_of_get? hnode]
    cases hkind : node.kind <;>
      simp [containerFor, Tree.call?, hnode, Node.call?, hkind, NodeKind.passage,
        Passage.container?]

theorem isBlankNode_passage (id : NodeId) :
    isBlankNode t id = (t.passage label id).isBlank := by
  cases hnode : t.get? id with
  | none => simp [isBlankNode, Tree.plaintext?, hnode, Tree.passage_of_none, Passage.isBlank]
  | some node =>
    rw [h.passage_of_get? hnode]
    cases hkind : node.kind <;>
      simp [isBlankNode, Tree.plaintext?, hnode, Node.plaintext?, hkind, NodeKind.passage,
        Passage.isBlank]

theorem isParagraphBreak_passage (id : NodeId) :
    t.isParagraphBreak id = (t.passage label id).isBreak := by
  cases hnode : t.get? id with
  | none => simp [Tree.isParagraphBreak, hnode, Tree.passage_of_none, Passage.isBreak]
  | some node =>
    rw [h.passage_of_get? hnode]
    cases hkind : node.kind <;>
      simp [Tree.isParagraphBreak, hnode, Node.isParagraphBreak, hkind, NodeKind.passage,
        Passage.isBreak]

theorem isPhrasing_passage (registry : Registry) {id : NodeId} (hid : id < t.size) :
    isPhrasing registry t id = (t.passage label id).isPhrasing registry := by
  obtain ⟨written, hnode⟩ := Tree.lt_size_iff.mp hid
  rw [h.passage_of_get? hnode]
  cases hkind : written.kind <;>
    simp [isPhrasing, Tree.kind?, hnode, hkind, NodeKind.passage, Passage.isPhrasing]

end

-- ----------------------------------------------------------------------------
-- New macros
-- ----------------------------------------------------------------------------

structure Filled (label : NodeId → α) (t : Tree) (result : List Argument × Tree)
    (slots : List (Slot (Passage α))) : Prop where
  grown : t.Extends result.2
  acyclic : result.2.Acyclic
  inside : ∀ argument ∈ result.1, ∀ id ∈ argument.children, id < result.2.size
  slots : result.1.map (·.slot (result.2.passage label)) = slots

theorem Filled.given {result : List Argument × Tree} {slots : List (Slot (Passage α))}
    (h : Filled label t result slots) (ht : t.Acyclic) {children : List NodeId}
    (hchildren : ∀ id ∈ children, id < t.size) (name : String) (position : Position) :
    Filled label t (⟨name, children, position, true⟩ :: result.1, result.2)
      (⟨name, true, children.map (t.passage label)⟩ :: slots) := by
  refine ⟨h.grown, h.acyclic, ?_, ?_⟩
  · intro argument hargument id hid
    rcases List.mem_cons.mp hargument with rfl | hargument
    · exact Nat.lt_of_lt_of_le (hchildren id hid) h.grown.size_le
    · exact h.inside argument hargument id hid
  · rw [List.map_cons, h.slots, Argument.slot, h.grown.passages ht h.acyclic hchildren]

theorem Filled.padded {result : List Argument × Tree} {slots : List (Slot (Passage α))}
    {position : Position} (h : Filled label (t.push (.plaintext "") position).2 result slots)
    (ht : t.Acyclic) (hfresh : ∀ id, t.size ≤ id → label id = fresh) (name : String)
    (supplied : Bool) :
    Filled label t (⟨name, [t.size], position, supplied⟩ :: result.1, result.2)
      (⟨name, supplied, [.text fresh ""]⟩ :: slots) := by
  have hpushed : (t.push (.plaintext "") position).2.Acyclic := ht.push rfl position
  have hnew : t.size < (t.push (.plaintext "") position).2.size := by simp
  have htext : (t.push (.plaintext "") position).2.passage label t.size = .text fresh "" := by
    rw [hpushed.passage_eq ((t.face?_push ..).trans (if_pos rfl)), NodeKind.passage_face,
      NodeKind.passage, hfresh t.size (Nat.le_refl _)]
  refine ⟨(t.extends_push _ position).trans h.grown, h.acyclic, ?_, ?_⟩
  · intro argument hargument id hid
    rcases List.mem_cons.mp hargument with rfl | hargument
    · rw [List.mem_singleton.mp hid]
      exact Nat.lt_of_lt_of_le hnew h.grown.size_le
    · exact h.inside argument hargument id hid
  · rw [List.map_cons, h.slots, Argument.slot, List.map_singleton,
      h.grown.passage hpushed h.acyclic hnew, htext]

theorem synthesizeArguments_filled (h : t.Acyclic) (hfresh : ∀ id, t.size ≤ id → label id = fresh)
    (position : Position) (names : List String) (content : Option (List NodeId))
    (hcontent : ∀ id ∈ content.getD [], id < t.size) :
    Filled label t (synthesizeArguments position names content t)
      (Passage.impliedSlots fresh names (content.map (·.map (t.passage label)))) := by
  induction names generalizing content t with
  | nil => exact ⟨.refl t, h, by simp [synthesizeArguments], rfl⟩
  | cons name names ih =>
    -- the others are filled when this one holds an empty text
    have hrest : ∀ left : Option (List NodeId), (∀ id ∈ left.getD [], id < t.size) →
        Filled label (t.push (.plaintext "") position).2
          (synthesizeArguments position names left (t.push (.plaintext "") position).2)
          (Passage.impliedSlots fresh names (left.map (·.map (t.passage label)))) := by
      intro left hleft
      have hpush := t.extends_push (.plaintext "") position
      have hpushed : (t.push (.plaintext "") position).2.Acyclic := h.push rfl position
      have hsame : left.map (·.map ((t.push (.plaintext "") position).2.passage label)) =
          left.map (·.map (t.passage label)) := by
        cases left with
        | none => rfl
        | some ids => exact congrArg some (hpush.passages h hpushed hleft)
      rw [← hsame]
      exact ih hpushed (fun id hid => hfresh id (Nat.le_of_succ_le (by simpa using hid))) left
        fun id hid => Nat.lt_of_lt_of_le (hleft id hid) hpush.size_le
    unfold synthesizeArguments Passage.impliedSlots
    by_cases hname : name = "content"
    · cases content with
      | none =>
        simp only [hname, if_true, Option.map_none]
        exact (hrest none (by simp)).padded h hfresh _ _
      | some given =>
        cases given with
        | nil =>
          simp only [hname, if_true]
          exact (hrest none (by simp)).padded h hfresh _ _
        | cons child children =>
          simp only [hname, if_true]
          exact (ih h hfresh none (by simp)).given h hcontent _ _
    · simp only [hname, if_false]
      exact (hrest content hcontent).padded h hfresh _ _

/-- What a step leads to that makes new macros above some nodes: a tree and nodes in it, read as
`passages`. -/
structure Made (label : NodeId → α) (t : Tree) (result : List NodeId × Tree)
    (passages : List (Passage α)) : Prop where
  grown : t.Extends result.2
  acyclic : result.2.Acyclic
  inside : ∀ id ∈ result.1, id < result.2.size
  passages : result.1.map (result.2.passage label) = passages

/-- A macro above the new arguments. -/
theorem Filled.made {arguments : List Argument} {slots : List (Slot (Passage α))}
    (h : Filled label t (arguments, u) slots) (hfresh : ∀ id, t.size ≤ id → label id = fresh)
    (name : String) (position : Position) :
    let call : MacroCall := { name, arguments, synthetic := true }
    Made label t ([u.size], (u.pushCall call position).2) [.call fresh name true slots] := by
  intro call
  have hchildren : ∀ child ∈ call.allChildren, child < u.size := by
    intro child hchild
    obtain ⟨argument, hargument, hchild⟩ := List.mem_flatMap.mp hchild
    exact h.inside argument hargument child hchild
  have hpush := u.extends_pushCall call position
  have hpushed : (u.pushCall call position).2.Acyclic := h.acyclic.pushCall hchildren position
  have hslots : arguments.map (·.slot ((u.pushCall call position).2.passage label)) = slots := by
    rw [← h.slots]
    refine List.map_congr_left fun argument hargument => Argument.slot_congr fun child hchild => ?_
    exact hpush.passage h.acyclic hpushed (h.inside argument hargument child hchild)
  refine ⟨h.grown.trans hpush, hpushed, by simp, ?_⟩
  rw [List.map_singleton,
    hpushed.passage_eq ((u.face?_pushCall call position u.size).trans (if_pos rfl)),
    NodeKind.passage_face, NodeKind.passage, hslots, hfresh u.size h.grown.size_le]

theorem synthesize_passages (registry : Registry) (h : t.Acyclic)
    (hfresh : ∀ id, t.size ≤ id → label id = fresh)
    (name : String) (position : Position) (hnodes : ∀ id ∈ nodes, id < t.size) :
    (synthesize registry name nodes position t = none ∧
      Passage.implied? registry fresh name (nodes.map (t.passage label)) = none) ∨
    ∃ wrapper u passage, synthesize registry name nodes position t = some (wrapper, u) ∧
      Passage.implied? registry fresh name (nodes.map (t.passage label)) = some passage ∧
      Made label t ([wrapper], u) [passage] := by
  unfold synthesize Passage.implied?
  cases registry.get? name with
  | none => exact .inl ⟨rfl, rfl⟩
  | some definition =>
    by_cases hdeclares : definition.declares "content" = true
    · simp only [hdeclares, if_true]
      exact .inr ⟨_, _, _, rfl, rfl,
        (synthesizeArguments_filled h hfresh position _ (some nodes) hnodes).made hfresh name position⟩
    · exact .inl (by simp [hdeclares])

-- ----------------------------------------------------------------------------
-- Containers
-- ----------------------------------------------------------------------------

theorem Made.refl (h : t.Acyclic) (nodes : List NodeId) (hnodes : ∀ id ∈ nodes, id < t.size) :
    Made label t (nodes, t) (nodes.map (t.passage label)) := ⟨.refl t, h, hnodes, rfl⟩

theorem Made.next {front back : List NodeId} {first second : List (Passage α)}
    (h : Made label t (front, u) first) (h' : Made label u (back, v) second) :
    Made label t (front ++ back, v) (first ++ second) := by
  refine ⟨h.grown.trans h'.grown, h'.acyclic, fun id hid => ?_, ?_⟩
  · rcases List.mem_append.mp hid with hid | hid
    · exact Nat.lt_of_lt_of_le (h.inside id hid) h'.grown.size_le
    · exact h'.inside id hid
  · rw [List.map_append, h'.grown.passages h.acyclic h'.acyclic h.inside]
    exact congrArg₂ (· ++ ·) h.passages h'.passages

theorem map_rowBehind (h : t.Acyclic) (label : NodeId → α) (registry : Registry) (owner : String)
    (container : String) (rest : List NodeId) :
    (rowBehind (fun id => containerFor registry t owner id == some container) (isBlankNode t)
        rest).map (t.passage label) =
      Passage.rowBehind (fun p => p.container? registry owner == some container) Passage.isBlank
        (rest.map (t.passage label)) := by
  rw [show isBlankNode t = fun id => (t.passage label id).isBlank from
    funext (isBlankNode_passage h label)]
  simp [rowBehind, Passage.rowBehind, Text.dropEnd, containerFor_passage h label,
    List.takeWhile_map, ← List.map_reverse, List.dropWhile_map, Function.comp_def]

/-- A row of passages is the row of the nodes. -/
theorem gatherRows_row (h : t.Acyclic) {container : String} {rest row : List NodeId}
    {isMember : NodeId → Bool}
    (hsome : containerFor registry t owner node = some container)
    (hmember : ∀ id, isMember id = (containerFor registry t owner id == some container))
    (hrow : row = rowBehind isMember (isBlankNode t) rest) (hne : row ≠ []) :
    Passage.gatherRows registry fresh owner ((node :: rest).map (t.passage label)) =
      (match Passage.implied? registry fresh container
          ((node :: row.filter isMember).map (t.passage label)) with
        | some wrapper => [wrapper]
        | none => (node :: row).map (t.passage label)) ++
      Passage.gatherRows registry fresh owner ((rest.drop row.length).map (t.passage label)) := by
  obtain rfl : isMember = fun id => containerFor registry t owner id == some container :=
    funext hmember
  have hmap := map_rowBehind h label registry owner container rest
  rw [← hrow] at hmap
  have hfilter : (row.map (t.passage label)).filter
      (fun p => p.container? registry owner == some container) =
      (row.filter fun id => containerFor registry t owner id == some container).map
        (t.passage label) := by
    simp [List.filter_map, containerFor_passage h label, Function.comp_def]
  rw [containerFor_passage h label] at hsome
  rw [List.map_cons, Passage.gatherRows, hsome]
  simp only [← hmap, hfilter, List.isEmpty_map, List.isEmpty_iff, hne, if_false, List.length_map,
    ← List.map_drop, ← List.map_cons]
  cases Passage.implied? registry fresh container _ <;> rfl

/-- The rest of a list, read in a later tree. -/
theorem Made.rest {front back : List NodeId} {first : List (Passage α)} {rest : List NodeId}
    (h : Made label t (front, u) first) (ht : t.Acyclic) (hrest : ∀ id ∈ rest, id < t.size)
    {f : List (Passage α) → List (Passage α)}
    (h' : Made label u (back, v) (f (rest.map (u.passage label)))) :
    Made label t (front ++ back, v) (first ++ f (rest.map (t.passage label))) := by
  rw [h.grown.passages ht h.acyclic hrest] at h'
  exact h.next h'

theorem gatherRows_made (h : t.Acyclic) (hfresh : ∀ id, t.size ≤ id → label id = fresh)
    (hnodes : ∀ id ∈ nodes, id < t.size) :
    Made label t (gatherRows registry owner nodes t)
      (Passage.gatherRows registry fresh owner (nodes.map (t.passage label))) := by
  fun_induction gatherRows registry owner nodes t with
  | case1 t => exact ⟨.refl t, h, by simp, by simp [Passage.gatherRows]⟩
  | case2 node rest t hnone gathered u heq ih =>
    have hrest : ∀ id ∈ rest, id < t.size := fun id hid => hnodes id (List.mem_cons_of_mem _ hid)
    rw [containerFor_passage h label] at hnone
    rw [List.map_cons, Passage.gatherRows, hnone]
    exact (Made.refl h [node] (by simp [hnodes])).rest h hrest (heq ▸ ih h hfresh hrest)
  | case3 node rest t container hsome isMember row hempty gathered u heq ih =>
    have hrest : ∀ id ∈ rest, id < t.size := fun id hid => hnodes id (List.mem_cons_of_mem _ hid)
    have hrow := map_rowBehind h label registry owner container rest
    rw [show rowBehind _ _ rest = [] from hempty] at hrow
    rw [containerFor_passage h label] at hsome
    rw [List.map_cons, Passage.gatherRows, hsome]
    simp only [← hrow, List.map_nil, List.isEmpty_nil, if_true]
    exact (Made.refl h [node] (by simp [hnodes])).rest h hrest (heq ▸ ih h hfresh hrest)
  | case4 node rest t container hsome isMember row hne wrapper u hmade gathered v heq ih =>
    have hrest : ∀ id ∈ rest.drop row.length, id < t.size := fun id hid =>
      hnodes id (List.mem_cons_of_mem _ (List.mem_of_mem_drop hid))
    have hcontent : ∀ id ∈ node :: row.filter isMember, id < t.size := by
      intro id hid
      refine hnodes id (List.mem_cons.mp hid |>.elim (· ▸ List.mem_cons_self) fun hid => ?_)
      exact List.mem_cons_of_mem _ ((rowBehind_front _ _ rest).subset (List.mem_of_mem_filter hid))
    rw [gatherRows_row h hsome (fun _ => rfl) rfl hne]
    rcases synthesize_passages registry h hfresh container (t.position node) hcontent
      with ⟨hnone, -⟩ | ⟨_, _, passage, hsynthesized, himplied, hwrapper⟩
    · simp [hmade] at hnone
    · obtain ⟨rfl, rfl⟩ := Prod.mk.inj (Option.some.inj (hmade.symm.trans hsynthesized))
      rw [himplied]
      refine hwrapper.rest h hrest (heq ▸ ih hwrapper.acyclic ?_ ?_)
      · exact fun id hid => hfresh id (Nat.le_trans hwrapper.grown.size_le hid)
      · exact fun id hid => Nat.lt_of_lt_of_le (hrest id hid) hwrapper.grown.size_le
  | case5 node rest t container hsome isMember row hne hmade gathered v heq ih =>
    have hrest : ∀ id ∈ rest.drop row.length, id < t.size := fun id hid =>
      hnodes id (List.mem_cons_of_mem _ (List.mem_of_mem_drop hid))
    have hfront : ∀ id ∈ node :: row, id < t.size := by
      intro id hid
      refine hnodes id (List.mem_cons.mp hid |>.elim (· ▸ List.mem_cons_self) fun hid => ?_)
      exact List.mem_cons_of_mem _ ((rowBehind_front _ _ rest).subset hid)
    have hcontent : ∀ id ∈ node :: row.filter isMember, id < t.size := fun id hid =>
      hfront id ((List.filter_sublist.cons_cons node).subset hid)
    rw [gatherRows_row h hsome (fun _ => rfl) rfl hne]
    rcases synthesize_passages registry h hfresh container (t.position node) hcontent
      with ⟨-, hnone⟩ | ⟨_, _, passage, hsynthesized, -⟩
    · rw [hnone]
      exact (Made.refl h _ hfront).rest h hrest (heq ▸ ih h hfresh hrest)
    · simp [hmade] at hsynthesized

theorem gather_made (registry : Registry) (owner : String) (h : t.Acyclic)
    (hfresh : ∀ id, t.size ≤ id → label id = fresh)
    (hnodes : ∀ id ∈ nodes, id < t.size) :
    Made label t (gather registry owner nodes t)
      (Passage.gather registry fresh owner (nodes.map (t.passage label))) := by
  unfold gather Passage.gather
  split
  · rw [List.filter_map]
    have hblank : (!isBlankNode t ·) = (!·.isBlank) ∘ t.passage label :=
      funext fun id => congrArg (!·) (isBlankNode_passage h label id)
    rw [← hblank]
    exact gatherRows_made h hfresh fun id hid => hnodes id (List.mem_of_mem_filter hid)
  · exact gatherRows_made h hfresh hnodes

-- ----------------------------------------------------------------------------
-- Unrelated nodes
-- ----------------------------------------------------------------------------

section
variable {rank later : NodeId → Nat} {regrouped : List NodeId}

/-- An old node that is reached is reached from the list. -/
theorem Regroups.reaches (h : Regroups registry rank t nodes later u regrouped) {a z : NodeId}
    (ha : a ∈ regrouped) (hz : u.Reaches a z) (hold : z < t.size) :
    ∃ first ∈ nodes, t.Reaches first z := by
  induction hz with
  | refl => exact ⟨a, (h.origin a ha).resolve_right (Nat.not_le_of_lt hold), .refl⟩
  | @tail y z _ hstep ih =>
    by_cases hy : y < t.size
    · obtain ⟨first, hfirst, hreaches⟩ := ih hy
      exact ⟨first, hfirst, hreaches.tail (h.below hy ▸ hstep)⟩
    · have horigin := ((h.holder y (Nat.le_of_not_lt hy)).within z hstep).1
      exact ⟨z, horigin.resolve_right (Nat.not_le_of_lt hold), .refl⟩

/-- Regrouped nodes are unrelated where the nodes were. -/
theorem Regroups.unrelated (h : Regroups registry rank t nodes later u regrouped) (ht : t.Acyclic)
    (hunrelated : t.Unrelated nodes) : u.Unrelated regrouped := by
  intro a ha b hb hreaches
  cases hreaches with
  | refl => rfl
  | @tail above _ habove hstep =>
    by_cases hold : above < t.size
    · rw [h.below hold] at hstep
      obtain ⟨first, hfirst, hreaches⟩ := h.reaches ha habove hold
      have hnode := (h.origin b hb).resolve_right (Nat.not_le_of_lt (ht.inside hstep))
      obtain rfl := hunrelated first hfirst b hnode (hreaches.tail hstep)
      exact absurd hreaches (ht.not_reaches hstep)
    · exact absurd hb (h.apart above (Nat.le_of_not_lt hold) b hstep)

end

-- ----------------------------------------------------------------------------
-- Paragraphs
-- ----------------------------------------------------------------------------

structure Remade (label : NodeId → α) (t : Tree) (nodes : List NodeId)
    (result : List NodeId × Tree) (passages : List (Passage α)) : Prop where
  size_le : t.size ≤ result.2.size
  faces : ∀ id < t.size, id ∉ nodes → result.2.face? id = t.face? id
  acyclic : result.2.Acyclic
  inside : ∀ id ∈ result.1, id < result.2.size
  passages : result.1.map (result.2.passage label) = passages

theorem Remade.made {result : List NodeId × Tree} {passages : List (Passage α)}
    (h : Made label t result passages) (nodes : List NodeId) :
    Remade label t nodes result passages :=
  ⟨h.grown.size_le, fun id hid _ => h.grown.faces id hid, h.acyclic, h.inside, h.passages⟩

theorem Remade.passage {result : List NodeId × Tree} {passages : List (Passage α)}
    (h : Remade label t nodes result passages) (ht : t.Acyclic) {id : NodeId} (hid : id < t.size)
    (hout : ∀ x ∈ nodes, ¬ t.Reaches id x) :
    result.2.passage label id = t.passage label id :=
  ht.passage_congr h.acyclic hid fun x hx =>
    h.faces x (ht.lt_of_reaches hid hx) fun hmem => hout x hmem hx

theorem passage_of_plaintext? (h : t.Acyclic) {text : String}
    (htext : t.plaintext? node = some text) :
    t.passage label node = .text (label node) text := by
  obtain ⟨written, hnode, hkind⟩ := Option.map_eq_some_iff.mp (Tree.kind?_of_plaintext? htext)
  rw [h.passage_of_get? hnode, hkind]
  rfl

theorem trimFront_of_plaintext? (h : t.Acyclic) (hnone : t.plaintext? node = none)
    (hid : node < t.size) (cut : List Char → List Char) (rest : List (Passage α)) :
    Passage.trimFront cut (t.passage label node :: rest) = t.passage label node :: rest := by
  obtain ⟨written, hnode⟩ := Tree.lt_size_iff.mp hid
  rw [h.passage_of_get? hnode]
  cases hkind : written.kind <;>
    simp_all [Tree.plaintext?, Node.plaintext?, NodeKind.passage, Passage.trimFront]

/-- Another text for the first of some nodes is seen in no other passage. -/
theorem setKind_remade {rest : List NodeId} {text : String} (h : t.Acyclic)
    (hrow : Row t (node :: rest)) (hunrelated : t.Unrelated (node :: rest))
    (htext : t.plaintext? node = some text) (new : String) :
    Remade label t (node :: rest) (node :: rest, t.setKind node (.plaintext new))
      (.text (label node) new :: rest.map (t.passage label)) ∧
      ∀ id, (t.setKind node (.plaintext new)).below id = t.below id := by
  have hretexted : Retexted t (t.setKind node (.plaintext new)) := retexted_setKind htext
  have hsize := Nat.le_of_eq hretexted.size_eq.symm
  have hbelow : ∀ id, (t.setKind node (.plaintext new)).below id = t.below id := by
    intro id
    rw [Tree.below, hretexted.calls, Tree.below]
  have hafter := h.of_below hsize hbelow
  have hfaces : ∀ id, id ≠ node → (t.setKind node (.plaintext new)).face? id = t.face? id := by
    intro id hid
    rw [Tree.face?_setKind, if_neg (Ne.symm hid)]
  have hface : (t.setKind node (.plaintext new)).face? node = some (.plaintext new) := by
    obtain ⟨kind, hkind⟩ := Tree.exists_face? (hrow.inside node List.mem_cons_self)
    rw [Tree.face?_setKind, if_pos rfl, hkind]
    rfl
  refine ⟨⟨hsize, fun id _ hid => hfaces id (List.ne_of_not_mem_cons hid), hafter,
    fun id hid => Nat.lt_of_lt_of_le (hrow.inside id hid) hsize, ?_⟩, hbelow⟩
  rw [List.map_cons, hafter.passage_eq hface]
  refine congrArg (_ :: ·) (List.map_congr_left fun id hid => ?_)
  have hmem : id ∈ node :: rest := List.mem_cons_of_mem _ hid
  refine h.passage_congr hafter (hrow.inside id hmem) fun x hx => hfaces x ?_
  rintro rfl
  have heq := hunrelated id hmem x List.mem_cons_self hx
  exact (List.nodup_cons.mp hrow.nodup).1 (heq ▸ hid)

theorem trimFront_remade (label : NodeId → α) (h : t.Acyclic) (hrow : Row t nodes)
    (hunrelated : t.Unrelated nodes)
    (cut : List Char → List Char) :
    Remade label t nodes (trimFront cut nodes t)
      (Passage.trimFront cut (nodes.map (t.passage label))) ∧
      ∀ id, (trimFront cut nodes t).2.below id = t.below id := by
  fun_induction trimFront cut nodes t with
  | case1 => exact ⟨.made (.refl h [] (by simp)) _, fun _ => rfl⟩
  | case2 node rest t hnone =>
    refine ⟨?_, fun _ => rfl⟩
    rw [List.map_cons, trimFront_of_plaintext? h hnone (hrow.inside node List.mem_cons_self)]
    exact .made (.refl h _ hrow.inside) _
  | case3 node rest t text htext hcut ih =>
    obtain ⟨hremade, hbelow⟩ := ih h (hrow.sublist (List.sublist_cons_self _ _))
      (hunrelated.subset (List.subset_cons_self _ _))
    rw [List.map_cons, passage_of_plaintext? h htext, Passage.trimFront, hcut]
    exact ⟨{ hremade with
      faces := fun id hid hout => hremade.faces id hid fun hmem => hout (List.mem_cons_of_mem _ hmem) },
      hbelow⟩
  | case4 node rest t text htext hkept =>
    rw [List.map_cons, passage_of_plaintext? h htext, Passage.trimFront]
    split
    · next hnil => exact absurd hnil hkept
    · exact setKind_remade h hrow hunrelated htext _

theorem Remade.trans {others : List NodeId} {middle result : List NodeId × Tree}
    {before after : List (Passage α)} (h : Remade label t nodes middle before)
    (h' : Remade label middle.2 others result after) (hsub : others ⊆ nodes) :
    Remade label t nodes result after := by
  refine ⟨Nat.le_trans h.size_le h'.size_le, fun id hid hout => ?_, h'.acyclic, h'.inside,
    h'.passages⟩
  rw [h'.faces id (Nat.lt_of_lt_of_le hid h.size_le) fun hmem => hout (hsub hmem),
    h.faces id hid hout]

theorem trimChunk_remade (label : NodeId → α) (h : t.Acyclic) (hrow : Row t nodes)
    (hunrelated : t.Unrelated nodes) :
    Remade label t nodes (trimChunk nodes t) (Passage.trimChunk (nodes.map (t.passage label))) ∧
      ∀ id, (trimChunk nodes t).2.below id = t.below id := by
  obtain ⟨hfront, hbelow⟩ := trimFront_remade label h hrow hunrelated (·.dropWhile isNewline)
  obtain ⟨hretexted, hsub⟩ := trimFront_retexted (·.dropWhile isNewline) nodes t
  unfold trimChunk Passage.trimChunk
  generalize trimFront (·.dropWhile isNewline) nodes t = trimmed at hfront hbelow hretexted hsub
  obtain ⟨chunk, u⟩ := trimmed
  have hrow' : Row u chunk.reverse := by
    refine ⟨List.nodup_reverse.mpr (hrow.nodup.sublist hsub), fun id hid => ?_⟩
    exact hfront.inside id (List.mem_reverse.mp hid)
  have hunrelated' : u.Unrelated chunk.reverse := by
    intro a ha b hb hreaches
    rw [Tree.reaches_congr hbelow] at hreaches
    exact hunrelated a (hsub.subset (List.mem_reverse.mp ha)) b (hsub.subset (List.mem_reverse.mp hb))
      hreaches
  obtain ⟨hback, hbelow'⟩ :=
    trimFront_remade label hfront.acyclic hrow' hunrelated' (Text.dropEnd isNewline)
  have hboth := hfront.trans hback fun id hid => hsub.subset (List.mem_reverse.mp hid)
  refine ⟨⟨hboth.size_le, hboth.faces, hboth.acyclic, ?_, ?_⟩, fun id => (hbelow' id).trans (hbelow id)⟩
  · exact fun id hid => hboth.inside id (List.mem_reverse.mp hid)
  · have hpassages := hback.passages
    rw [List.map_reverse, hfront.passages] at hpassages
    rw [List.map_reverse, hpassages]

theorem wrapChunk_remade (registry : Registry) (h : t.Acyclic)
    (hfresh : ∀ id, t.size ≤ id → label id = fresh)
    (hrow : Row t nodes) (hunrelated : t.Unrelated nodes) :
    Remade label t nodes (wrapChunk registry nodes t)
      (Passage.wrapChunk registry fresh (nodes.map (t.passage label))) := by
  obtain ⟨htrimmed, -⟩ := trimChunk_remade label h hrow hunrelated
  obtain ⟨-, hsub⟩ := trimChunk_retexted nodes t
  unfold wrapChunk Passage.wrapChunk
  rw [← htrimmed.passages]
  generalize trimChunk nodes t = trimmed at htrimmed hsub ⊢
  obtain ⟨chunk, u⟩ := trimmed
  have hfresh' : ∀ id, u.size ≤ id → label id = fresh := fun id hid =>
    hfresh id (Nat.le_trans htrimmed.size_le hid)
  cases chunk with
  | nil => exact ⟨htrimmed.size_le, htrimmed.faces, htrimmed.acyclic, by simp, rfl⟩
  | cons first rest =>
    have hstays : Remade label t nodes (first :: rest, u) ((first :: rest).map (u.passage label)) :=
      ⟨htrimmed.size_le, htrimmed.faces, htrimmed.acyclic, htrimmed.inside, rfl⟩
    have hphrasing := isPhrasing_passage htrimmed.acyclic label registry
      (htrimmed.inside first List.mem_cons_self)
    simp only [List.map_cons, ← hphrasing]
    split
    · rw [← List.map_cons]
      rcases synthesize_passages registry htrimmed.acyclic hfresh'
        MacroName.paragraph (u.position first) htrimmed.inside
        with ⟨hnone, hnone'⟩ | ⟨paragraph, v, passage, hsome, hsome', hmade⟩
      · simp only [hnone, hnone']
        exact hstays
      · simp only [hsome, hsome']
        exact htrimmed.trans (.made hmade []) (List.nil_subset _)
    · exact hstays

/-- Unrelated nodes of a row reach nothing in its other part. -/
theorem not_reaches_of_row {front back : List NodeId} (hrow : Row t (front ++ back))
    (hunrelated : t.Unrelated (front ++ back)) {id : NodeId} (hid : id ∈ front) :
    ∀ x ∈ back, ¬ t.Reaches id x ∧ ¬ t.Reaches x id := by
  intro x hx
  have hne : id ≠ x := (List.nodup_append.mp hrow.nodup).2.2 id hid x hx
  have hfront := List.mem_append_left back hid
  have hback := List.mem_append_right front hx
  exact ⟨fun hreaches => hne (hunrelated id hfront x hback hreaches),
    fun hreaches => hne (hunrelated x hback id hfront hreaches).symm⟩

/-- A step on the front of a row, and the next steps on what is behind it. -/
theorem Remade.next {rank later : NodeId → Nat} {first second front back : List NodeId}
    {before after : List (Passage α)}
    (h : Remade label t first (front, u) before) (ht : t.Acyclic)
    (hrow : Row t (first ++ second)) (hunrelated : t.Unrelated (first ++ second))
    (hregroups : Regroups registry rank t first later u front)
    (hnext : Row u second → u.Unrelated second →
      (∀ id ∈ second, u.passage label id = t.passage label id) →
      Remade label u second (back, v) after) :
    Remade label t (first ++ second) (front ++ back, v) (before ++ after) := by
  have haround : Regroups registry rank t (first ++ second) later u (front ++ second) := by
    simpa using hregroups.around [] second (by simpa using hrow)
  have hrow' := haround.row
  have hunrelated' := haround.unrelated ht hunrelated
  have hback := hnext (hrow'.sublist (List.sublist_append_right _ _))
    (hunrelated'.subset (List.subset_append_right _ _)) fun id hid => by
      have hinside := hrow.inside id (List.mem_append_right _ hid)
      exact h.passage ht hinside fun x hx => (not_reaches_of_row hrow hunrelated hx id hid).2
  refine ⟨Nat.le_trans h.size_le hback.size_le, fun id hid hout => ?_, hback.acyclic, ?_, ?_⟩
  · rw [hback.faces id (Nat.lt_of_lt_of_le hid h.size_le) fun hmem => hout (List.mem_append_right _ hmem),
      h.faces id hid fun hmem => hout (List.mem_append_left _ hmem)]
  · intro id hid
    rcases List.mem_append.mp hid with hid | hid
    · exact Nat.lt_of_lt_of_le (h.inside id hid) hback.size_le
    · exact hback.inside id hid
  · rw [List.map_append, hback.passages, ← h.passages]
    refine congrArg (· ++ _) (List.map_congr_left fun id hid => ?_)
    exact hback.passage h.acyclic (h.inside id hid) fun x hx =>
      (not_reaches_of_row hrow' hunrelated' hid x hx).1

theorem wrapChunks_remade (registry : Registry) {rank : NodeId → Nat} {bound : Nat}
    (rows : List (List NodeId))
    (h : t.Acyclic) (hfresh : ∀ id, t.size ≤ id → label id = fresh) (hrow : Row t rows.flatten)
    (hunrelated : t.Unrelated rows.flatten) (hbound : ∀ id ∈ rows.flatten, rank id ≤ bound)
    (hwhole : ∀ id ∈ rows.flatten, t.isParagraphBreak id = false) :
    Remade label t rows.flatten (wrapChunks registry rows t)
      ((rows.map (·.map (t.passage label))).flatMap (Passage.wrapChunk registry fresh)) := by
  induction rows generalizing t rank with
  | nil => exact .made (.refl h [] (by simp)) []
  | cons chunk others ih =>
    rw [List.flatten_cons] at hrow hunrelated hbound hwhole ⊢
    have hchunk : Row t chunk := hrow.sublist (List.sublist_append_left _ _)
    have hwrapped := wrapChunk_remade registry h hfresh hchunk
      (hunrelated.subset (List.subset_append_left _ _))
    have hlifts : Lifts registry rank t chunk (bound + 2) (wrapChunk registry chunk t) :=
      wrapChunk_lifts hchunk (fun id hid => hbound id (List.mem_append_left _ hid))
        fun id hid => hwhole id (List.mem_append_left _ hid)
    obtain ⟨later, hregroups, -⟩ := hlifts
    rw [wrapChunks]
    generalize wrapChunk registry chunk t = wrapped at hwrapped hregroups ⊢
    obtain ⟨front, u⟩ := wrapped
    simp only [List.map_cons, List.flatMap_cons]
    refine hwrapped.next h hrow hunrelated hregroups fun hrow' hunrelated' hsame => ?_
    have hrows : others.map (·.map (u.passage label)) = others.map (·.map (t.passage label)) :=
      List.map_congr_left fun row hmem => List.map_congr_left fun id hid =>
        hsame id (List.mem_flatten.mpr ⟨row, hmem, hid⟩)
    have hold : ∀ id ∈ others.flatten, id < t.size := fun id hid =>
      hrow.inside id (List.mem_append_right _ hid)
    rw [← hrows]
    have hlater : ∀ id ∈ others.flatten, later id ≤ bound := by
      intro id hid
      rw [hregroups.ranks id (hold id hid)]
      exact hbound id (List.mem_append_right _ hid)
    refine ih hwrapped.acyclic (fun id hid => hfresh id (Nat.le_trans hwrapped.size_le hid)) hrow'
      hunrelated' hlater fun id hid => ?_
    rw [hregroups.kept.isParagraphBreak (hold id hid)]
    exact hwhole id (List.mem_append_right _ hid)

theorem map_chunks (h : t.Acyclic) (label : NodeId → α) (nodes : List NodeId) :
    (chunks t nodes).map (·.map (t.passage label)) =
      Passage.chunks (nodes.map (t.passage label)) := by
  induction nodes with
  | nil => rfl
  | cons node rest ih =>
    rw [List.map_cons, chunks, Passage.chunks, ← isParagraphBreak_passage h label, ← ih]
    split
    · rfl
    · cases chunks t rest <;> rfl

theorem insertParagraphs_remade (registry : Registry) {rank : NodeId → Nat} {bound : Nat}
    (h : t.Acyclic)
    (hfresh : ∀ id, t.size ≤ id → label id = fresh) (hrow : Row t nodes)
    (hunrelated : t.Unrelated nodes)
    (hbound : ∀ id ∈ nodes, rank id ≤ bound) :
    Remade label t nodes (insertParagraphs registry nodes t)
      (Passage.insertParagraphs registry fresh (nodes.map (t.passage label))) := by
  have hchunks := flatten_chunks t nodes
  have hsub : (chunks t nodes).flatten.Sublist nodes := hchunks ▸ List.filter_sublist
  unfold insertParagraphs Passage.insertParagraphs
  rw [← map_chunks h]
  have hremade := wrapChunks_remade registry (chunks t nodes) h hfresh
    (hrow.sublist hsub) (hunrelated.subset hsub.subset) (fun id hid => hbound id (hsub.subset hid))
    fun id hid => by
      rw [hchunks] at hid
      simpa using (List.mem_filter.mp hid).2
  exact { hremade with faces := fun id hid hout => hremade.faces id hid fun hmem => hout (hsub.subset hmem) }

-- ----------------------------------------------------------------------------
-- One argument
-- ----------------------------------------------------------------------------

theorem any_isParagraphBreak (h : t.Acyclic) (label : NodeId → α) (nodes : List NodeId) :
    nodes.any t.isParagraphBreak = (nodes.map (t.passage label)).any Passage.isBreak := by
  rw [List.any_map]
  exact congrArg nodes.any (funext fun id => isParagraphBreak_passage h label id)

theorem arrangeArgument_remade (setting : Setting) (owner : String) (isRoot : Bool)
    {argument : Argument} {rank : NodeId → Nat} {bound : Nat} (h : t.Acyclic)
    (hfresh : ∀ id, t.size ≤ id → label id = fresh) (hrow : Row t argument.children)
    (hunrelated : t.Unrelated argument.children)
    (hbound : ∀ id ∈ argument.children, rank id ≤ bound) :
    Remade label t argument.children (arrangeArgument setting owner isRoot argument t)
      (Passage.tidyContent setting.registry fresh owner isRoot argument.name
        (argument.children.map (t.passage label))) := by
  have hgathered := gather_made setting.registry owner h hfresh hrow.inside
  have hlifts : Lifts setting.registry rank t argument.children (bound + 1)
      (gather setting.registry owner argument.children t) := gather_lifts hrow hbound
  obtain ⟨later, hregroups, hlater⟩ := hlifts
  unfold arrangeArgument Passage.tidyContent
  simp only [any_isParagraphBreak h label]
  generalize gather setting.registry owner argument.children t = gathered
    at hgathered hregroups hlater ⊢
  obtain ⟨children, u⟩ := gathered
  rw [← hgathered.passages]
  split
  · have hfresh' : ∀ id, u.size ≤ id → label id = fresh := fun id hid =>
      hfresh id (Nat.le_trans hgathered.grown.size_le hid)
    have hinserted := insertParagraphs_remade setting.registry hgathered.acyclic
      hfresh' hregroups.row (hregroups.unrelated h hunrelated) hlater
    refine ⟨Nat.le_trans hgathered.grown.size_le hinserted.size_le, fun id hid hout => ?_,
      hinserted.acyclic, hinserted.inside, hinserted.passages⟩
    rw [hinserted.faces id (Nat.lt_of_lt_of_le hid hgathered.grown.size_le) fun hmem =>
      (hregroups.origin id hmem).elim hout (Nat.not_le_of_lt hid), hgathered.grown.faces id hid]
  · exact .made ⟨hgathered.grown, hgathered.acyclic, hgathered.inside, rfl⟩ _

end Macromark.Assembly
