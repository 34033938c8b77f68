import Macromark.Proofs.Assembly.Arrangement
import Macromark.Proofs.Assembly.Names
import Macromark.Proofs.Tree.Places

/-!
# The positions in an assembled document

The assembly makes no position up either. What it adds to the tree stands where
its first member does, and what it notes or reports stands where a macro or an
argument does (`visitAll_placed`), so that whatever holds of the positions of the
parsed tree holds of all positions in the document (`assemble_placed`). A node
that is asked for and not there counts as one at the origin.
-/

namespace Macromark

variable {P : Position → Prop}

namespace Assembly

variable {t u : Tree} {position : Position}

-- ----------------------------------------------------------------------------
-- Implied macros
-- ----------------------------------------------------------------------------

theorem Retexted.placed (h : Retexted t u) (ht : t.Placed P) : u.Placed P := by
  refine ht.congr fun id => ?_
  by_cases hid : id < t.size
  · exact h.kept.shape id hid
  · have hnone : ∀ v : Tree, v.size = t.size → v.shape? id = none := by
      intro v hsize
      rw [Tree.shape?, Option.map_eq_none_iff, Tree.get?, Array.getElem?_eq_none_iff]
      exact Nat.le_trans (Nat.le_of_eq hsize) (Nat.le_of_not_lt hid)
    rw [hnone u h.size_eq, hnone t rfl]

theorem synthesizeArguments_placed (hposition : P position) (names : List String)
    (content : Option (List NodeId)) (ht : t.Placed P) :
    (∀ a ∈ (synthesizeArguments position names content t).1, P a.position) ∧
      (synthesizeArguments position names content t).2.Placed P := by
  induction names generalizing content t with
  | nil => exact ⟨fun _ ha => absurd ha List.not_mem_nil, ht⟩
  | cons name names ih =>
    have hall : ∀ (a : Argument) (others : List Argument), a.position = position →
        (∀ b ∈ others, P b.position) → ∀ b ∈ a :: others, P b.position := by
      intro a others ha hothers b hb
      rcases List.mem_cons.mp hb with rfl | hb
      · exact ha ▸ hposition
      · exact hothers b hb
    unfold synthesizeArguments
    simp only
    split
    · obtain ⟨harguments, htree⟩ := ih (if name = "content" then none else content) ht
      exact ⟨hall _ _ rfl harguments, htree⟩
    · obtain ⟨harguments, htree⟩ := ih (if name = "content" then none else content)
        (ht.push (.plaintext "") hposition fun p hp => absurd hp List.not_mem_nil)
      exact ⟨hall _ _ rfl harguments, htree⟩

theorem synthesize_placed {registry : Registry} {name : String} {content : List NodeId}
    {node : NodeId} (hposition : P position) (ht : t.Placed P)
    (hmade : synthesize registry name content position t = some (node, u)) : u.Placed P := by
  unfold synthesize at hmade
  split at hmade
  · cases hmade
  · next definition _ =>
    split at hmade
    · obtain ⟨harguments, htree⟩ :=
        synthesizeArguments_placed hposition definition.argumentNames (some content) ht
      cases hmade
      exact htree.pushCall hposition harguments
    · cases hmade

variable (horigin : P .origin)
include horigin

theorem gatherRows_placed (registry : Registry) (owner : String) (nodes : List NodeId)
    (ht : t.Placed P) : (gatherRows registry owner nodes t).2.Placed P := by
  fun_induction gatherRows registry owner nodes t with
  | case1 => exact ht
  | case2 node rest t _ gathered u heq ih =>
    rw [heq] at ih
    exact ih ht
  | case3 node rest t container _ isMember row _ gathered u heq ih =>
    rw [heq] at ih
    exact ih ht
  | case4 node rest t container _ isMember row _ wrapper u hmade gathered v heq ih =>
    rw [heq] at ih
    exact ih (synthesize_placed (ht.position horigin node) ht hmade)
  | case5 node rest t container _ isMember row _ _ gathered v heq ih =>
    rw [heq] at ih
    exact ih ht

theorem wrapChunk_placed (registry : Registry) (chunk : List NodeId) (ht : t.Placed P) :
    (wrapChunk registry chunk t).2.Placed P := by
  have htrimmed := (trimChunk_retexted chunk t).1.placed ht
  unfold wrapChunk
  split
  · next u heq => rwa [heq] at htrimmed
  · next first rest u heq =>
    rw [heq] at htrimmed
    split
    · split
      · next paragraph v hmade => exact synthesize_placed (htrimmed.position horigin first) htrimmed hmade
      · exact htrimmed
    · exact htrimmed

theorem wrapChunks_placed (registry : Registry) (rows : List (List NodeId)) (ht : t.Placed P) :
    (wrapChunks registry rows t).2.Placed P := by
  induction rows generalizing t with
  | nil => exact ht
  | cons chunk others ih => exact ih (wrapChunk_placed horigin registry chunk ht)

theorem arrangeArgument_placed (setting : Setting) (owner : String) (isRoot : Bool)
    (argument : Argument) (ht : t.Placed P) :
    (arrangeArgument setting owner isRoot argument t).2.Placed P := by
  have hgathered : (gather setting.registry owner argument.children t).2.Placed P :=
    gatherRows_placed horigin _ _ _ ht
  unfold arrangeArgument
  simp only
  split
  · exact wrapChunks_placed horigin _ _ hgathered
  · exact hgathered

omit horigin

-- ----------------------------------------------------------------------------
-- Notes
-- ----------------------------------------------------------------------------

structure State.Placed (P : Position → Prop) (s : State) : Prop where
  tree : s.tree.Placed P
  references : ∀ r ∈ s.references, P r.site.position
  diagnostics : ∀ d ∈ s.diagnostics, P d.position

variable {setting : Setting} {s : State} {node : NodeId} {call : MacroCall} {definition : MacroDef}

theorem State.Placed.report (h : s.Placed P) (hposition : P position) (problem : Problem) :
    (report setting s position problem).Placed P := by
  refine ⟨h.tree, h.references, fun d hd => ?_⟩
  rcases List.mem_append.mp hd with hd | hd
  · exact h.diagnostics d hd
  · obtain rfl := List.mem_singleton.mp hd
    exact hposition

theorem State.Placed.refer {rows : List Reference} (h : s.Placed P)
    (hrows : ∀ r ∈ rows, P r.site.position) : (refer s rows).Placed P :=
  ⟨h.tree, fun r hr => (List.mem_append.mp hr).elim (h.references r) (hrows r), h.diagnostics⟩

theorem State.Placed.refer_one {r : Reference} (h : s.Placed P) (hr : P r.site.position) :
    (Assembly.refer s [r]).Placed P := by
  refine h.refer fun other hother => ?_
  obtain rfl := List.mem_singleton.mp hother
  exact hr

theorem State.Placed.modifyCall (h : s.tree.Placed P) (node : NodeId) (id : String)
    (count : Option Nat) :
    (s.tree.modifyCall node fun call => { call with id := some id, count }).Placed P :=
  h.congr (Tree.shape?_modifyCall _ node fun _ => rfl)

-- ----------------------------------------------------------------------------
-- Visits
-- ----------------------------------------------------------------------------

section
include horigin

theorem assignId_placed (h : s.Placed P) (scope : Option String) (numbered : Bool) :
    (assignId setting s node call definition scope numbered).2.Placed P := by
  unfold assignId
  split
  · exact h
  · simp only
    split
    · exact h.report (h.tree.position horigin node) _
    · exact ⟨State.Placed.modifyCall h.tree _ _ _, h.references, h.diagnostics⟩

theorem levelOf_placed (h : s.Placed P) (node : NodeId) : (levelOf setting s node).2.Placed P := by
  unfold levelOf
  simp only
  split
  · exact h
  · exact h.report (h.tree.position horigin node) _

theorem visitSynonym_placed {level : Level} (h : s.Placed P) :
    (visitSynonym setting s node call definition level).2.Placed P := by
  have hassigned : (assignId setting s node call definition (outerScope s) false).2.Placed P :=
    assignId_placed horigin h _ _
  unfold visitSynonym
  split
  · next heq => rwa [heq] at hassigned
  · next id u heq =>
    rw [heq] at hassigned
    have hposition := hassigned.tree.position horigin node
    have hmodified : State.Placed P { u with
        index := u.index.modify id fun record =>
          { record with level := some level, synonymOf := u.lastHeader } } :=
      ⟨hassigned.tree, hassigned.references, hassigned.diagnostics⟩
    simp only
    split
    · exact hmodified.refer_one hposition
    · exact hmodified.report hposition _

theorem linkHeader_placed (h : s.Placed P) (level : Level) :
    (linkHeader setting s node level).2.Placed P := by
  obtain ⟨reports, aborted, heq, hreports⟩ := linkHeader_eq setting s node level
  rw [heq]
  refine ⟨h.tree, h.references, fun d hd => ?_⟩
  rcases List.mem_append.mp hd with hd | hd
  · exact h.diagnostics d hd
  · obtain ⟨previous, current, rfl⟩ := hreports d hd
    exact h.tree.position horigin node

theorem nameHeader_placed {entered : HeaderTree.Entered} {level : Level} (h : s.Placed P) :
    (nameHeader setting s node call definition entered level).2.Placed P := by
  have hposition := h.tree.position horigin node
  have hassigned : (assignId setting s node call definition (outerScope s) true).2.Placed P :=
    assignId_placed horigin h _ _
  unfold nameHeader
  simp only
  split
  · next heq => rwa [heq] at hassigned
  · next id u heq =>
    rw [heq] at hassigned
    refine State.Placed.refer_one ?_ hposition
    exact ⟨hassigned.tree, hassigned.references, hassigned.diagnostics⟩

theorem visitHeader_placed (h : s.Placed P) :
    (visitHeader setting s node call definition).2.Placed P := by
  have hlevel : (levelOf setting s node).2.Placed P := levelOf_placed horigin h node
  unfold visitHeader
  generalize levelOf setting s node = leveled at hlevel ⊢
  obtain ⟨level, u⟩ := leveled
  simp only at hlevel ⊢
  split
  · exact visitSynonym_placed horigin hlevel
  · exact nameHeader_placed horigin (linkHeader_placed horigin hlevel level)

omit horigin

theorem visitLink_placed {titleOf : Option String} (h : s.Placed P)
    (hcall : ∀ a ∈ call.arguments, P a.position) :
    (visitLink setting s node call titleOf).Placed P := by
  unfold visitLink
  split
  · exact h
  · next href hhref =>
    have hposition := hcall href (List.mem_of_find?_eq_some hhref)
    have hrows : ∀ (origin : String) (rows : List Candidate), ∀ r ∈ rows.flatMap
        (candidateReferences origin titleOf.isSome (site setting href.position)),
        P r.site.position := by
      intro origin rows r hr
      obtain ⟨candidate, -, hr⟩ := List.mem_flatMap.mp hr
      rw [(mem_candidateReferences hr).2]
      exact hposition
    refine ⟨h.tree, fun r hr => ?_, h.diagnostics⟩
    rcases List.mem_append.mp hr with hr | hr
    · exact h.references r hr
    · exact hrows _ _ r hr

theorem visitInclusion_placed (h : s.Placed P) (hcall : ∀ a ∈ call.arguments, P a.position) :
    (visitInclusion setting s node call).Placed P := by
  unfold visitInclusion
  split
  · exact h
  · next href hhref => exact h.refer_one (hcall href (List.mem_of_find?_eq_some hhref))

include horigin

theorem visitCall_placed {visit : Visit} (h : s.Placed P)
    (hcall : ∀ a ∈ call.arguments, P a.position) : (visitCall setting s visit call).2.Placed P := by
  unfold visitCall
  split
  · exact h
  · split
    · exact visitHeader_placed horigin h
    · refine assignId_placed horigin ?_ _ _
      split
      · exact visitLink_placed h hcall
      · split
        · exact visitInclusion_placed h hcall
        · exact h

theorem arrange_placed (h : s.Placed P) (node : NodeId) (call : MacroCall) (isRoot : Bool) :
    (arrange setting s node call isRoot).Placed P := by
  unfold arrange
  generalize call.arguments = arguments
  induction arguments generalizing s with
  | nil => exact h
  | cons argument rest ih =>
    have htree := arrangeArgument_placed horigin setting call.name isRoot argument h.tree
    refine ih ⟨?_, h.references, h.diagnostics⟩
    simp only
    split
    · exact htree
    · exact (htree.congr (Tree.shape?_adopt _ _ _)).congr
        (Tree.shape?_modifyCall _ _ fun call => call.shape_setChildren _ _)

theorem visitNode_placed (h : s.Placed P) (visit : Visit) :
    (visitNode setting visit s).2.Placed P := by
  unfold visitNode
  split
  · exact h
  · next call hcall =>
    have hcalled : (if visit.node = s.tree.root then (none, s)
        else visitCall setting s visit call).2.Placed P := by
      split
      · exact h
      · exact visitCall_placed horigin h fun a ha => h.tree.argument hcall ha
    simp only
    generalize (if visit.node = s.tree.root then (none, s) else visitCall setting s visit call)
      = called at hcalled ⊢
    obtain ⟨headerId, u⟩ := called
    cases hbehind : u.tree.call? visit.node with
    | none =>
      simp only [hbehind]
      exact hcalled
    | some call =>
      have harranged : (arrange setting u visit.node call (visit.node = s.tree.root)).Placed P :=
        arrange_placed horigin hcalled _ _ _
      simp only
      split <;> exact harranged

theorem visitAll_placed (setting : Setting) (depth : Nat) (h : s.Placed P) (visit : Visit) :
    (visitAll setting depth visit s).Placed P := by
  induction depth generalizing visit s with
  | zero => exact h
  | succ depth ih =>
    have hnode : (visitNode setting visit s).2.Placed P := visitNode_placed horigin h visit
    simp only [visitAll]
    generalize visitNode setting visit s = result at hnode ⊢
    obtain ⟨below, u⟩ := result
    induction below generalizing u with
    | nil => exact hnode
    | cons next rest ihrest => exact ihrest _ (ih hnode next)

end

-- ----------------------------------------------------------------------------
-- The document as a whole
-- ----------------------------------------------------------------------------

theorem registerDocument_placed (setting : Setting) (ht : t.Placed P) :
    (registerDocument setting (.initial t)).Placed P := by
  have hinitial : State.Placed P (.initial t) :=
    ⟨ht, fun _ hr => absurd hr List.not_mem_nil, fun _ hd => absurd hd List.not_mem_nil⟩
  unfold registerDocument
  split
  · exact hinitial
  · simp only
    split
    · exact ⟨ht.congr (Tree.shape?_modifyCall _ _ fun _ => rfl), hinitial.references,
        hinitial.diagnostics⟩
    · exact hinitial

theorem nameDocument_placed (setting : Setting) (h : s.Placed P) : (nameDocument setting s).Placed P := by
  unfold nameDocument
  split
  · exact h
  · exact ⟨h.tree, h.references, h.diagnostics⟩

end Assembly

/-- An assembled document stands where its tree did, or at the origin. -/
theorem assemble_placed {t : Tree} (horigin : P .origin) (ht : t.Placed P) (registry : Registry)
    (document : String) :
    (assemble registry document t).tree.Placed P ∧
      (∀ r ∈ (assemble registry document t).contribution.references, P r.site.position) ∧
      ∀ d ∈ (assemble registry document t).diagnostics, P d.position := by
  unfold assemble
  split
  · exact ⟨ht, fun _ hr => absurd hr List.not_mem_nil, fun _ hd => absurd hd List.not_mem_nil⟩
  · have hregistered := Assembly.registerDocument_placed ⟨registry, document⟩ ht
    have hvisited := Assembly.visitAll_placed horigin ⟨registry, document⟩ (Assembly.depthBound t)
      hregistered ⟨t.root, none⟩
    have hnamed := Assembly.nameDocument_placed ⟨registry, document⟩ hvisited
    exact ⟨hnamed.tree, hnamed.references, hnamed.diagnostics⟩

end Macromark
