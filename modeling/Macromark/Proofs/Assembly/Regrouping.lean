import Macromark.Assembly
import Macromark.Proofs.Tree.Parsed

/-!
# Rearranging the nodes of an argument

Containers and paragraphs take nodes out of a list, put them into new macros and
put those into the list instead. `Regroups` says what such a step does to the
list and to the tree; it is closed under composition and under what stands
around the list, so that `gather` and `insertParagraphs` are read step by step
(`gather_regroups`, `insertParagraphs_regroups`).

Every node has a rank above those of its children. The rank of a macro that the
author wrote leaves room for a paragraph and two containers below it.
-/

namespace Macromark

theorem Tree.Kept.containerFor {t u : Tree} {id : NodeId} (h : t.Kept u) (hid : id < t.size)
    (registry : Registry) (owner : String) :
    containerFor registry u owner id = containerFor registry t owner id := by
  have hname : (u.call? id).map (·.name) = (t.call? id).map (·.name) := by
    have hframe := congrArg (Option.map (·.name)) (h.frame? hid)
    simpa [Tree.frame?_eq, Function.comp_def] using hframe
  unfold Macromark.containerFor
  cases ht : t.call? id <;> cases hu : u.call? id <;> simp_all

/-- The macros that the compiler writes on its own. -/
def Registry.Implies (registry : Registry) (name : String) : Prop :=
  name = MacroName.paragraph ∨
    ∃ d ∈ registry.macros, ∃ gathering ∈ d.gathering, gathering.container = name

namespace Assembly

inductive Stage where
  | written
  | paragraph
  | container

namespace Stage

/-- The levels that a visit may put between a macro and what stands in it. -/
def room : Stage → Nat
  | written => 4
  | paragraph => 2
  | container => 1

/-- What a macro named `owner` of rank `height` may hold at this stage. -/
structure Admits (stage : Stage) (registry : Registry) (rank : NodeId → Nat) (t : Tree)
    (owner : String) (height : Nat) (node : NodeId) : Prop where
  room : rank node + stage.room ≤ height
  whole : stage ≠ .written → t.isParagraphBreak node = false
  gathered : stage = .container → containerFor registry t owner node = none

end Stage

/-- A list of nodes that waits for the visit of its macro. -/
def Pending (registry : Registry) (rank : NodeId → Nat) (t : Tree) (owner : String) (height : Nat)
    (nodes : List NodeId) : Prop :=
  ∃ stage : Stage, stage.room ≤ height ∧
    ∀ node ∈ nodes, stage.Admits registry rank t owner height node

def Arranged (rank : NodeId → Nat) (t : Tree) (height : Nat) (nodes : List NodeId) : Prop :=
  ∀ node ∈ nodes, rank node < height ∧ t.isParagraphBreak node = false

/-- A list of different nodes of the tree. -/
structure Row (t : Tree) (nodes : List NodeId) : Prop where
  nodup : nodes.Nodup
  inside : ∀ id ∈ nodes, id < t.size

structure Holder (registry : Registry) (rank : NodeId → Nat) (t : Tree) (nodes : List NodeId)
    (u : Tree) (owner : NodeId) : Prop where
  within : ∀ child ∈ u.below owner, (child ∈ nodes ∨ t.size ≤ child) ∧ child < u.size
  distinct : (u.below owner).Nodup
  parent : ∀ child ∈ u.below owner, u.parent? child = some owner
  implied : ∀ call, u.call? owner = some call → registry.Implies call.name
  declared : ∀ call, u.call? owner = some call → ∃ d, registry.get? call.name = some d ∧
    call.arguments.map (·.name) = d.argumentNames
  pending : ∀ call, u.call? owner = some call → ∀ argument ∈ call.arguments,
    Pending registry rank u call.name (rank owner) argument.children

structure Regroups (registry : Registry) (rank : NodeId → Nat) (t : Tree) (nodes : List NodeId)
    (later : NodeId → Nat) (u : Tree) (regrouped : List NodeId) : Prop where
  kept : t.Kept u
  calls : ∀ id < t.size, u.call? id = t.call? id
  ranks : ∀ id < t.size, later id = rank id
  row : Row u regrouped
  origin : ∀ id ∈ regrouped, id ∈ nodes ∨ t.size ≤ id
  whole : ∀ id, t.size ≤ id → u.isParagraphBreak id = false
  holder : ∀ owner, t.size ≤ owner → Holder registry later t nodes u owner
  apart : ∀ owner, t.size ≤ owner → ∀ child ∈ u.below owner, child ∉ regrouped
  unmoved : ∀ id < t.size, (id ∈ nodes → id ∈ regrouped) → u.parent? id = t.parent? id
  parents : ∀ id owner, u.parent? id = some owner → t.parent? id = some owner ∨
    t.size ≤ owner ∧ owner < u.size

variable {registry : Registry} {rank later last : NodeId → Nat} {t u v : Tree} {owner : String}
variable {nodes others regrouped final before after : List NodeId} {height bound : Nat} {node : NodeId}

-- ----------------------------------------------------------------------------
-- What later steps keep
-- ----------------------------------------------------------------------------

theorem Stage.Admits.kept {stage : Stage} (h : stage.Admits registry rank t owner height node)
    (hkept : t.Kept u) (hnode : node < t.size) (hrank : later node = rank node) :
    stage.Admits registry later u owner height node := by
  refine ⟨hrank ▸ h.room, fun hstage => ?_, fun hstage => ?_⟩
  · rw [hkept.isParagraphBreak hnode]
    exact h.whole hstage
  · rw [hkept.containerFor hnode]
    exact h.gathered hstage

theorem Pending.kept (h : Pending registry rank t owner height nodes) (hkept : t.Kept u)
    (hnodes : ∀ node ∈ nodes, node < t.size) (hranks : ∀ id < t.size, later id = rank id) :
    Pending registry later u owner height nodes := by
  obtain ⟨stage, hroom, hadmits⟩ := h
  refine ⟨stage, hroom, fun node hnode => ?_⟩
  exact (hadmits node hnode).kept hkept (hnodes node hnode) (hranks node (hnodes node hnode))

theorem Arranged.kept (h : Arranged rank t height nodes) (hkept : t.Kept u)
    (hnodes : ∀ node ∈ nodes, node < t.size) (hranks : ∀ id < t.size, later id = rank id) :
    Arranged later u height nodes := by
  intro node hnode
  rw [hranks node (hnodes node hnode), hkept.isParagraphBreak (hnodes node hnode)]
  exact h node hnode

theorem Row.sublist (h : Row t nodes) (hsub : others.Sublist nodes) : Row t others :=
  ⟨h.nodup.sublist hsub, fun id hid => h.inside id (hsub.subset hid)⟩

-- ----------------------------------------------------------------------------
-- Composition
-- ----------------------------------------------------------------------------

/-- Only texts are other ones. -/
structure Retexted (t u : Tree) : Prop where
  kept : t.Kept u
  size_eq : u.size = t.size
  calls : ∀ id, u.call? id = t.call? id
  parents : ∀ id, u.parent? id = t.parent? id

theorem Retexted.refl (t : Tree) : Retexted t t := ⟨.refl t, rfl, fun _ => rfl, fun _ => rfl⟩

theorem Retexted.trans (h : Retexted t u) (h' : Retexted u v) : Retexted t v := by
  refine ⟨h.kept.trans h'.kept, h'.size_eq.trans h.size_eq, fun id => ?_, fun id => ?_⟩
  · rw [h'.calls, h.calls]
  · rw [h'.parents, h.parents]

/-- Nodes may be left out. -/
theorem Retexted.regroups (h : Retexted t u) (hrow : Row t nodes)
    (hsub : regrouped.Sublist nodes) : Regroups registry rank t nodes rank u regrouped := by
  have hcall : ∀ owner, t.size ≤ owner → u.call? owner = none := by
    intro owner howner
    rw [h.calls, Tree.call?_eq_none howner]
  have hnone : ∀ owner, t.size ≤ owner → u.below owner = [] := by
    intro owner howner
    simp [Tree.below, hcall owner howner]
  have hregrouped := hrow.sublist hsub
  refine ⟨h.kept, fun id _ => h.calls id, fun _ _ => rfl, ⟨hregrouped.nodup, ?_⟩,
    fun id hid => .inl (hsub.subset hid), ?_, ?_, ?_, fun id _ _ => h.parents id, ?_⟩
  · intro id hid
    rw [h.size_eq]
    exact hregrouped.inside id hid
  · intro id hid
    simp [Tree.isParagraphBreak, Tree.get?_eq_none (h.size_eq ▸ hid)]
  · intro owner howner
    refine ⟨?_, ?_, ?_, ?_, ?_, ?_⟩ <;> simp [hnone owner howner, hcall owner howner]
  · intro owner howner
    simp [hnone owner howner]
  · intro id owner hparent
    exact .inl (h.parents id ▸ hparent)

theorem Regroups.drop (h : Row t nodes) (hsub : regrouped.Sublist nodes) :
    Regroups registry rank t nodes rank t regrouped := (Retexted.refl t).regroups h hsub

theorem Regroups.refl (h : Row t nodes) : Regroups registry rank t nodes rank t nodes :=
  .drop h (.refl _)

theorem Regroups.below (h : Regroups registry rank t nodes later u regrouped) {id : NodeId}
    (hid : id < t.size) : u.below id = t.below id := by
  rw [Tree.below, Tree.below, h.calls id hid]

/-- A macro keeps what it holds while other nodes are regrouped. -/
theorem Regroups.holder_kept {holder : NodeId} (h : Regroups registry later u regrouped last v final)
    (hholder : Holder registry later t nodes u holder) (hold : holder < u.size)
    (hapart : ∀ child ∈ u.below holder, child ∉ regrouped) :
    Holder registry last t nodes v holder := by
  have hbelow := h.below hold
  have hcall := h.calls holder hold
  refine ⟨?_, ?_, ?_, ?_, ?_, ?_⟩
  · intro child hchild
    rw [hbelow] at hchild
    obtain ⟨horigin, hinside⟩ := hholder.within child hchild
    exact ⟨horigin, Nat.lt_of_lt_of_le hinside h.kept.size_le⟩
  · rw [hbelow]
    exact hholder.distinct
  · intro child hchild
    rw [hbelow] at hchild
    rw [h.unmoved child (hholder.within child hchild).2 fun hmem => absurd hmem (hapart child hchild)]
    exact hholder.parent child hchild
  · rw [hcall]
    exact hholder.implied
  · rw [hcall]
    exact hholder.declared
  · intro call hwritten argument hargument
    rw [hcall] at hwritten
    rw [h.ranks holder hold]
    refine (hholder.pending call hwritten argument hargument).kept h.kept ?_ h.ranks
    intro child hchild
    exact (hholder.within child (Tree.mem_below_of_argument hwritten hargument hchild)).2

theorem Regroups.trans (h : Regroups registry rank t nodes later u regrouped)
    (h' : Regroups registry later u regrouped last v final) :
    Regroups registry rank t nodes last v final := by
  have hsize := h.kept.size_le
  have hlt : ∀ id, id < t.size → id < u.size := fun id hid => Nat.lt_of_lt_of_le hid hsize
  refine ⟨h.kept.trans h'.kept, ?_, ?_, h'.row, ?_, ?_, ?_, ?_, ?_, ?_⟩
  · intro id hid
    rw [h'.calls id (hlt id hid), h.calls id hid]
  · intro id hid
    rw [h'.ranks id (hlt id hid), h.ranks id hid]
  · intro id hid
    rcases h'.origin id hid with hid | hid
    · exact h.origin id hid
    · exact .inr (Nat.le_trans hsize hid)
  · intro id hid
    by_cases hold : id < u.size
    · rw [h'.kept.isParagraphBreak hold]
      exact h.whole id hid
    · exact h'.whole id (Nat.le_of_not_lt hold)
  · intro owner howner
    by_cases hold : owner < u.size
    · exact h'.holder_kept (h.holder owner howner) hold (h.apart owner howner)
    · have hholder := h'.holder owner (Nat.le_of_not_lt hold)
      refine ⟨?_, hholder.distinct, hholder.parent, hholder.implied, hholder.declared,
        hholder.pending⟩
      intro child hchild
      obtain ⟨horigin, hinside⟩ := hholder.within child hchild
      refine ⟨?_, hinside⟩
      rcases horigin with hmem | hnew
      · exact h.origin child hmem
      · exact .inr (Nat.le_trans hsize hnew)
  · intro owner howner child hchild hfinal
    by_cases hold : owner < u.size
    · rw [h'.below hold] at hchild
      have hinside := ((h.holder owner howner).within child hchild).2
      rcases h'.origin child hfinal with hmem | hnew
      · exact h.apart owner howner child hchild hmem
      · exact Nat.lt_irrefl _ (Nat.lt_of_lt_of_le hinside hnew)
    · exact h'.apart owner (Nat.le_of_not_lt hold) child hchild hfinal
  · intro id hid hmem
    have hback : ∀ hfinal : id ∈ final, id ∈ regrouped := fun hfinal =>
      (h'.origin id hfinal).resolve_right (Nat.not_le_of_lt (hlt id hid))
    have hstays : id ∈ regrouped → id ∈ final := by
      intro hregrouped
      refine hmem ?_
      exact (h.origin id hregrouped).resolve_right (Nat.not_le_of_lt hid)
    rw [h'.unmoved id (hlt id hid) hstays]
    exact h.unmoved id hid fun hnodes => hback (hmem hnodes)
  · intro id owner hparent
    rcases h'.parents id owner hparent with hparent | ⟨hnew, hinside⟩
    · refine (h.parents id owner hparent).imp_right ?_
      rintro ⟨hnew, hinside⟩
      exact ⟨hnew, Nat.lt_of_lt_of_le hinside h'.kept.size_le⟩
    · exact .inr ⟨Nat.le_trans hsize hnew, hinside⟩

theorem mem_around {id : NodeId} :
    id ∈ before ++ nodes ++ after ↔ (id ∈ before ∨ id ∈ after) ∨ id ∈ nodes := by
  simp only [List.mem_append]
  tauto

theorem Row.edge (hrow : Row t (before ++ nodes ++ after)) {id : NodeId}
    (hid : id ∈ before ∨ id ∈ after) : id ∉ nodes ∧ id < t.size := by
  refine ⟨fun hnode => ?_, hrow.inside id (mem_around.mpr (.inl hid))⟩
  obtain ⟨hfront, -, hback⟩ := List.nodup_append.mp hrow.nodup
  obtain ⟨-, -, hfront⟩ := List.nodup_append.mp hfront
  rcases hid with hid | hid
  · exact hfront id hid id hnode rfl
  · exact hback id (List.mem_append_right _ hnode) id hid rfl

theorem Regroups.around (h : Regroups registry rank t nodes later u regrouped)
    (before after : List NodeId) (hrow : Row t (before ++ nodes ++ after)) :
    Regroups registry rank t (before ++ nodes ++ after) later u (before ++ regrouped ++ after) := by
  have hnodes : ∀ id ∈ nodes, id ∈ before ++ nodes ++ after :=
    fun id hid => mem_around.mpr (.inr hid)
  have hnew : ∀ id, id ∈ before ∨ id ∈ after → id ∉ regrouped := by
    intro id hid hregrouped
    obtain ⟨hnode, hold⟩ := hrow.edge hid
    rcases h.origin id hregrouped with hmem | hfresh
    · exact hnode hmem
    · exact Nat.lt_irrefl _ (Nat.lt_of_lt_of_le hold hfresh)
  refine ⟨h.kept, h.calls, h.ranks, ⟨?_, ?_⟩, ?_, h.whole, ?_, ?_, ?_, h.parents⟩
  · obtain ⟨hfront, hafter, hback⟩ := List.nodup_append.mp hrow.nodup
    obtain ⟨hbefore, -, -⟩ := List.nodup_append.mp hfront
    refine List.nodup_append.mpr ⟨List.nodup_append.mpr ⟨hbefore, h.row.nodup, ?_⟩, hafter, ?_⟩
    · rintro id hid _ hregrouped rfl
      exact hnew id (.inl hid) hregrouped
    · rintro id hid _ hmember rfl
      rcases List.mem_append.mp hid with hid | hid
      · exact hback id (by simp [hid]) id hmember rfl
      · exact hnew id (.inr hmember) hid
  · intro id hid
    rcases mem_around.mp hid with hedge | hid
    · exact Nat.lt_of_lt_of_le (hrow.edge hedge).2 h.kept.size_le
    · exact h.row.inside id hid
  · intro id hid
    rcases mem_around.mp hid with hedge | hid
    · exact .inl (mem_around.mpr (.inl hedge))
    · exact (h.origin id hid).imp_left (hnodes id)
  · intro owner howner
    have hholder := h.holder owner howner
    refine ⟨fun child hchild => ?_, hholder.distinct, hholder.parent, hholder.implied,
      hholder.declared, hholder.pending⟩
    obtain ⟨horigin, hinside⟩ := hholder.within child hchild
    exact ⟨horigin.imp_left (hnodes child), hinside⟩
  · intro owner howner child hchild hmember
    rcases mem_around.mp hmember with hedge | hmember
    · obtain ⟨hnode, hold⟩ := hrow.edge hedge
      rcases ((h.holder owner howner).within child hchild).1 with hmem | hfresh
      · exact hnode hmem
      · exact Nat.lt_irrefl _ (Nat.lt_of_lt_of_le hold hfresh)
    · exact h.apart owner howner child hchild hmember
  · intro id hid hstays
    refine h.unmoved id hid fun hnode => ?_
    rcases mem_around.mp (hstays (hnodes id hnode)) with hedge | hmember
    · exact absurd hnode (hrow.edge hedge).1
    · exact hmember

/-- The new macros are no paragraph breaks. -/
theorem Regroups.breakless (h : Regroups registry rank t nodes later u regrouped)
    (hrow : Row t nodes) (hnodes : ∀ id ∈ nodes, t.isParagraphBreak id = false) :
    ∀ id ∈ regrouped, u.isParagraphBreak id = false := by
  intro id hid
  rcases h.origin id hid with hmem | hnew
  · rw [h.kept.isParagraphBreak (hrow.inside id hmem)]
    exact hnodes id hmem
  · exact h.whole id hnew

-- ----------------------------------------------------------------------------
-- New macros
-- ----------------------------------------------------------------------------

/-- Between `t` and `u` some empty texts are new. -/
structure Padded (t u : Tree) : Prop where
  kept : t.Kept u
  calls : ∀ id, u.call? id = t.call? id
  parents : ∀ id, u.parent? id = t.parent? id
  whole : ∀ id, t.size ≤ id → u.isParagraphBreak id = false

theorem Padded.refl (t : Tree) : Padded t t := by
  refine ⟨.refl t, fun _ => rfl, fun _ => rfl, fun id hid => ?_⟩
  simp [Tree.isParagraphBreak, Tree.get?_eq_none hid]

theorem Padded.push (position : Position) (h : Padded (t.push (.plaintext "") position).2 u) :
    Padded t u := by
  refine ⟨(t.kept_push _ position).trans h.kept, fun id => ?_, fun id => ?_, fun id hid => ?_⟩
  · rw [h.calls, Tree.call?_push]
    split
    · next heq => simp [Node.call?, heq, Tree.call?_eq_none]
    · rfl
  · rw [h.parents, Tree.parent?_push]
  · rcases Nat.lt_or_eq_of_le hid with hlt | rfl
    · exact h.whole id (by simpa [Nat.succ_le_iff] using hlt)
    · rw [h.kept.isParagraphBreak (by simp)]
      exact t.isParagraphBreak_push (.plaintext "") (by simp) position

/-- The arguments of a new macro hold its content and empty texts. -/
theorem synthesizeArguments_padded (position : Position) (names : List String)
    (content : Option (List NodeId)) (hcontent : Row t (content.getD [])) :
    let result := synthesizeArguments position names content t
    Padded t result.2 ∧ result.1.map (·.name) = names ∧ (result.1.flatMap (·.children)).Nodup ∧
      ∀ child ∈ result.1.flatMap (·.children),
        (child ∈ content.getD [] ∨ t.size ≤ child) ∧ child < result.2.size := by
  induction names generalizing content t with
  | nil => exact ⟨.refl t, rfl, .nil, by simp [synthesizeArguments]⟩
  | cons name names ih =>
    unfold synthesizeArguments
    simp only
    split
    · next child children hgiven =>
      obtain ⟨rfl, rfl⟩ : name = "content" ∧ content = some (child :: children) := by
        split at hgiven
        · exact ⟨‹_›, hgiven⟩
        · simp at hgiven
      have hnone : Row t ((none : Option (List NodeId)).getD []) := ⟨.nil, by simp⟩
      obtain ⟨hpadded, hnames, hnodup, hchildren⟩ := ih none hnone
      simp only [Option.getD_none, List.not_mem_nil, false_or] at hchildren
      simp only [if_true, List.map_cons, List.flatMap_cons]
      refine ⟨hpadded, by rw [hnames], List.nodup_append.mpr ⟨hcontent.nodup, hnodup, ?_⟩, ?_⟩
      · rintro id hid _ hmem rfl
        exact Nat.lt_irrefl _ (Nat.lt_of_lt_of_le (hcontent.inside id hid) (hchildren id hmem).1)
      · intro id hid
        rcases List.mem_append.mp hid with hid | hid
        · exact ⟨.inl hid, Nat.lt_of_lt_of_le (hcontent.inside id hid) hpadded.kept.size_le⟩
        · exact ⟨.inr (hchildren id hid).1, (hchildren id hid).2⟩
    · generalize hleft : (if name = "content" then none else content) = left
      have hsub : ∀ id ∈ left.getD [], id ∈ content.getD [] := by
        rw [← hleft]
        split <;> simp
      have hrow : Row (t.push (.plaintext "") position).2 (left.getD []) := by
        refine ⟨?_, fun id hid => ?_⟩
        · rw [← hleft]
          split
          · exact .nil
          · exact hcontent.nodup
        · exact Nat.lt_of_lt_of_le (hcontent.inside id (hsub id hid)) (by simp)
      obtain ⟨hpadded, hnames, hnodup, hchildren⟩ := ih left hrow
      simp only [Tree.size_push] at hchildren
      have hsize : t.size < (synthesizeArguments position names left
          (t.push (.plaintext "") position).2).2.size :=
        Nat.lt_of_lt_of_le (by simp) hpadded.kept.size_le
      simp only [List.map_cons, List.flatMap_cons, List.singleton_append, Tree.push_fst]
      refine ⟨.push position hpadded, by rw [hnames], List.nodup_cons.mpr ⟨fun hmem => ?_, hnodup⟩, ?_⟩
      · rcases (hchildren _ hmem).1 with hmem | hmem
        · exact Nat.lt_irrefl _ (hcontent.inside _ (hsub _ hmem))
        · exact Nat.lt_irrefl _ hmem
      · intro id hid
        rcases List.mem_cons.mp hid with rfl | hid
        · exact ⟨.inr (Nat.le_refl _), hsize⟩
        · obtain ⟨horigin, hinside⟩ := hchildren id hid
          exact ⟨horigin.imp (hsub id) Nat.le_of_succ_le, hinside⟩

/-- The ranks of what is new: `height` for the macro, and none for its texts. -/
def newRank (rank : NodeId → Nat) (t p : Tree) (height : Nat) (id : NodeId) : Nat :=
  if id < t.size then rank id else if id = p.size then height else 0

section
variable {p : Tree} {call : MacroCall} {position : Position} {stage : Stage}
variable (h : Padded t p)
include h

theorem Padded.below_pushCall (call : MacroCall) (position : Position) (holder : NodeId)
    (hholder : t.size ≤ holder) :
    (p.pushCall call position).2.below holder = if holder = p.size then call.allChildren else [] := by
  rw [Tree.below_pushCall]
  split
  · rfl
  · rw [Tree.below, h.calls, Tree.call?_eq_none hholder]
    rfl

theorem Padded.call?_pushCall {holder : NodeId} (hholder : t.size ≤ holder) {other : MacroCall}
    (hother : (p.pushCall call position).2.call? holder = some other) :
    holder = p.size ∧ other = call := by
  rw [Tree.call?_pushCall] at hother
  split at hother
  · next heq => exact ⟨heq, (Option.some.inj hother).symm⟩
  · rw [h.calls, Tree.call?_eq_none hholder] at hother
    simp at hother

theorem Padded.isParagraphBreak_pushCall {id : NodeId} (hnew : t.size ≤ id) :
    (p.pushCall call position).2.isParagraphBreak id = false := by
  rcases Nat.lt_trichotomy id p.size with hlt | rfl | hgt
  · rw [(p.kept_pushCall call position).isParagraphBreak hlt]
    exact h.whole id hnew
  · exact p.isParagraphBreak_pushCall call position
  · rw [Tree.isParagraphBreak, Tree.get?_eq_none (by simpa [Nat.succ_le_iff] using hgt)]
    rfl

variable (hchildren : ∀ child ∈ call.allChildren, (child ∈ nodes ∨ t.size ≤ child) ∧ child < p.size)
variable (hroom : stage.room ≤ height)
variable (hadmits : ∀ id ∈ nodes, stage.Admits registry rank t call.name height id)
include hchildren hroom hadmits

/-- What the new macro holds waits at the stage of the nodes. -/
theorem Padded.pending (position : Position) {argument : Argument}
    (hargument : argument ∈ call.arguments) :
    Pending registry (newRank rank t p height) (p.pushCall call position).2 call.name height
      argument.children := by
  have hkept : t.Kept (p.pushCall call position).2 := h.kept.trans (p.kept_pushCall call position)
  refine ⟨stage, hroom, fun id hid => ?_⟩
  obtain ⟨horigin, hinside⟩ := hchildren id (List.mem_flatMap.mpr ⟨argument, hargument, hid⟩)
  by_cases hold : id < t.size
  · have hnode := horigin.resolve_right (Nat.not_le_of_lt hold)
    exact (hadmits id hnode).kept hkept hold (if_pos hold)
  · have hnew := Nat.le_of_not_lt hold
    refine ⟨?_, fun _ => h.isParagraphBreak_pushCall hnew, fun _ => ?_⟩
    · simpa [newRank, hold, Nat.ne_of_lt hinside] using hroom
    · have hnone : (p.pushCall call position).2.call? id = none := by
        rw [Tree.call?_pushCall, if_neg (Nat.ne_of_lt hinside), h.calls, Tree.call?_eq_none hnew]
      simp [containerFor, hnone]

variable (himplied : registry.Implies call.name) (hdeclared : ∃ d, registry.get? call.name = some d ∧
  call.arguments.map (·.name) = d.argumentNames) (hnodup : call.allChildren.Nodup)
include himplied hdeclared hnodup

theorem Padded.holder (position : Position) (holder : NodeId) (hholder : t.size ≤ holder) :
    Holder registry (newRank rank t p height) t nodes (p.pushCall call position).2 holder := by
  have hbelow := h.below_pushCall call position holder hholder
  refine ⟨?_, ?_, ?_, ?_, ?_, ?_⟩
  · intro child hchild
    rw [hbelow] at hchild
    split at hchild
    · obtain ⟨horigin, hinside⟩ := hchildren child hchild
      exact ⟨horigin, by simpa using Nat.lt_succ_of_lt hinside⟩
    · simp at hchild
  · rw [hbelow]
    split
    · exact hnodup
    · exact .nil
  · intro child hchild
    rw [hbelow] at hchild
    split at hchild
    · next heq =>
      rw [Tree.parent?_pushCall p position fun child hchild => (hchildren child hchild).2,
        if_pos hchild, heq]
    · simp at hchild
  · intro other hother
    obtain ⟨-, rfl⟩ := h.call?_pushCall hholder hother
    exact himplied
  · intro other hother
    obtain ⟨-, rfl⟩ := h.call?_pushCall hholder hother
    exact hdeclared
  · intro other hother argument hargument
    obtain ⟨rfl, rfl⟩ := h.call?_pushCall hholder hother
    have hrank : newRank rank t p height p.size = height := by
      simp [newRank, Nat.not_lt.mpr h.kept.size_le]
    rw [hrank]
    exact h.pending hchildren hroom hadmits position hargument

/-- A macro above nodes of the list and empty texts takes the place of the nodes. -/
theorem Padded.regroups (position : Position) :
    Regroups registry rank t nodes (newRank rank t p height) (p.pushCall call position).2
      [p.size] := by
  have hsize := h.kept.size_le
  have hparent := Tree.parent?_pushCall p position fun child hchild => (hchildren child hchild).2
  refine ⟨h.kept.trans (p.kept_pushCall call position), ?_, ?_, ⟨by simp, by simp⟩, ?_,
    fun id hid => h.isParagraphBreak_pushCall hid,
    h.holder hchildren hroom hadmits himplied hdeclared hnodup position, ?_, ?_, ?_⟩
  · intro id hid
    rw [Tree.call?_pushCall, if_neg (Nat.ne_of_lt (Nat.lt_of_lt_of_le hid hsize)), h.calls]
  · intro id hid
    exact if_pos hid
  · intro id hid
    rw [List.mem_singleton.mp hid]
    exact .inr hsize
  · intro holder hholder child hchild hmem
    rw [h.below_pushCall call position holder hholder] at hchild
    split at hchild
    · rw [List.mem_singleton.mp hmem] at hchild
      exact Nat.lt_irrefl _ (hchildren _ hchild).2
    · simp at hchild
  · intro id hid hstays
    rw [hparent, if_neg, h.parents]
    intro hmem
    have hnode := (hchildren id hmem).1.resolve_right (Nat.not_le_of_lt hid)
    exact Nat.ne_of_lt (Nat.lt_of_lt_of_le hid hsize) (List.mem_singleton.mp (hstays hnode))
  · intro id holder hholder
    rw [hparent] at hholder
    split at hholder
    · cases hholder
      exact .inr ⟨hsize, by simp⟩
    · rw [h.parents] at hholder
      exact .inl hholder

end

/-- A new macro takes the place of what it holds. -/
theorem synthesize_regroups {name : String} {position : Position} {stage : Stage}
    (hrow : Row t nodes) (himplied : registry.Implies name) (hroom : stage.room ≤ height)
    (hadmits : ∀ id ∈ nodes, stage.Admits registry rank t name height id)
    (hmade : synthesize registry name nodes position t = some (node, u)) :
    ∃ later, Regroups registry rank t nodes later u [node] ∧ later node = height := by
  unfold synthesize at hmade
  split at hmade
  · simp at hmade
  · next d hd =>
    split at hmade
    · obtain ⟨hpadded, hnames, hnodup, hchildren⟩ :=
        synthesizeArguments_padded position d.argumentNames (some nodes) hrow
      generalize synthesizeArguments position d.argumentNames (some nodes) t = result at *
      obtain ⟨arguments, p⟩ := result
      simp only [Option.getD_some, Option.some.injEq] at hmade hchildren hpadded
      obtain ⟨rfl, rfl⟩ := Prod.mk.inj hmade
      let call : MacroCall := { name, arguments, synthetic := true }
      have hchildren : ∀ child ∈ call.allChildren,
          (child ∈ nodes ∨ t.size ≤ child) ∧ child < p.size := hchildren
      refine ⟨_, hpadded.regroups hchildren hroom hadmits himplied ⟨d, hd, hnames⟩ hnodup _, ?_⟩
      simp [newRank, Nat.not_lt.mpr hpadded.kept.size_le]
    · simp at hmade

end Assembly
end Macromark
