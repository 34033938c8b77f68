import Macromark.Proofs.Assembly.Shape
import Macromark.Proofs.Tree.Passage

/-!
# The visits of the assembly

A visit keeps the shape of the tree, and its macro is arranged then
(`visitNode_shape`). The depth of the assembly suffices: every node is visited
at most once, and at the end everything below the first one has been
(`visitAll_tracked`). `Visited` lists the visits one after another, so that what
every single visit does is carried over to the whole assembly by induction;
what a visit and those below it do together is a property of walks (`Tracked`).
The same visits, one after another, work off an agenda (`Agenda.Run`), which is
how they would be made without a depth.
-/

namespace Macromark.Assembly

variable {registry : Registry} {rank later : NodeId → Nat} {t u v : Tree}
variable {visited : NodeId → String → Prop} {setting : Setting} {s : State} {node owner : NodeId}
variable {call : MacroCall} {definition : MacroDef} {visit : Visit}

-- ----------------------------------------------------------------------------
-- Names and numbers
-- ----------------------------------------------------------------------------

/-- Only identifiers and numbers are other ones. -/
structure Labeled (t u : Tree) : Prop where
  kept : t.Kept u
  size_eq : u.size = t.size
  parents : ∀ id, u.parent? id = t.parent? id
  calls : ∀ id, (u.call? id).map (fun call => (call.name, call.arguments)) =
    (t.call? id).map (fun call => (call.name, call.arguments))
  faces : ∀ id, u.face? id = t.face? id

theorem Labeled.refl (t : Tree) : Labeled t t :=
  ⟨.refl t, rfl, fun _ => rfl, fun _ => rfl, fun _ => rfl⟩

theorem Labeled.trans (h : Labeled t u) (h' : Labeled u v) : Labeled t v := by
  refine ⟨h.kept.trans h'.kept, h'.size_eq.trans h.size_eq, fun id => ?_, fun id => ?_, fun id => ?_⟩
  · rw [h'.parents, h.parents]
  · rw [h'.calls, h.calls]
  · rw [h'.faces, h.faces]

theorem labeled_modifyCall (t : Tree) (node : NodeId) {f : MacroCall → MacroCall}
    (hname : ∀ call, (f call).name = call.name)
    (harguments : ∀ call, (f call).arguments = call.arguments)
    (hsynthetic : ∀ call, (f call).synthetic = call.synthetic) :
    Labeled t (t.modifyCall node f) := by
  refine ⟨t.kept_modifyCall node fun call => ?_, by simp, by simp, fun id => ?_, fun id => ?_⟩
  · simp [NodeKind.shape, hname, harguments, hsynthetic]
  · rw [Tree.call?_modifyCall]
    split <;> cases t.call? id <;> simp [hname, harguments]
  · unfold Tree.face? Tree.kind?
    rw [Tree.get?_modifyCall]
    split
    · cases t.get? id with
      | none => rfl
      | some node => cases hkind : node.kind <;> simp [hkind, NodeKind.face, hname, harguments, hsynthetic]
    · rfl

theorem Labeled.call? (h : Labeled t u) (hcall : u.call? node = some call) :
    ∃ written, t.call? node = some written ∧ written.name = call.name ∧
      written.arguments = call.arguments := by
  have hcalls := h.calls node
  rw [hcall] at hcalls
  obtain ⟨written, hwritten, heq⟩ := Option.map_eq_some_iff.mp hcalls.symm
  exact ⟨written, hwritten, (Prod.mk.inj heq).1, (Prod.mk.inj heq).2⟩

theorem Labeled.below (h : Labeled t u) (id : NodeId) : u.below id = t.below id := by
  have hbelow : ∀ t : Tree, t.below id =
      (((t.call? id).map (fun call => (call.name, call.arguments))).map
        (·.2.flatMap (·.children))).getD [] := by
    intro t
    unfold Tree.below
    cases t.call? id <;> rfl
  rw [hbelow, hbelow, h.calls]

theorem Shape.labeled (h : Shape registry rank visited t) (hlabeled : Labeled t u) :
    Shape registry rank visited u := by
  have hsize := hlabeled.size_eq
  have hroot := hlabeled.kept.root_eq
  have hinside : ∀ owner call, t.call? owner = some call → ∀ argument ∈ call.arguments,
      ∀ id ∈ argument.children, id < t.size := by
    intro owner call hcall argument hargument id hid
    exact h.lt_of_below (Tree.mem_below_of_argument hcall hargument hid)
  refine ⟨⟨⟨?_, ?_, ?_⟩, ?_, ?_⟩, ?_, ?_, ?_, ?_, ?_⟩
  · intro owner child hchild
    rw [hlabeled.below] at hchild
    rw [hlabeled.parents, h.parent hchild]
  · intro owner
    rw [hlabeled.below]
    exact h.distinct owner
  · intro child owner hparent
    rw [hlabeled.parents] at hparent
    exact hsize ▸ h.inside hparent
  · rw [hroot, hsize]
    exact h.root_lt
  · rw [hroot, hlabeled.parents, h.top]
  · intro owner call hcall
    obtain ⟨written, hwritten, hname, harguments⟩ := hlabeled.call? hcall
    rw [← hname, ← harguments]
    exact h.declared owner written hwritten
  · intro owner name hvisited
    exact hsize ▸ h.known owner name hvisited
  · intro owner call hcall argument hargument hnot
    obtain ⟨written, hwritten, hname, harguments⟩ := hlabeled.call? hcall
    rw [← harguments] at hargument
    rw [← hname]
    exact (h.pending owner written hwritten argument hargument hnot).kept hlabeled.kept
      (hinside owner written hwritten argument hargument) fun _ _ => rfl
  · intro owner call hcall argument hargument hvisited
    obtain ⟨written, hwritten, hname, harguments⟩ := hlabeled.call? hcall
    rw [← harguments] at hargument
    exact (h.arranged owner written hwritten argument hargument hvisited).kept hlabeled.kept
      (hinside owner written hwritten argument hargument) fun _ _ => rfl
  · rw [hroot]
    intro call hcall argument hargument hnot
    obtain ⟨written, hwritten, hname, harguments⟩ := hlabeled.call? hcall
    rw [← harguments] at hargument
    exact h.written written hwritten argument hargument hnot

theorem assignId_labeled (setting : Setting) (s : State) (node : NodeId) (call : MacroCall)
    (definition : MacroDef) (scope : Option String) (numbered : Bool) :
    Labeled s.tree (assignId setting s node call definition scope numbered).2.tree := by
  unfold assignId
  split
  · exact .refl _
  · simp only
    split
    · exact .refl _
    · exact labeled_modifyCall _ _ (fun _ => rfl) (fun _ => rfl) fun _ => rfl

theorem labeled_of_assignId {scope : Option String} {numbered : Bool}
    {result : Option String × State}
    (h : assignId setting s node call definition scope numbered = result) :
    Labeled s.tree result.2.tree := h ▸ assignId_labeled ..

theorem tree_levelOf (setting : Setting) (s : State) (node : NodeId) :
    (levelOf setting s node).2.tree = s.tree := by
  unfold levelOf
  simp only
  split <;> rfl

theorem visitSynonym_labeled (setting : Setting) (s : State) (node : NodeId) (call : MacroCall)
    (definition : MacroDef) (level : Level) :
    Labeled s.tree (visitSynonym setting s node call definition level).2.tree := by
  unfold visitSynonym
  split
  · next heq => exact labeled_of_assignId heq
  · next heq =>
    have hassigned := labeled_of_assignId heq
    simp only
    split <;> exact hassigned

theorem tree_linkHeader (setting : Setting) (s : State) (node : NodeId) (level : Level) :
    (linkHeader setting s node level).2.tree = s.tree := by
  obtain ⟨reports, aborted, heq, -⟩ := linkHeader_eq setting s node level
  rw [heq]

theorem nameHeader_labeled (setting : Setting) (s : State) (node : NodeId) (call : MacroCall)
    (definition : MacroDef) (entered : HeaderTree.Entered) (level : Level) :
    Labeled s.tree (nameHeader setting s node call definition entered level).2.tree := by
  unfold nameHeader
  simp only
  split
  all_goals
    next heq =>
      have hassigned := labeled_of_assignId heq
      exact hassigned

theorem visitHeader_labeled (setting : Setting) (s : State) (node : NodeId) (call : MacroCall)
    (definition : MacroDef) :
    Labeled s.tree (visitHeader setting s node call definition).2.tree := by
  unfold visitHeader
  have htree := tree_levelOf setting s node
  generalize levelOf setting s node = leveled at htree ⊢
  obtain ⟨level, t⟩ := leveled
  simp only at htree ⊢
  rw [← htree]
  split
  · exact visitSynonym_labeled ..
  · have hnamed := nameHeader_labeled setting (linkHeader setting t node level).2 node call
      definition (linkHeader setting t node level).1 level
    rwa [tree_linkHeader] at hnamed

theorem tree_visitLink (setting : Setting) (s : State) (node : NodeId) (call : MacroCall)
    (titleOf : Option String) : (visitLink setting s node call titleOf).tree = s.tree := by
  unfold visitLink
  split <;> rfl

theorem tree_visitInclusion (setting : Setting) (s : State) (node : NodeId) (call : MacroCall) :
    (visitInclusion setting s node call).tree = s.tree := by
  unfold visitInclusion
  split <;> rfl

theorem visitCall_labeled (setting : Setting) (s : State) (visit : Visit) (call : MacroCall) :
    Labeled s.tree (visitCall setting s visit call).2.tree := by
  unfold visitCall
  split
  · exact .refl _
  · split
    · exact visitHeader_labeled ..
    · refine Labeled.trans ?_ (assignId_labeled ..)
      split
      · rw [tree_visitLink]
        exact .refl _
      · split
        · rw [tree_visitInclusion]
          exact .refl _
        · exact .refl _

-- ----------------------------------------------------------------------------
-- One visit
-- ----------------------------------------------------------------------------

theorem Stepped.labeled (h : Stepped registry rank u node later v) (hlabeled : Labeled t u) :
    Stepped registry rank t node later v := by
  have hsize := hlabeled.size_eq
  refine ⟨hlabeled.kept.trans h.kept, fun id hid => h.ranks id (hsize ▸ hid), fun id hid hne => ?_,
    fun owner howner child hchild => ?_, fun id hid => h.implied id (hsize ▸ hid)⟩
  · rw [h.others id (hsize ▸ hid) hne, hlabeled.below]
  · rw [← hlabeled.below, ← hsize]
    exact h.within owner (hsize ▸ howner) child hchild

theorem map_node_visitsBelow (visit : Visit) (call : MacroCall) (headerId : Option String) :
    (visitsBelow visit call headerId).map (·.node) = call.allChildren := by
  simp [visitsBelow, MacroCall.allChildren, List.map_flatMap, Function.comp_def]

/-- A visit arranges its macro, and goes on with what stands in it then. -/
theorem visitNode_shape (hr : setting.registry.Coherent)
    (h : Shape setting.registry rank visited s.tree) (hnode : visit.node < s.tree.size)
    (hnot : ∀ name, ¬ visited visit.node name) :
    let result := visitNode setting visit s
    result.1.map (·.node) = result.2.tree.below visit.node ∧ ∃ later,
      Shape setting.registry later (fun o name => visited o name ∨ o = visit.node) result.2.tree ∧
      Stepped setting.registry rank s.tree visit.node later result.2.tree := by
  unfold visitNode
  split
  · next hnone =>
    refine ⟨by simp [Tree.below, hnone], rank, h.congr ?_ ?_, .refl ..⟩
    · rintro o name (hvisited | rfl)
      · exact h.known o name hvisited
      · exact hnode
    · intro o call hcall _ _
      have hne : o ≠ visit.node := fun heq => by simp [heq, hnone] at hcall
      simp [hne]
  · next call hcall =>
    have hlabeled : Labeled s.tree (if visit.node = s.tree.root then ((none : Option String), s)
        else visitCall setting s visit call).2.tree := by
      split
      · exact .refl _
      · exact visitCall_labeled ..
    simp only
    generalize (if visit.node = s.tree.root then ((none : Option String), s)
      else visitCall setting s visit call) = called at hlabeled ⊢
    obtain ⟨headerId, t⟩ := called
    simp only at hlabeled ⊢
    have hshape := h.labeled hlabeled
    obtain ⟨written, hwritten, -⟩ := hlabeled.kept.call? hcall
    have harranged := arrangeAll_shape (s := t) hr hshape hwritten (hshape.names_nodup hr hwritten)
      fun argument hargument => ⟨hargument, hnot argument.name⟩
    simp only [hwritten]
    rw [hlabeled.kept.root_eq, ← arrange_eq] at harranged
    obtain ⟨later, harranged, hstepped⟩ := harranged
    obtain ⟨final, hfinal, -, -, hnames⟩ := hstepped.kept.call? hwritten
    simp only [hfinal]
    refine ⟨?_, later, harranged.congr ?_ ?_, hstepped.labeled hlabeled⟩
    · rw [map_node_visitsBelow, Tree.below_of_call? hfinal]
    · rintro o name (hvisited | rfl)
      · exact Nat.lt_of_lt_of_le (hshape.known o name hvisited) hstepped.kept.size_le
      · exact Nat.lt_of_lt_of_le hnode (hlabeled.kept.trans hstepped.kept).size_le
    · intro o other hother argument hargument
      refine ⟨fun hvisited => hvisited.imp_right (·.1), fun hvisited => ?_⟩
      refine hvisited.imp_right fun heq => ⟨heq, ?_⟩
      subst heq
      obtain rfl := Option.some.inj (hfinal.symm.trans hother)
      have hmem := congrArg (List.map (·.name)) hnames
      simp only [List.map_map, Function.comp_def] at hmem
      exact hmem ▸ List.mem_map_of_mem hargument

-- ----------------------------------------------------------------------------
-- All visits
-- ----------------------------------------------------------------------------

/-- A visit, and the state that it finds. -/
structure Arrival extends Visit where
  before : State

/-- The arrivals of several visits, each of which may go on below its node. -/
def inTurn (visit : Visit → State → State) (arrive : Visit → State → List Arrival) :
    List Visit → State → List Arrival
  | [], _ => []
  | next :: rest, s => arrive next s ++ inTurn visit arrive rest (visit next s)

def arrivals (setting : Setting) : Nat → Visit → State → List Arrival
  | 0, _, _ => []
  | depth + 1, visit, s =>
    let (below, t) := visitNode setting visit s
    ⟨visit, s⟩ :: inTurn (visitAll setting depth) (arrivals setting depth) below t

/-- The work that is left: the visits that wait, and the state that the first of them finds. -/
structure Agenda where
  waiting : List Visit
  state : State

/-- The first visit that waits is made, and what follows from it goes before the others. -/
def Agenda.next (setting : Setting) (agenda : Agenda) : Agenda :=
  match agenda.waiting with
  | [] => agenda
  | visit :: rest =>
    let (below, s) := visitNode setting visit agenda.state
    ⟨below ++ rest, s⟩

/-- The visits of a list, in its order, lead from one agenda to another. -/
inductive Agenda.Run (setting : Setting) : Agenda → List Arrival → Agenda → Prop
  | done (agenda : Agenda) : Run setting agenda [] agenda
  | visit {visit : Visit} {rest : List Visit} {s : State} {made : List Arrival} {last : Agenda} :
      Run setting (Agenda.next setting ⟨visit :: rest, s⟩) made last →
      Run setting ⟨visit :: rest, s⟩ (⟨visit, s⟩ :: made) last

theorem Agenda.Run.trans {a b c : Agenda} {made more : List Arrival} (h : Agenda.Run setting a made b)
    (h' : Agenda.Run setting b more c) : Agenda.Run setting a (made ++ more) c := by
  induction h with
  | done _ => exact h'
  | visit _ ih => exact .visit (ih h')

/-- The state after some visits of different nodes, the last of them first. What a node stands in
is visited before it. -/
inductive Visited (setting : Setting) (start : State) : List Arrival → State → Prop
  | start : Visited setting start [] start
  | visit {earlier : List Arrival} {s : State} {rank : NodeId → Nat} {visit : Visit} :
      Visited setting start earlier s →
      Shape setting.registry rank (fun id _ => id ∈ earlier.map (·.node)) s.tree →
      visit.node ∉ earlier.map (·.node) → visit.node < s.tree.size →
      (∀ owner, s.tree.parent? visit.node = some owner → owner ∈ earlier.map (·.node)) →
      Visited setting start (⟨visit, s⟩ :: earlier) (visitNode setting visit s).2

/-- Nothing is visited before what it stands in. -/
def Downward (t : Tree) (nodes : List NodeId) : Prop :=
  ∀ owner child, child ∈ t.below owner → child ∈ nodes → owner ∈ nodes

/-- From `t`, where `nodes` had been visited, the visits of `new` lead to `u`: of `node` and of
all below it, up to its children in `rest`. -/
structure Walk (rank : NodeId → Nat) (t : Tree) (nodes : List NodeId) (node : NodeId)
    (new rest : List NodeId) (later : NodeId → Nat) (u : Tree) : Prop where
  kept : t.Kept u
  ranks : ∀ id < t.size, later id = rank id
  frame : ∀ id < t.size, id ∉ new → u.below id = t.below id
  fresh : ∀ id ∈ new, id ∉ nodes
  first : node ∈ new
  under : ∀ id ∈ new, id ≠ node → ∃ owner ∈ new, id ∈ u.below owner
  closed : ∀ owner ∈ new, ∀ child ∈ u.below owner, child ∈ new ∨ owner = node ∧ child ∈ rest
  downward : Downward u (new ++ nodes)
  waiting : ∀ child ∈ rest, child ∈ u.below node ∧ child ∉ new ++ nodes
  distinct : rest.Nodup

variable {start : State} {nodes new rest : List NodeId} {last : NodeId → Nat} {depth : Nat}

theorem Shape.rank_lt {child : NodeId} (h : Shape registry rank (fun id _ => id ∈ nodes) t)
    (howner : owner ∈ nodes) (hchild : child ∈ t.below owner) : rank child < rank owner := by
  obtain ⟨call, hcall, hmem⟩ := Tree.mem_below.mp hchild
  obtain ⟨argument, hargument, hmem⟩ := List.mem_flatMap.mp hmem
  exact (h.arranged owner call hcall argument hargument howner child hmem).1

theorem Shape.acyclic {registry : Registry} (h : Shape registry rank visited t) : t.Acyclic := by
  refine ⟨rank, fun hchild => h.lt_of_below hchild, fun {owner child} hchild => ?_⟩
  obtain ⟨call, hcall, hmem⟩ := Tree.mem_below.mp hchild
  obtain ⟨argument, hargument, hmem⟩ := List.mem_flatMap.mp hmem
  by_cases hvisited : visited owner argument.name
  · exact (h.arranged owner call hcall argument hargument hvisited child hmem).1
  · obtain ⟨stage, -, hadmits⟩ := h.pending owner call hcall argument hargument hvisited
    have hroom : 0 < stage.room := by cases stage <;> decide
    have hrank := (hadmits child hmem).room
    omega

/-- The first visit of a walk. -/
theorem Stepped.walk (h : Stepped registry rank t node later u)
    (ht : Shape registry rank (fun id _ => id ∈ nodes) t)
    (hu : Shape registry later (fun id _ => id ∈ nodes ∨ id = node) u)
    (hdownward : Downward t nodes) (hnode : node < t.size) (hnot : node ∉ nodes)
    (hopen : ∀ owner, t.parent? node = some owner → owner ∈ nodes) :
    Walk rank t nodes node [node] (u.below node) later u := by
  have hself : node ∉ t.below node := fun hmem => hnot (hopen node (ht.parent hmem))
  have hnew : ∀ owner, owner = node ∨ t.size ≤ owner → ∀ child ∈ u.below owner,
      child ≠ node ∧ child ∉ nodes := by
    intro owner howner child hchild
    rcases h.within owner howner child hchild with hold | hfresh
    · exact ⟨fun heq => hself (heq ▸ hold), fun hmem => hnot (hdownward node child hold hmem)⟩
    · refine ⟨fun heq => ?_, fun hmem => ?_⟩
      · exact Nat.lt_irrefl _ (Nat.lt_of_lt_of_le (heq ▸ hnode) hfresh)
      · exact Nat.lt_irrefl _ (Nat.lt_of_lt_of_le (ht.known child "" hmem) hfresh)
  refine ⟨h.kept, h.ranks, fun id hid hne => h.others id hid (by simpa using hne), by simpa using hnot,
    by simp, by simp, ?_, ?_, ?_, hu.distinct node⟩
  · intro owner howner child hchild
    rw [List.mem_singleton.mp howner] at hchild ⊢
    exact .inr ⟨rfl, hchild⟩
  · intro owner child hchild hmem
    by_cases howner : owner = node ∨ t.size ≤ owner
    · obtain ⟨hne, hout⟩ := hnew owner howner child hchild
      simp only [List.singleton_append, List.mem_cons] at hmem
      exact absurd hmem (not_or.mpr ⟨hne, hout⟩)
    · obtain ⟨hne, hold⟩ := not_or.mp howner
      rw [h.others owner (Nat.lt_of_not_le hold) hne] at hchild
      simp only [List.singleton_append, List.mem_cons] at hmem ⊢
      rcases hmem with rfl | hmem
      · exact .inr (hopen owner (ht.parent hchild))
      · exact .inr (hdownward owner child hchild hmem)
  · intro child hchild
    obtain ⟨hne, hout⟩ := hnew node (.inl rfl) child hchild
    simpa using ⟨hchild, hne, hout⟩

theorem Walk.next {child : NodeId} {more : List NodeId}
    (h : Walk rank t nodes node new (child :: rest) later u)
    (hu : Shape registry later (fun id _ => id ∈ new ++ nodes) u)
    (h' : Walk later u (new ++ nodes) child more [] last v)
    (hv : Shape registry last (fun id _ => id ∈ more ++ (new ++ nodes)) v) :
    Walk rank t nodes node (more ++ new) rest last v := by
  have hlt : ∀ id, id < t.size → id < u.size := fun id hid =>
    Nat.lt_of_lt_of_le hid h.kept.size_le
  have hnodes : ∀ id ∈ new ++ nodes, id < u.size := fun id hid => hu.known id "" hid
  have hapart : ∀ id ∈ new ++ nodes, id ∉ more := fun id hid hmore => h'.fresh id hmore hid
  have hsame : ∀ id ∈ new ++ nodes, v.below id = u.below id := fun id hid =>
    h'.frame id (hnodes id hid) (hapart id hid)
  have hnode : node ∈ new ++ nodes := List.mem_append_left _ h.first
  refine ⟨h.kept.trans h'.kept, ?_, ?_, ?_, ?_, ?_, ?_, ?_, ?_, (List.nodup_cons.mp h.distinct).2⟩
  · intro id hid
    rw [h'.ranks id (hlt id hid), h.ranks id hid]
  · intro id hid hnot
    simp only [List.mem_append, not_or] at hnot
    rw [h'.frame id (hlt id hid) hnot.1, h.frame id hid hnot.2]
  · intro id hid hmem
    rcases List.mem_append.mp hid with hid | hid
    · exact h'.fresh id hid (List.mem_append_right _ hmem)
    · exact h.fresh id hid hmem
  · exact List.mem_append_right _ h.first
  · intro id hid hne
    rcases List.mem_append.mp hid with hid | hid
    · by_cases heq : id = child
      · refine ⟨node, List.mem_append_right _ h.first, ?_⟩
        rw [hsame node hnode, heq]
        exact (h.waiting child List.mem_cons_self).1
      · obtain ⟨owner, howner, hmem⟩ := h'.under id hid heq
        exact ⟨owner, List.mem_append_left _ howner, hmem⟩
    · obtain ⟨owner, howner, hmem⟩ := h.under id hid hne
      refine ⟨owner, List.mem_append_right _ howner, ?_⟩
      rwa [hsame owner (List.mem_append_left _ howner)]
  · intro owner howner id hid
    rcases List.mem_append.mp howner with howner | howner
    · have hmem := (h'.closed owner howner id hid).resolve_right (by simp)
      exact .inl (List.mem_append_left _ hmem)
    · rw [hsame owner (List.mem_append_left _ howner)] at hid
      rcases h.closed owner howner id hid with hmem | ⟨heq, hmem⟩
      · exact .inl (List.mem_append_right _ hmem)
      · rcases List.mem_cons.mp hmem with rfl | hmem
        · exact .inl (List.mem_append_left _ h'.first)
        · exact .inr ⟨heq, hmem⟩
  · rw [List.append_assoc]
    exact h'.downward
  · intro id hid
    obtain ⟨hbelow, hnot⟩ := h.waiting id (List.mem_cons_of_mem _ hid)
    have hbelow' : id ∈ v.below node := by rwa [hsame node hnode]
    refine ⟨hbelow', fun hmem => ?_⟩
    rw [List.append_assoc] at hmem
    rcases List.mem_append.mp hmem with hmore | hmem
    · have hne : id ≠ child := fun heq => (List.nodup_cons.mp h.distinct).1 (heq ▸ hid)
      obtain ⟨owner, howner, hchild⟩ := h'.under id hmore hne
      obtain rfl := Option.some.inj ((hv.parent hchild).symm.trans (hv.parent hbelow'))
      exact hapart owner hnode howner
    · exact hnot hmem

/-- A property of walks: of the visits of `new` that lead from `t` to `u`, of a node and of all below
it up to its children in `rest`. It holds of one visit, and goes on with the walk of a child. -/
structure Tracked (setting : Setting)
    (Q : (NodeId → Nat) → Tree → NodeId → List NodeId → List NodeId → Tree → Prop) : Prop where
  first : ∀ {rank : NodeId → Nat} {nodes : List NodeId} {s : State} (visit : Visit),
    Shape setting.registry rank (fun id _ => id ∈ nodes) s.tree → visit.node < s.tree.size →
    visit.node ∉ nodes →
    Q rank s.tree visit.node [visit.node] ((visitNode setting visit s).2.tree.below visit.node)
      (visitNode setting visit s).2.tree
  next : ∀ {rank later last : NodeId → Nat} {t u v : Tree} {node child : NodeId}
      {nodes new rest more : List NodeId},
    Walk rank t nodes node new (child :: rest) later u →
    Shape setting.registry later (fun id _ => id ∈ new ++ nodes) u →
    Walk later u (new ++ nodes) child more [] last v →
    Shape setting.registry last (fun id _ => id ∈ more ++ (new ++ nodes)) v →
    Q rank t node new (child :: rest) u → Q later u child more [] v →
    Q rank t node (more ++ new) rest v

variable {earlier made more : List Arrival} {visit child : Visit} {waiting : List Visit}
variable {Q : (NodeId → Nat) → Tree → NodeId → List NodeId → List NodeId → Tree → Prop}

/-- What is known when `made` have been visited from `s` on: a node and what stands below it, up to
the children that wait. -/
structure Tour (setting : Setting) (start : State)
    (Q : (NodeId → Nat) → Tree → NodeId → List NodeId → List NodeId → Tree → Prop)
    (earlier : List Arrival) (rank : NodeId → Nat) (visit : Visit) (s : State)
    (waiting : List Visit) (made : List Arrival) (later : NodeId → Nat) (u : State) : Prop where
  visited : Visited setting start (made ++ earlier) u
  run : ∀ behind,
    Agenda.Run setting ⟨visit :: behind, s⟩ made.reverse ⟨waiting ++ behind, u⟩
  shape : Shape setting.registry later (fun id _ => id ∈ (made ++ earlier).map (·.node)) u.tree
  walk : Walk rank s.tree (earlier.map (·.node)) visit.node (made.map (·.node))
    (waiting.map (·.node)) later u.tree
  tracked : Q rank s.tree visit.node (made.map (·.node)) (waiting.map (·.node)) u.tree

theorem Tour.first (htracked : Tracked setting Q) (hr : setting.registry.Coherent)
    (hvisited : Visited setting start earlier s)
    (hshape : Shape setting.registry rank (fun id _ => id ∈ earlier.map (·.node)) s.tree)
    (hdownward : Downward s.tree (earlier.map (·.node))) (hnode : visit.node < s.tree.size)
    (hnot : visit.node ∉ earlier.map (·.node))
    (hopen : ∀ owner, s.tree.parent? visit.node = some owner → owner ∈ earlier.map (·.node)) :
    ∃ later, later visit.node = rank visit.node ∧
      Tour setting start Q earlier rank visit s (visitNode setting visit s).1 [⟨visit, s⟩] later
        (visitNode setting visit s).2 := by
  obtain ⟨hbelow, later, hlater, hstepped⟩ := visitNode_shape hr hshape hnode fun _ => hnot
  have hwalk := hstepped.walk hshape hlater hdownward hnode hnot hopen
  have hfirst := htracked.first visit hshape hnode hnot
  rw [← hbelow] at hwalk hfirst
  exact ⟨later, hstepped.ranks visit.node hnode, hvisited.visit hshape hnot hnode hopen,
    fun _ => .visit (.done _), by simpa [or_comm] using hlater, hwalk, hfirst⟩

theorem Tour.next {u v : State} (htracked : Tracked setting Q)
    (h : Tour setting start Q earlier rank visit s (child :: waiting) made later u)
    (h' : Tour setting start Q (made ++ earlier) later child u [] more last v) :
    Tour setting start Q earlier rank visit s waiting (more ++ made) last v := by
  have hshape := h.shape
  have hshape' := h'.shape
  have hwalk' := h'.walk
  rw [List.map_append] at hshape hshape' hwalk'
  rw [List.map_append] at hshape'
  refine ⟨?_, fun behind => ?_, ?_, ?_, ?_⟩
  · rw [List.append_assoc]
    exact h'.visited
  · rw [List.reverse_append]
    exact (h.run behind).trans (h'.run (waiting ++ behind))
  · rw [List.append_assoc]
    exact h'.shape
  · rw [List.map_append]
    exact h.walk.next hshape hwalk' hshape'
  · rw [List.map_append]
    exact htracked.next h.walk hshape hwalk' hshape' h.tracked h'.tracked

theorem Tour.rank_lt {u : State} (h : Tour setting start Q earlier rank visit s waiting made later u) :
    ∀ next ∈ waiting, later next.node < later visit.node := by
  intro next hnext
  have hchild := (h.walk.waiting next.node (List.mem_map_of_mem hnext)).1
  have hvisit : visit.node ∈ (made ++ earlier).map (·.node) := by
    rw [List.map_append]
    exact List.mem_append_left _ h.walk.first
  exact h.shape.rank_lt hvisit hchild

theorem visitAll_tracked (htracked : Tracked setting Q) (depth : Nat) (visit : Visit)
    (hr : setting.registry.Coherent) (hvisited : Visited setting start earlier s)
    (hshape : Shape setting.registry rank (fun id _ => id ∈ earlier.map (·.node)) s.tree)
    (hdownward : Downward s.tree (earlier.map (·.node))) (hnode : visit.node < s.tree.size)
    (hnot : visit.node ∉ earlier.map (·.node))
    (hopen : ∀ owner, s.tree.parent? visit.node = some owner → owner ∈ earlier.map (·.node))
    (hdepth : rank visit.node < depth) :
    ∃ later, Tour setting start Q earlier rank visit s [] (arrivals setting depth visit s).reverse
      later (visitAll setting depth visit s) := by
  induction depth generalizing rank earlier s visit with
  | zero => exact absurd hdepth (Nat.not_lt_zero _)
  | succ depth ih =>
    obtain ⟨later, hrank, htour⟩ :=
      Tour.first htracked hr hvisited hshape hdownward hnode hnot hopen
    have hdepth : later visit.node ≤ depth := by omega
    simp only [visitAll, arrivals, List.reverse_cons]
    generalize visitNode setting visit s = result at htour ⊢
    obtain ⟨below, u⟩ := result
    simp only at htour ⊢
    generalize [(⟨visit, s⟩ : Arrival)] = made at htour ⊢
    -- the children are visited one after another
    induction below generalizing made later u with
    | nil => exact ⟨later, by simpa [inTurn] using htour⟩
    | cons next rest ihrest =>
      obtain ⟨hchild, hwaits⟩ := htour.walk.waiting next.node List.mem_cons_self
      rw [← List.map_append] at hwaits
      have hparent := htour.shape.parent hchild
      obtain ⟨last, htour'⟩ := ih next htour.visited htour.shape
        (List.map_append ▸ htour.walk.downward) (htour.shape.lt_of_below hchild) hwaits
        (fun owner howner => by
          obtain rfl := Option.some.inj (hparent.symm.trans howner)
          rw [List.map_append]
          exact List.mem_append_left _ htour.walk.first)
        (Nat.lt_of_lt_of_le (htour.rank_lt next List.mem_cons_self) hdepth)
      have hlater : last visit.node = later visit.node := by
        refine htour'.walk.ranks visit.node (htour.shape.known visit.node "" ?_)
        rw [List.map_append]
        exact List.mem_append_left _ htour.walk.first
      have hrest := ihrest last (hlater.trans hrank) (hlater ▸ hdepth) _ _
        (htour.next htracked htour')
      simpa [inTurn] using hrest

-- ----------------------------------------------------------------------------
-- The document as a whole
-- ----------------------------------------------------------------------------

/-- Four levels for every node that is older. -/
def writtenRank (id : Nat) : Nat := 4 * (id + 1)

theorem four_le_writtenRank (id : Nat) : 4 ≤ writtenRank id := by
  unfold writtenRank
  omega

theorem writtenRank_step {older younger : Nat} (h : older < younger) :
    writtenRank older + 4 ≤ writtenRank younger := by
  unfold writtenRank
  omega

theorem writtenRank_lt_depthBound {id : Nat} (h : id < t.size) : writtenRank id < depthBound t := by
  unfold writtenRank depthBound
  omega

/-- Before the assembly every argument waits as it was written. -/
theorem shape_of_grown (hgrown : t.Grown registry) (hrooted : t.Rooted) :
    Shape registry writtenRank (fun id _ => id ∈ ([] : List NodeId)) t := by
  have hranks : ∀ owner call, t.call? owner = some call → ∀ argument ∈ call.arguments,
      ∀ node ∈ argument.children, writtenRank node + 4 ≤ writtenRank owner := by
    intro owner call hcall argument hargument node hnode
    exact writtenRank_step (hgrown.older (Tree.mem_below_of_argument hcall hargument hnode))
  refine ⟨hrooted, hgrown.declared, by simp, ?_, by simp, ?_⟩
  · intro owner call hcall argument hargument _
    refine ⟨.written, four_le_writtenRank owner, fun node hnode => ⟨?_, by simp, by simp⟩⟩
    exact hranks owner call hcall argument hargument node hnode
  · intro call hcall argument hargument _
    exact ⟨four_le_writtenRank t.root, hranks t.root call hcall argument hargument⟩

theorem registerDocument_labeled (setting : Setting) (tree : Tree) :
    Labeled tree (registerDocument setting (.initial tree)).tree := by
  unfold registerDocument
  split
  · exact .refl _
  · simp only
    split
    · exact labeled_modifyCall _ _ (fun _ => rfl) (fun _ => rfl) fun _ => rfl
    · exact .refl _

end Macromark.Assembly
