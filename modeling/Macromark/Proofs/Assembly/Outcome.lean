import Macromark.Proofs.Assembly.Reading
import Macromark.Proofs.Assembly.Tree

/-!
# What the assembly makes of a document

A visit tidies the passage at its macro (`visitNode_passage`), and the visits
below it settle the passages of its children one after another. So the whole
assembly settles the passage at the root (`analyze_settlesTo`). What a visit
changes lies below its node (`Confined`), so that it is not seen from the other
children.
-/

namespace Macromark.Assembly

variable {α : Type} {label : NodeId → α} {fresh : α} {setting : Setting} {s : State}
variable {rank later : NodeId → Nat} {visited : NodeId → String → Prop} {t u v : Tree}
variable {node owner : NodeId} {call : MacroCall} {argument : Argument}

-- ----------------------------------------------------------------------------
-- One argument
-- ----------------------------------------------------------------------------

theorem face?_setChildren {name : String} {children : List NodeId} {id : NodeId}
    (hid : id ≠ owner) :
    (u.setChildren owner name children).face? id = u.face? id := by
  rw [Tree.setChildren, Tree.face?_modifyCall _ _ _ hid, Tree.face?_adopt]

theorem face?_arrangeOne {name : String} {isRoot : Bool} {id : NodeId} (hid : id ≠ owner) :
    (arrangeOne setting owner name isRoot s argument).tree.face? id =
      (arrangeArgument setting name isRoot argument s.tree).2.face? id := by
  simp only [arrangeOne]
  split
  · rfl
  · exact face?_setChildren hid

theorem Shape.passage_aside {registry : Registry} (h : Shape registry rank visited t)
    (hu : u.Acyclic)
    {nodes : List NodeId} (hnodes : nodes ⊆ t.below owner)
    (hfaces : ∀ id < t.size, id ≠ owner → id ∉ nodes → u.face? id = t.face? id) {child : NodeId}
    (hchild : child ∈ t.below owner) (hout : child ∉ nodes) :
    u.passage label child = t.passage label child := by
  have hacyclic := h.acyclic
  have hinside := h.lt_of_below hchild
  refine hacyclic.passage_congr hu hinside fun x hx => hfaces x (hacyclic.lt_of_reaches hinside hx) ?_ ?_
  · rintro rfl
    exact hacyclic.not_reaches hchild hx
  · intro hmem
    have heq := hacyclic.unrelated h.toLinked owner child hchild x (hnodes hmem) hx
    exact hout (heq ▸ hmem)

theorem Shape.arrangeOne_passages (h : Shape setting.registry rank visited s.tree)
    (hr : setting.registry.Coherent) (hfresh : ∀ id, s.tree.size ≤ id → label id = fresh)
    (hcall : s.tree.call? owner = some call) (hargument : argument ∈ call.arguments)
    (hnot : ¬ visited owner argument.name) :
    let t := (arrangeOne setting owner call.name (owner = s.tree.root) s argument).tree
    ∃ children, t.call? owner = some (call.setChildren argument.name children) ∧
      children.map (t.passage label) =
        Passage.tidyContent setting.registry fresh call.name (owner = s.tree.root) argument.name
          (argument.children.map (s.tree.passage label)) ∧
      (∀ id < s.tree.size, id ≠ owner → id ∉ argument.children →
        t.face? id = s.tree.face? id) ∧
      ∀ child ∈ s.tree.below owner, child ∉ argument.children →
        t.passage label child = s.tree.passage label child := by
  intro t
  have hsub : argument.children ⊆ s.tree.below owner := fun id hid =>
    Tree.mem_below_of_argument hcall hargument hid
  obtain ⟨-, later, hshape, -⟩ := h.visitArgument hr hcall hargument hnot
  obtain ⟨-, hplaced⟩ := h.arrangeOne_placed hr hcall hargument hnot
  obtain ⟨stage, -, -, hadmits⟩ := h.stage hcall hargument hnot
  have hremade := arrangeArgument_remade setting call.name (owner = s.tree.root) h.acyclic hfresh
    (h.row hcall hargument)
    ((h.acyclic.unrelated h.toLinked owner).subset hsub)
    fun id hid => Nat.le_trans (Nat.le_add_right _ _) (hadmits id hid).room
  have hfaces : ∀ id < s.tree.size, id ≠ owner → id ∉ argument.children →
      t.face? id = s.tree.face? id := by
    intro id hid hne hout
    rw [face?_arrangeOne hne, hremade.faces id hid hout]
  refine ⟨_, hplaced.call, ?_, hfaces, fun child hchild hout =>
    h.passage_aside hshape.acyclic hsub hfaces hchild hout⟩
  rw [← hremade.passages]
  refine List.map_congr_left fun id hid => Eq.symm ?_
  obtain ⟨before, after, -, hbelow⟩ :=
    hplaced.below_split hcall (h.names_nodup hr hcall) hargument
  have hchild : id ∈ t.below owner := by rw [hbelow]; simp [hid]
  refine hshape.acyclic.passage_congr hremade.acyclic (hshape.lt_of_below hchild) fun x hx => ?_
  refine (face?_arrangeOne fun heq => ?_).symm
  exact hshape.acyclic.not_reaches hchild (heq ▸ hx)

-- ----------------------------------------------------------------------------
-- One macro
-- ----------------------------------------------------------------------------

theorem Shape.not_mem_other {registry : Registry} (h : Shape registry rank visited t)
    (hcall : t.call? owner = some call) {done rest : List Argument}
    (harguments : call.arguments = done ++ argument :: rest) {other : Argument}
    (hother : other ∈ done ++ rest) {child : NodeId} (hchild : child ∈ other.children) :
    child ∉ argument.children := by
  intro hmem
  have hdistinct := h.distinct owner
  rw [Tree.below_of_call? hcall, MacroCall.allChildren, harguments, List.flatMap_append,
    List.flatMap_cons] at hdistinct
  obtain ⟨-, hback, hfront⟩ := List.nodup_append.mp hdistinct
  rcases List.mem_append.mp hother with hother | hother
  · exact hfront child (List.mem_flatMap.mpr ⟨other, hother, hchild⟩) child
      (List.mem_append_left _ hmem) rfl
  · exact (List.nodup_append.mp hback).2.2 child hmem child
      (List.mem_flatMap.mpr ⟨other, hother, hchild⟩) rfl

/-- The passages in `done` stay, and those in `rest` are tidied. -/
theorem arrangeAll_passages (done rest : List Argument) (hr : setting.registry.Coherent)
    (h : Shape setting.registry rank visited s.tree)
    (hfresh : ∀ id, s.tree.size ≤ id → label id = fresh) (hcall : s.tree.call? owner = some call)
    (harguments : call.arguments = done ++ rest)
    (hnot : ∀ argument ∈ rest, ¬ visited owner argument.name) :
    let t := (rest.foldl (arrangeOne setting owner call.name (owner = s.tree.root)) s).tree
    (∃ final, t.call? owner = some final ∧ final.name = call.name ∧
      final.synthetic = call.synthetic ∧
      final.arguments.map (·.slot (t.passage label)) =
        done.map (·.slot (s.tree.passage label)) ++ rest.map fun argument =>
          (argument.slot (s.tree.passage label)).tidy setting.registry fresh call.name
            (owner = s.tree.root)) ∧
    ∀ id < s.tree.size, id ≠ owner → id ∉ s.tree.below owner → t.face? id = s.tree.face? id := by
  induction rest generalizing s rank visited call done with
  | nil => exact ⟨⟨call, hcall, rfl, rfl, by simp [harguments]⟩, fun _ _ _ _ => rfl⟩
  | cons argument rest ih =>
    have hargument : argument ∈ call.arguments := by simp [harguments]
    have hnames := h.names_nodup hr hcall
    have hnot' := hnot argument List.mem_cons_self
    obtain ⟨children, hafter, htidied, hfaces, hothers⟩ :=
      h.arrangeOne_passages hr hfresh hcall hargument hnot'
    obtain ⟨-, later, hshape, hstepped⟩ := h.visitArgument hr hcall hargument hnot'
    simp only [List.foldl_cons]
    generalize arrangeOne setting owner call.name (owner = s.tree.root) s argument = t at *
    have hroot := hstepped.kept.root_eq
    have hsplit : (call.arguments.map (·.name)) =
        done.map (·.name) ++ argument.name :: rest.map (·.name) := by simp [harguments]
    rw [hsplit] at hnames
    obtain ⟨-, hback, hfront⟩ := List.nodup_append.mp hnames
    have hset : (call.setChildren argument.name children).arguments =
        (done ++ [{ argument with children }]) ++ rest := by
      rw [MacroCall.setChildren, harguments, MacroCall.setChildren_go_eq]
      · simp
      · exact fun other hother => hfront _ (List.mem_map_of_mem hother) _ List.mem_cons_self
    have hrest : ∀ other ∈ rest,
        ¬ (visited owner other.name ∨ owner = owner ∧ other.name = argument.name) := by
      rintro other hother (hvisited | ⟨-, heq⟩)
      · exact hnot other (List.mem_cons_of_mem _ hother) hvisited
      · exact (List.nodup_cons.mp hback).1 (heq ▸ List.mem_map_of_mem hother)
    have hnext := ih _ hshape (fun id hid => hfresh id (Nat.le_trans hstepped.kept.size_le hid)) hafter
      hset hrest
    simp only [hroot, MacroCall.name_setChildren] at hnext
    obtain ⟨⟨final, hfinal, hname, hsynthetic, hslots⟩, hlast⟩ := hnext
    have hsame : ∀ other ∈ done ++ rest, other.slot (t.tree.passage label) =
        other.slot (s.tree.passage label) := by
      intro other hother
      refine Argument.slot_congr fun child hchild => hothers child ?_ ?_
      · have hmem : other ∈ call.arguments := by
          rw [harguments]
          exact (List.sublist_cons_self _ _).append_left done |>.subset hother
        exact Tree.mem_below_of_argument hcall hmem hchild
      · exact h.not_mem_other hcall harguments hother hchild
    refine ⟨⟨final, hfinal, hname, hsynthetic, ?_⟩, fun id hid hne hout => ?_⟩
    · rw [hslots, List.map_append, List.append_assoc, List.map_singleton, List.map_cons,
        List.singleton_append]
      congr 1
      · exact List.map_congr_left fun other hother => hsame other (List.mem_append_left _ hother)
      · congr 1
        · simp [Argument.slot, Slot.tidy, htidied]
        · refine List.map_congr_left fun other hother => ?_
          rw [hsame other (List.mem_append_right _ hother)]
    · rw [hlast id (Nat.lt_of_lt_of_le hid hstepped.kept.size_le) hne, hfaces id hid hne]
      · exact fun hmem => hout (Tree.mem_below_of_argument hcall hargument hmem)
      · intro hmem
        rcases hstepped.within owner (.inl rfl) id hmem with hmem | hnew
        · exact hout hmem
        · exact Nat.lt_irrefl _ (Nat.lt_of_lt_of_le hid hnew)

theorem tidy_of_call?_none (h : t.Acyclic) (hnone : t.call? node = none) (hnode : node < t.size)
    (registry : Registry) (isRoot : Bool) :
    (t.passage label node).tidy registry fresh isRoot = t.passage label node := by
  obtain ⟨written, hwritten⟩ := Tree.lt_size_iff.mp hnode
  rw [h.passage_of_get? hwritten]
  cases hkind : written.kind <;> simp_all [Tree.call?, Node.call?, NodeKind.passage, Passage.tidy]

/-- A visit tidies the passage at its node, and changes nothing outside of it. -/
theorem visitNode_passage {visit : Visit} (hr : setting.registry.Coherent)
    (h : Shape setting.registry rank visited s.tree) (hnode : visit.node < s.tree.size)
    (hnot : ∀ name, ¬ visited visit.node name)
    (hfresh : ∀ id, s.tree.size ≤ id → label id = fresh) :
    let u := (visitNode setting visit s).2.tree
    u.passage label visit.node =
      (s.tree.passage label visit.node).tidy setting.registry fresh (visit.node = s.tree.root) ∧
    ∀ id < s.tree.size, id ≠ visit.node → id ∉ s.tree.below visit.node →
      u.face? id = s.tree.face? id := by
  have hacyclic : (visitNode setting visit s).2.tree.Acyclic := by
    obtain ⟨-, later, hshape, -⟩ := visitNode_shape hr h hnode hnot
    exact hshape.acyclic
  unfold visitNode at hacyclic ⊢
  split
  · next hnone => exact ⟨(tidy_of_call?_none h.acyclic hnone hnode _ _).symm, fun _ _ _ _ => rfl⟩
  · next call hcall =>
    have hlabeled : Labeled s.tree (if visit.node = s.tree.root then ((none : Option String), s)
        else visitCall setting s visit call).2.tree := by
      split
      · exact .refl _
      · exact visitCall_labeled ..
    simp only [hcall] at hacyclic ⊢
    generalize (if visit.node = s.tree.root then ((none : Option String), s)
      else visitCall setting s visit call) = called at hlabeled hacyclic ⊢
    obtain ⟨headerId, t⟩ := called
    simp only at hlabeled hacyclic ⊢
    have hshape := h.labeled hlabeled
    have hsize := hlabeled.size_eq
    obtain ⟨written, hwritten, -⟩ := hlabeled.kept.call? hcall
    have hsame : t.tree.passage label visit.node = s.tree.passage label visit.node :=
      h.acyclic.passage_eq_of_faces hshape.acyclic hlabeled.faces hnode
    have harranged := arrangeAll_passages [] written.arguments hr hshape
      (fun id hid => hfresh id (hsize ▸ hid)) hwritten rfl fun argument _ => hnot argument.name
    rw [hlabeled.kept.root_eq, ← arrange_eq] at harranged
    obtain ⟨⟨final, hfinal, hname, hsynthetic, hslots⟩, hfaces⟩ := harranged
    simp only [hwritten, hfinal] at hacyclic ⊢
    refine ⟨?_, fun id hid hne hout => ?_⟩
    · rw [← hsame, hacyclic.passage_of_call? hfinal, hshape.acyclic.passage_of_call? hwritten,
        hname, hsynthetic, hslots, Passage.tidy, List.map_map]
      rfl
    · rw [hfaces id (hsize ▸ hid) hne (hlabeled.below _ ▸ hout), hlabeled.faces]

-- ----------------------------------------------------------------------------
-- What stays below a node
-- ----------------------------------------------------------------------------

/-- From `t` to `u` only what stands below `node` has changed, and only what was there and what is
new stands there now. -/
structure Confined (t : Tree) (node : NodeId) (u : Tree) : Prop where
  size_le : t.size ≤ u.size
  closed : ∀ x, t.size ≤ x ∨ t.Reaches node x → ∀ y ∈ u.below x, t.size ≤ y ∨ t.Reaches node y
  faces : ∀ x < t.size, ¬ t.Reaches node x → u.face? x = t.face? x

theorem Confined.reaches (h : Confined t node u) {x y : NodeId} (hx : t.size ≤ x ∨ t.Reaches node x)
    (hy : u.Reaches x y) : t.size ≤ y ∨ t.Reaches node y := by
  induction hy with
  | refl => exact hx
  | tail _ hstep ih => exact h.closed _ ih _ hstep

theorem Confined.next {child : NodeId} (h : Confined t node u) (h' : Confined u child v)
    (hchild : child ∈ u.below node) : Confined t node v := by
  have hback : ∀ x, u.size ≤ x ∨ u.Reaches child x → t.size ≤ x ∨ t.Reaches node x := by
    rintro x (hx | hx)
    · exact .inl (Nat.le_trans h.size_le hx)
    · exact h.reaches (.inr .refl) (.head hchild hx)
  refine ⟨Nat.le_trans h.size_le h'.size_le, fun x hx y hy => ?_, fun x hx hout => ?_⟩
  · by_cases hin : u.size ≤ x ∨ u.Reaches child x
    · exact hback y (h'.closed x hin y hy)
    · obtain ⟨hlt, hout⟩ := not_or.mp hin
      rw [Tree.below_congr (h'.faces x (Nat.lt_of_not_le hlt) hout)] at hy
      exact h.closed x hx y hy
  · have hold := Nat.lt_of_lt_of_le hx h.size_le
    rw [h'.faces x hold fun hreaches => ?_, h.faces x hx hout]
    exact (hback x (.inr hreaches)).elim (Nat.not_le_of_lt hx) hout

theorem Stepped.confined {registry : Registry} (h : Stepped registry rank t node later u)
    (hfaces : ∀ id < t.size, id ≠ node → id ∉ t.below node → u.face? id = t.face? id) :
    Confined t node u := by
  refine ⟨h.kept.size_le, fun x hx y hy => ?_, fun x hx hout => hfaces x hx ?_ ?_⟩
  · by_cases hnew : x = node ∨ t.size ≤ x
    · rcases h.within x hnew y hy with hmem | hfresh
      · exact .inr (.single hmem)
      · exact .inl hfresh
    · obtain ⟨hne, hlt⟩ := not_or.mp hnew
      rw [h.others x (Nat.lt_of_not_le hlt) hne] at hy
      exact .inr ((hx.resolve_left hlt).tail hy)
  · rintro rfl
    exact hout .refl
  · exact fun hmem => hout (.single hmem)

-- ----------------------------------------------------------------------------
-- All visits
-- ----------------------------------------------------------------------------

theorem mapContent_passage (f : Passage α → Passage α) (mark : α) (below : NodeId → Passage α)
    (kind : NodeKind) :
    (kind.passage mark below).mapContent f = kind.passage mark fun id => f (below id) := by
  cases kind <;> simp [NodeKind.passage, Passage.mapContent, Argument.slot, Slot.map]

/-- The visits from `t` to `u` have tidied the passage at `node` and settled those of its children,
up to the children in `rest`; `w` was the tree after the visit of `node`. -/
structure Settled (registry : Registry) (fresh : α) (label : NodeId → α) (rank : NodeId → Nat)
    (t : Tree) (node : NodeId) (rest : List NodeId) (w u : Tree) : Prop where
  inside : node < t.size
  confined : Confined t node u
  acyclic : w.Acyclic
  tidied : w.passage label node = (t.passage label node).tidy registry fresh (node = t.root)
  face : u.face? node = w.face? node
  waiting : ∀ child ∈ rest, u.passage label child = w.passage label child
  settled : ∀ child ∈ w.below node, child ∉ rest → ∀ depth, rank node ≤ depth →
    u.passage label child = (w.passage label child).settle registry fresh depth false

/-- When no child is left, the passage at the node is settled. -/
theorem Settled.outcome {registry : Registry} {w : Tree}
    (h : Settled registry fresh label rank t node [] w u) (hu : u.Acyclic) {depth : Nat}
    (hdepth : rank node < depth) :
    u.passage label node =
      (t.passage label node).settle registry fresh depth (node = t.root) := by
  obtain ⟨depth, rfl⟩ := Nat.exists_eq_add_one_of_ne_zero (Nat.ne_of_gt (Nat.zero_lt_of_lt hdepth))
  obtain ⟨kind, hface⟩ := Tree.exists_face? (Nat.lt_of_lt_of_le h.inside h.confined.size_le)
  have hbefore := h.face ▸ hface
  rw [Passage.settle, ← h.tidied, hu.passage_eq hface, h.acyclic.passage_eq hbefore,
    mapContent_passage]
  refine NodeKind.passage_congr fun child hchild => ?_
  exact h.settled child (Tree.below_of_face? hbefore ▸ hchild) (by simp) depth
    (Nat.le_of_lt_succ hdepth)

theorem settled_tracked (setting : Setting) (hr : setting.registry.Coherent) (fresh : α)
    (label : NodeId → α) :
    Tracked setting fun rank t node _ rest u => (∀ id, t.size ≤ id → label id = fresh) →
      ∃ w, Settled setting.registry fresh label rank t node rest w u := by
  refine ⟨fun {rank nodes s} visit hshape hnode hnot hfresh => ?_, ?_⟩
  · obtain ⟨-, later, hlater, hstepped⟩ := visitNode_shape hr hshape hnode fun _ => hnot
    obtain ⟨htidied, hfaces⟩ := visitNode_passage hr hshape hnode (fun _ => hnot) hfresh
    exact ⟨_, hnode, hstepped.confined hfaces, hlater.acyclic, htidied, rfl, fun _ _ => rfl,
      fun child hchild hout => absurd hchild hout⟩
  · intro rank later last t u v node child nodes new rest more hwalk hu hwalk' hv hQ hQ' hfresh
    obtain ⟨w, hsettled⟩ := hQ hfresh
    obtain ⟨w', hchild⟩ := hQ' fun id hid => hfresh id (Nat.le_trans hwalk.kept.size_le hid)
    have hacyclic := hu.acyclic
    have hbelow : u.below node = w.below node := Tree.below_congr hsettled.face
    have hmem : child ∈ u.below node := (hwalk.waiting child List.mem_cons_self).1
    have hnode : node < u.size := Nat.lt_of_lt_of_le hsettled.inside hwalk.kept.size_le
    -- the other children do not see the visits below this one
    have hothers : ∀ other ∈ u.below node, other ≠ child →
        v.passage label other = u.passage label other := by
      intro other hother hne
      have hlt := hu.lt_of_below hother
      refine hacyclic.passage_congr hv.acyclic hlt fun x hx => ?_
      exact hchild.confined.faces x (hacyclic.lt_of_reaches hlt hx)
        fun hreaches => hacyclic.disjoint hu.toLinked hmem hother (Ne.symm hne) hreaches hx
    have hne : ∀ other ∈ rest, other ≠ child := by
      rintro other hother rfl
      exact (List.nodup_cons.mp hwalk.distinct).1 hother
    refine ⟨w, hsettled.inside, hsettled.confined.next hchild.confined hmem, hsettled.acyclic, hsettled.tidied, ?_,
      fun other hother => ?_, fun other hother hout depth hdepth => ?_⟩
    · rw [hchild.confined.faces node hnode (hacyclic.not_reaches hmem), hsettled.face]
    · rw [hothers other (hwalk.waiting other (List.mem_cons_of_mem _ hother)).1 (hne other hother)]
      exact hsettled.waiting other (List.mem_cons_of_mem _ hother)
    · by_cases heq : other = child
      · subst heq
        have hrank := hu.rank_lt (List.mem_append_left _ hwalk.first) hmem
        rw [hwalk.ranks node hsettled.inside] at hrank
        have hroot : other ≠ u.root := by
          rintro rfl
          simpa [hu.top] using hu.parent hmem
        rw [hchild.outcome hv.acyclic (Nat.lt_of_lt_of_le hrank hdepth),
          hsettled.waiting other List.mem_cons_self, decide_eq_false hroot]
      · rw [hothers other (hbelow ▸ hother) heq]
        exact hsettled.settled other hother (by simp [heq, hout]) depth hdepth

-- ----------------------------------------------------------------------------
-- The document as a whole
-- ----------------------------------------------------------------------------

theorem assemble_tree (registry : Registry) (document : String) (hrooted : t.Rooted) :
    (assemble registry document t).tree =
      (visitAll ⟨registry, document⟩ (depthBound t) ⟨t.root, none⟩
        (registerDocument ⟨registry, document⟩ (.initial t))).tree :=
  congrArg (·.tree) (assemble_eq registry document hrooted)

/-- The assembly settles the passage at the root. The nodes that it makes are marked as fresh, and
those of the tree that it begins with as `label` says. -/
theorem assemble_settles {registry : Registry} (hr : registry.Coherent) (document : String)
    (hgrown : t.Grown registry) (hrooted : t.Rooted) (hfresh : ∀ id, t.size ≤ id → label id = fresh)
    {depth : Nat} (hdepth : depthBound t ≤ depth) :
    (assemble registry document t).tree.passage label t.root =
      (t.passage label t.root).settle registry fresh depth true := by
  have hlabeled : Labeled t (registerDocument ⟨registry, document⟩ (.initial t)).tree :=
    registerDocument_labeled ⟨registry, document⟩ t
  have hbefore := shape_of_grown hgrown hrooted
  have hshape := hbefore.labeled hlabeled
  have hroot := hlabeled.kept.root_eq
  have hsize := hlabeled.size_eq
  rw [assemble_tree registry document hrooted]
  obtain ⟨later, -, -, hlater, -, hsettled⟩ := visitAll_tracked
    (settled_tracked ⟨registry, document⟩ hr fresh label) (depthBound t) ⟨t.root, none⟩ hr
    .start hshape (fun _ _ _ h => absurd h (by simp)) (hsize ▸ hrooted.root_lt) (by simp)
    (fun owner howner => by simp [← hroot, hshape.top] at howner)
    (writtenRank_lt_depthBound hrooted.root_lt)
  obtain ⟨w, hsettled⟩ := hsettled fun id hid => hfresh id (hsize ▸ hid)
  rw [hsettled.outcome hlater.acyclic
    (Nat.lt_of_lt_of_le (writtenRank_lt_depthBound hrooted.root_lt) hdepth), hroot, decide_eq_true rfl,
    hbefore.acyclic.passage_eq_of_faces hshape.acyclic hlabeled.faces hrooted.root_lt]

end Macromark.Assembly

namespace Macromark

open Assembly (depthBound assemble_settles shape_of_grown)

/-- `u` is `t` with the passage at its root settled, whatever the nodes are marked with. -/
structure Tree.SettlesTo (registry : Registry) (t u : Tree) : Prop where
  before : t.Acyclic
  root_lt : t.root < t.size
  acyclic : u.Acyclic
  linked : u.Linked
  kept : t.Kept u
  passage : ∀ {α : Type} (label : NodeId → α) {fresh : α}, (∀ id, t.size ≤ id → label id = fresh) →
    ∀ {depth}, depthBound t ≤ depth →
      u.passage label t.root = (t.passage label t.root).settle registry fresh depth true

theorem Tree.SettlesTo.root_inside {registry : Registry} {t u : Tree} (h : t.SettlesTo registry u) :
    u.root < u.size := by
  rw [h.kept.root_eq]
  exact Nat.lt_of_lt_of_le h.root_lt h.kept.size_le

theorem analyze_settlesTo {registry : Registry} (hr : registry.Coherent)
    (document source : String) :
    (parse registry (tokenize source).tokens).tree.SettlesTo registry
      (analyze registry document source).tree := by
  obtain ⟨hgrown, hrooted, -, -⟩ := parse_tree registry (tokenize source).tokens
  obtain ⟨made, rank, final, -, hassemble, hshape, hkept, -⟩ :=
    assemble_visited hr document hgrown hrooted
  have htree : (analyze registry document source).tree = final.tree := by
    rw [analyze]
    exact congrArg (·.tree) hassemble
  rw [htree]
  refine ⟨(shape_of_grown hgrown hrooted).acyclic, hrooted.root_lt, hshape.acyclic, hshape.toLinked,
    hkept, fun label fresh hfresh depth hdepth => ?_⟩
  have hsettles := assemble_settles hr document hgrown hrooted hfresh hdepth
  rwa [hassemble] at hsettles

end Macromark
