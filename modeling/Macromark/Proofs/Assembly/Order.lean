import Macromark.Proofs.Assembly.Visits

/-!
# The order of the visits

The tree changes ahead of the visits, but what a visit leaves below its node
stays there. So the visits go through the finished tree in reading order
(`visits_visited`).
-/

namespace Macromark.Assembly

variable {registry : Registry} {rank later last : NodeId → Nat} {t u v : Tree} {setting : Setting}
variable {node child : NodeId} {nodes new rest more : List NodeId}

/-- The visits of `new`, the last of them first, have gone through `node` and all below it in
reading order, up to the children of `node` in `rest`. -/
def InOrder (u : Tree) (node : NodeId) (new rest : List NodeId) : Prop :=
  ∃ done, u.below node = done ++ rest ∧ new.reverse = node :: done.flatMap u.preorder

theorem InOrder.preorder (h : InOrder u node new []) (hu : u.Acyclic) (hnode : node < u.size) :
    new.reverse = u.preorder node := by
  obtain ⟨done, hbelow, hnew⟩ := h
  rw [hnew, hu.preorder_eq hnode, hbelow, List.append_nil]

/-- What has been visited below a node before its child is not below the child. -/
theorem Walk.reaches_new {done : List NodeId} (h : Walk rank t nodes node new (child :: rest) later u)
    (hu : Shape registry later (fun id _ => id ∈ new ++ nodes) u)
    (hbelow : u.below node = done ++ child :: rest) {first x : NodeId} (hfirst : first ∈ done)
    (hx : u.Reaches first x) : x ∈ new := by
  have hmem : first ∈ u.below node := hbelow ▸ List.mem_append_left _ hfirst
  have hdistinct := hu.distinct node
  rw [hbelow] at hdistinct
  induction hx with
  | refl =>
    refine (h.closed node h.first first hmem).resolve_right fun hwaits => ?_
    exact (List.nodup_append.mp hdistinct).2.2 first hfirst first hwaits.2 rfl
  | @tail owner x howner hchild ih =>
    refine (h.closed owner ih x hchild).resolve_right fun hwaits => ?_
    exact hu.acyclic.not_reaches hmem (hwaits.1 ▸ howner)

theorem inOrder_tracked (setting : Setting) :
    Tracked setting fun _ _ node new rest u => InOrder u node new rest := by
  refine ⟨fun visit _ _ _ => ⟨[], rfl, rfl⟩, ?_⟩
  intro rank later last t u v node child nodes new rest more hwalk hu hwalk' hv hQ hQ'
  obtain ⟨done, hbelow, hnew⟩ := hQ
  have hchild : child < u.size := hu.lt_of_below (hwalk.waiting child List.mem_cons_self).1
  have hnode : node < u.size := hu.known node "" (List.mem_append_left _ hwalk.first)
  have hmore := hQ'.preorder hv.acyclic (Nat.lt_of_lt_of_le hchild hwalk'.kept.size_le)
  have hsame : ∀ x ∈ new, v.below x = u.below x := fun x hx =>
    hwalk'.frame x (hu.known x "" (List.mem_append_left _ hx))
      fun hmem => hwalk'.fresh x hmem (List.mem_append_left _ hx)
  have hdone : done.flatMap v.preorder = done.flatMap u.preorder := by
    refine List.flatMap_congr fun first hfirst => ?_
    have hmem : first ∈ u.below node := hbelow ▸ List.mem_append_left _ hfirst
    have hlt := hu.lt_of_below hmem
    exact hu.acyclic.preorder_congr hv.acyclic hwalk'.kept.size_le hlt fun x hx =>
      hsame x (hwalk.reaches_new hu hbelow hfirst hx)
  refine ⟨done ++ [child], ?_, ?_⟩
  · rw [hsame node hwalk.first, hbelow, List.append_assoc, List.singleton_append]
  · rw [List.reverse_append, hnew, hmore, List.flatMap_append, List.flatMap_singleton, hdone,
      List.cons_append]

def visits (setting : Setting) (t : Tree) : List Arrival :=
  arrivals setting (depthBound t) ⟨t.root, none⟩ (registerDocument setting (.initial t))

/-- Everything below the root is visited once, in the order of the finished tree. -/
theorem visits_visited (setting : Setting) (hr : setting.registry.Coherent)
    (hgrown : t.Grown setting.registry) (hrooted : t.Rooted) :
    let start := registerDocument setting (.initial t)
    let final := visitAll setting (depthBound t) ⟨t.root, none⟩ start
    let made := (visits setting t).reverse
    ∃ rank, Visited setting start made final ∧
      Agenda.Run setting ⟨[⟨t.root, none⟩], start⟩ (visits setting t) ⟨[], final⟩ ∧
      Shape setting.registry rank (fun id _ => id ∈ made.map (·.node)) final.tree ∧
      t.Kept final.tree ∧ (visits setting t).map (·.node) = final.tree.preorder final.tree.root := by
  intro start final made
  have hlabeled : Labeled t start.tree := registerDocument_labeled setting t
  have hshape := (shape_of_grown hgrown hrooted).labeled hlabeled
  have hroot : start.tree.root = t.root := hlabeled.kept.root_eq
  have htop : start.tree.parent? t.root = none := hroot ▸ hshape.top
  obtain ⟨rank, hvisited, hrun, hfinal, hwalk, horder⟩ := visitAll_tracked (inOrder_tracked setting)
    (depthBound t) ⟨t.root, none⟩ hr .start hshape (fun _ _ _ h => absurd h (by simp))
    (hroot ▸ hshape.root_lt) (by simp) (fun owner howner => by simp [htop] at howner)
    (writtenRank_lt_depthBound hrooted.root_lt)
  simp only [List.append_nil] at hvisited hfinal
  replace hrun := hrun []
  rw [List.reverse_reverse] at hrun
  refine ⟨rank, hvisited, hrun, hfinal, hlabeled.kept.trans hwalk.kept, ?_⟩
  have hroot' : final.tree.root = t.root := hwalk.kept.root_eq.trans hroot
  have hlt : t.root < final.tree.size := hroot' ▸ hfinal.root_lt
  rw [hroot', ← InOrder.preorder horder hfinal.acyclic hlt, ← List.map_reverse, List.reverse_reverse]
  rfl

end Macromark.Assembly
