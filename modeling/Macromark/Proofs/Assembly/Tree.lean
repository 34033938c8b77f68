import Macromark.Compile
import Macromark.Proofs.Assembly.Order
import Macromark.Registry.Builtin

/-!
# An analyzed document is a tree

Nodes are numbers, so that nothing in their type keeps a node from standing in
two arguments, in itself, or in nothing. `Tree.IsTree` says that none of this
comes about below the root, and `analyze_isTree` that it holds of every analyzed
document.
-/

namespace Macromark

/-- What is reached from the root is a tree of macros with the arguments of
their definitions. -/
structure Tree.IsTree (registry : Registry) (t : Tree) : Prop where
  /-- No number leads out of the tree, be it of a child or of a parent. -/
  inside : t.root < t.size ∧ (∀ owner, ∀ child ∈ t.below owner, child < t.size) ∧
    ∀ child owner, t.parent? child = some owner → owner < t.size
  root : t.parent? t.root = none ∧ ∀ owner, t.root ∉ t.below owner
  once : ∀ id, t.Reaches t.root id → id ≠ t.root → ∃ owner, t.Reaches t.root owner ∧
    (t.below owner).count id = 1 ∧ t.parent? id = some owner ∧
    ∀ other, id ∈ t.below other → other = owner
  whole : ∀ id, t.Reaches t.root id → t.isParagraphBreak id = false
  declared : ∀ id call, t.Reaches t.root id → t.call? id = some call →
    ∃ d, registry.get? call.name = some d ∧ call.arguments.map (·.name) = d.argumentNames
  /-- The nodes above a node end with one that has no parent. -/
  ancestors : ∀ id, t.Reaches t.root id → t.Lineage id (t.ancestors id)
  descendants : ∀ a b, t.Reaches t.root a → (b ∈ t.preorder a ↔ t.Reaches a b)
  above : ∀ a b, t.Reaches t.root a → t.Reaches t.root b → a ≠ b →
    (a ∈ t.ancestors b ↔ b ∈ t.preorder a)

namespace Assembly

variable {registry : Registry} {rank : NodeId → Nat} {t : Tree} {nodes : List NodeId}

theorem Shape.isTree (h : Shape registry rank (fun id _ => id ∈ nodes) t)
    (hreached : ∀ id, t.Reaches t.root id → id ∈ nodes)
    (hroot : t.isParagraphBreak t.root = false) : t.IsTree registry := by
  refine ⟨⟨h.root_lt, fun _ _ hchild => h.lt_of_below hchild, fun _ _ hparent => h.inside hparent⟩,
    ⟨h.top, fun owner hmem => ?_⟩, ?_, ?_, fun id call _ hcall => h.declared id call hcall, ?_,
    fun a b ha => h.mem_preorder_iff ha, fun a b ha hb hne => h.mem_ancestors_iff ha hb hne⟩
  · simpa [h.top] using h.parent hmem
  · intro id hid hne
    cases hid with
    | refl => exact absurd rfl hne
    | @tail owner _ howner hchild =>
      refine ⟨owner, howner, List.count_eq_one_of_mem (h.distinct owner) hchild, h.parent hchild, ?_⟩
      exact fun other hother => Option.some.inj ((h.parent hother).symm.trans (h.parent hchild))
  · intro id hid
    cases hid with
    | refl => exact hroot
    | @tail owner _ howner hchild =>
      obtain ⟨call, hcall, hmem⟩ := Tree.mem_below.mp hchild
      obtain ⟨argument, hargument, hmem⟩ := List.mem_flatMap.mp hmem
      exact (h.arranged owner call hcall argument hargument (hreached owner howner) id hmem).2
  · intro id hid
    obtain ⟨above, habove, -⟩ := h.lineage hid
    rwa [habove.ancestors h.toLinked (hid.lt h.toLinked h.root_lt)]

theorem nameDocument_eq (setting : Setting) (s : State) :
    nameDocument setting s = { s with index := (nameDocument setting s).index } := by
  unfold nameDocument
  split <;> rfl

end Assembly

open Assembly (Setting Visited Shape registerDocument nameDocument nameDocument_eq visitAll depthBound
  visits visits_visited)

theorem assemble_eq (registry : Registry) (document : String) {t : Tree} (hrooted : t.Rooted) :
    let setting : Setting := ⟨registry, document⟩
    let final := visitAll setting (depthBound t) ⟨t.root, none⟩
      (registerDocument setting (.initial t))
    assemble registry document t =
      { tree := final.tree, index := (nameDocument setting final).index, headers := final.headers
        contribution := { document, ids := (nameDocument setting final).index.records
                          references := final.references }
        linkSites := final.linkSites, diagnostics := final.diagnostics
        aborted := final.aborted } := by
  have hempty : t.isEmpty = false := Tree.isEmpty_of_lt hrooted.root_lt
  simp only [assemble, hempty, Bool.false_eq_true, if_false]
  rw [nameDocument_eq]

/-- What the assembly makes of a tree, visit by visit. -/
theorem assemble_visits {registry : Registry} (hr : registry.Coherent) (document : String)
    {t : Tree} (hgrown : t.Grown registry) (hrooted : t.Rooted) :
    let made := (visits ⟨registry, document⟩ t).reverse
    ∃ rank final, Visited ⟨registry, document⟩
        (registerDocument ⟨registry, document⟩ (.initial t)) made final ∧
      assemble registry document t =
        { tree := final.tree
          index := (nameDocument ⟨registry, document⟩ final).index, headers := final.headers
          contribution := { document, ids := (nameDocument ⟨registry, document⟩ final).index.records
                            references := final.references }
          linkSites := final.linkSites, diagnostics := final.diagnostics
          aborted := final.aborted } ∧
      Shape registry rank (fun id _ => id ∈ made.map (·.node)) final.tree ∧ t.Kept final.tree ∧
      (visits ⟨registry, document⟩ t).map (·.node) = final.tree.preorder final.tree.root := by
  obtain ⟨rank, hvisited, -, hshape, hkept, horder⟩ :=
    visits_visited ⟨registry, document⟩ hr hgrown hrooted
  exact ⟨rank, _, hvisited, assemble_eq registry document hrooted, hshape, hkept, horder⟩

theorem assemble_visited {registry : Registry} (hr : registry.Coherent) (document : String)
    {t : Tree} (hgrown : t.Grown registry) (hrooted : t.Rooted) :
    ∃ made rank final, Visited ⟨registry, document⟩
        (registerDocument ⟨registry, document⟩ (.initial t)) made final ∧
      assemble registry document t =
        { tree := final.tree
          index := (nameDocument ⟨registry, document⟩ final).index, headers := final.headers
          contribution := { document, ids := (nameDocument ⟨registry, document⟩ final).index.records
                            references := final.references }
          linkSites := final.linkSites, diagnostics := final.diagnostics
          aborted := final.aborted } ∧
      Shape registry rank (fun id _ => id ∈ made.map (·.node)) final.tree ∧ t.Kept final.tree ∧
      ∀ id, final.tree.Reaches final.tree.root id → id ∈ made.map (·.node) := by
  obtain ⟨rank, final, hvisited, hassemble, hshape, hkept, horder⟩ :=
    assemble_visits hr document hgrown hrooted
  refine ⟨_, rank, final, hvisited, hassemble, hshape, hkept, fun id hid => ?_⟩
  rw [List.map_reverse, List.mem_reverse, horder, hshape.mem_preorder_iff .refl]
  exact hid

/-- What is part of a document has been visited. -/
theorem Assembly.Shape.exists_arrival {registry : Registry} {rank : NodeId → Nat} {t : Tree}
    {visited : NodeId → String → Prop} {made : List Assembly.Arrival} {x : NodeId}
    (h : Shape registry rank visited t) (horder : made.map (·.node) = t.preorder t.root)
    (hx : t.Reaches t.root x) : ∃ arrival ∈ made, arrival.node = x := by
  have hmem : x ∈ made.map (·.node) := horder ▸ (h.mem_preorder_iff .refl).mpr hx
  exact List.mem_map.mp hmem

/-- What an analysis makes of a document, visit by visit. -/
theorem analyze_visits {registry : Registry} (hr : registry.Coherent) (document source : String) :
    let a := analyze registry document source
    let setting : Assembly.Setting := ⟨registry, document⟩
    let parsed := parse registry (tokenize source).tokens
    ∃ rank final, Visited setting (registerDocument setting (.initial parsed.tree))
        (visits setting parsed.tree).reverse final ∧
      Shape registry rank (fun id _ => id ∈ (visits setting parsed.tree).reverse.map (·.node))
        final.tree ∧
      parsed.tree.Kept final.tree ∧ a.tree = final.tree ∧
      a.index = (nameDocument setting final).index ∧ a.headers = final.headers ∧
      a.contribution.references = final.references ∧
      a.diagnostics = (tokenize source).diagnostics ++ parsed.diagnostics ++ final.diagnostics ∧
      a.aborted = final.aborted ∧
      (visits setting parsed.tree).map (·.node) = a.tree.preorder a.tree.root := by
  intro a setting parsed
  obtain ⟨hgrown, hrooted, -, -⟩ := parse_tree registry (tokenize source).tokens
  obtain ⟨rank, final, hvisited, hassemble, hshape, hkept, horder⟩ :=
    assemble_visits hr document hgrown hrooted
  have htree : a.tree = final.tree := congrArg (·.tree) hassemble
  refine ⟨rank, final, hvisited, hshape, hkept, htree, congrArg (·.index) hassemble,
    congrArg (·.headers) hassemble, congrArg (·.contribution.references) hassemble, ?_,
    congrArg (·.aborted) hassemble, htree ▸ horder⟩
  have hdiagnostics := congrArg (·.diagnostics) hassemble
  simp only at hdiagnostics
  rw [← hdiagnostics]
  rfl

/-- Every analyzed document is a tree. -/
theorem analyze_isTree {registry : Registry} (hcoherent : registry.Coherent)
    (document source : String) : (analyze registry document source).tree.IsTree registry := by
  obtain ⟨hgrown, hrooted, hwhole, -⟩ := parse_tree registry (tokenize source).tokens
  obtain ⟨nodes, rank, final, -, hassemble, hshape, hkept, hreached⟩ :=
    assemble_visited hcoherent document hgrown hrooted
  have htree : (analyze registry document source).tree = final.tree := by
    rw [analyze]
    exact congrArg (·.tree) hassemble
  rw [htree]
  refine hshape.isTree hreached ?_
  rw [hkept.root_eq, hkept.isParagraphBreak hrooted.root_lt, hwhole]

theorem analyze_isTree_birds : Registry.builtin.Coherent ∧
    (analyze .builtin "birds"
      "\\h[1][Geese]\n\n\\L[greylag]\n\\L[\\b[brent]\n\ngoose]\n\n\\Td[1]\\Td[2] \\x[geese").tree.IsTree
        .builtin :=
  ⟨Registry.coherent_builtin, analyze_isTree Registry.coherent_builtin _ _⟩

end Macromark
