import Macromark.Proofs.Assembly.Outcome
import Macromark.Proofs.Assembly.Thinning
import Macromark.Proofs.Tree.Errors

/-!
# The assembly keeps the content

What the author wrote is read in the finished document in the same order, and
once. Only breaks and blank texts are gone, and only line ends at the edges of
texts (`Tree.KeepsContent`).
-/

namespace Macromark

/-- The nodes of `u` that were in `t` are read in the order of `t`. -/
structure Tree.KeepsContent (t u : Tree) : Prop where
  once : (u.preorder u.root).Nodup
  order : ((u.preorder u.root).filter (· < t.size)).Sublist (t.preorder t.root)
  lost : ∀ id ∈ t.preorder t.root, id ∉ u.preorder u.root → t.isParagraphBreak id = true ∨
    ∃ text, t.plaintext? id = some text ∧ Text.isBlank text = true
  texts : ∀ id ∈ u.preorder u.root, ∀ text, t.plaintext? id = some text →
    ∃ kept, u.plaintext? id = some kept ∧ Trimmed text kept

namespace Assembly

open Passage (Thins Retouched)

def written (t : Tree) : NodeId → Option NodeId := Option.guard (· < t.size)

variable {t u : Tree} {id : NodeId} {text : String}

theorem written_of_lt (hid : id < t.size) : written t id = some id := by
  simpa [written] using hid

theorem written_of_le (hid : t.size ≤ id) : written t id = none := by
  simpa [written] using hid

theorem lt_of_plaintext? (h : t.plaintext? id = some text) : id < t.size := by
  obtain ⟨node, hnode, -⟩ := Option.bind_eq_some_iff.mp h
  exact Tree.lt_size_iff.mpr ⟨node, hnode⟩

theorem plaintext?_of_passage {α : Type} {label : NodeId → α} (h : t.Acyclic) {mark : α}
    (htext : t.passage label id = .text mark text) : t.plaintext? id = some text := by
  cases hnode : t.get? id with
  | none => simp [Tree.passage_of_none hnode] at htext
  | some node =>
    rw [h.passage_of_get? hnode] at htext
    cases hkind : node.kind <;>
      simp [NodeKind.passage, hkind] at htext
    simp [Tree.plaintext?, hnode, Node.plaintext?, hkind, htext.2]

theorem idle_passage {α : Type} {label : NodeId → α} (h : t.Acyclic)
    (hidle : (t.passage label id).Idle) : t.isParagraphBreak id = true ∨
      ∃ text, t.plaintext? id = some text ∧ Text.isBlank text = true := by
  refine hidle.imp (fun hbreak => ?_) fun hblank => ?_
  · rw [isParagraphBreak_passage h label, hbreak]
  · cases hpassage : t.passage label id with
    | text mark words =>
      rw [hpassage] at hblank
      exact ⟨words, plaintext?_of_passage h hpassage, hblank⟩
    | _ => simp [hpassage, Passage.isBlank] at hblank

theorem marks_passage {α : Type} {label : NodeId → α} (h : t.Acyclic) (hid : id < t.size) :
    (t.passage label id).all.map (·.mark) = (t.preorder id).map label := by
  rw [h.all_passage hid, List.map_map]
  exact List.map_congr_left fun read hread =>
    h.mark_passage (h.lt_of_reaches hid (h.reaches_of_mem_preorder hid hread))

theorem order_of_thins (ht : t.Acyclic) (hu : u.Acyclic) {root : NodeId} (hroot : root < t.size)
    (hsize : t.size ≤ u.size)
    (hthins : Thins none (t.passage (written t) root).all (u.passage (written t) root).all) :
    ((u.preorder root).filter (· < t.size)).Sublist (t.preorder root) := by
  have hmarks := hthins.sublist
  rw [marks_passage ht hroot, marks_passage hu (Nat.lt_of_lt_of_le hroot hsize)] at hmarks
  have hbefore : ((t.preorder root).map (written t)).filterMap id = t.preorder root := by
    rw [List.filterMap_map, Function.id_comp, written, List.filterMap_eq_filter,
      List.filter_eq_self]
    intro read hread
    simpa using ht.lt_of_reaches hroot (ht.reaches_of_mem_preorder hroot hread)
  have hafter : (((u.preorder root).map (written t)).filter (· ≠ none)).filterMap id =
      (u.preorder root).filter (· < t.size) := by
    rw [List.filter_map, List.filterMap_map, Function.id_comp, written, List.filterMap_eq_filter,
      List.filter_filter]
    congr 1
    funext read
    by_cases hread : read < t.size <;> simp [hread]
  have hnumbers := hmarks.filterMap id
  rwa [hbefore, hafter] at hnumbers

/-- An error is read at an error node. -/
theorem kind?_of_error {α : Type} {label : NodeId → α} (h : t.Acyclic) (hid : id < t.size)
    {mark : α} {message : String} (herror : t.passage label id = .error mark message) :
    t.kind? id = some (.error message) := by
  obtain ⟨node, hnode⟩ := Tree.lt_size_iff.mp hid
  rw [h.passage_of_get? hnode] at herror
  cases hkind : node.kind <;> simp [NodeKind.passage, hkind] at herror
  rw [Tree.kind?, hnode, Option.map_some, hkind, herror.2]

/-- The assembly makes no error nodes. -/
theorem clean_of_settlesTo {registry : Registry} (h : t.SettlesTo registry u) (hclean : t.Clean)
    (hid : u.Reaches u.root id) (message : String) : u.kind? id ≠ some (.error message) := by
  obtain ⟨ht, hroot, hu, -, hkept, hpassage⟩ := h
  have hroot' : u.root < u.size := hkept.root_eq ▸ Nat.lt_of_lt_of_le hroot hkept.size_le
  have hthins : Thins () (t.passage (fun _ => ()) t.root).all (u.passage (fun _ => ()) u.root).all := by
    rw [hkept.root_eq, hpassage (fun _ => ()) (fun _ _ => rfl) (Nat.le_refl _)]
    exact Passage.thins_settle registry () _ true _
  rw [ht.all_passage hroot, hu.all_passage hroot'] at hthins
  intro herror
  obtain ⟨node, hnode, hkind⟩ := Option.map_eq_some_iff.mp herror
  have hread : u.passage (fun _ => ()) id = .error () message := by
    rw [hu.passage_of_get? hnode, hkind]
    rfl
  rcases hthins.origin (List.mem_map_of_mem (hu.mem_preorder hroot' hid)) with hnew | ⟨p, hp, hretouched⟩
  · exact hnew.readable _ _ hread
  · obtain ⟨first, hfirst, rfl⟩ := List.mem_map.mp hp
    have hlt : first < t.size := ht.lt_of_reaches hroot (ht.reaches_of_mem_preorder hroot hfirst)
    rw [hread] at hretouched
    generalize hpassage : t.passage (fun _ => ()) first = p at hretouched
    cases hretouched
    exact hclean first message (kind?_of_error ht hlt hpassage)

theorem keepsContent {registry : Registry} (h : t.SettlesTo registry u) : t.KeepsContent u := by
  obtain ⟨ht, hroot, hu, hlinked, hkept, hpassage⟩ := h
  have hthins : Thins none (t.passage (written t) t.root).all (u.passage (written t) t.root).all := by
    rw [hpassage (written t) (fun id hid => written_of_le hid) (Nat.le_refl _)]
    exact Passage.thins_settle registry none _ true _
  have hroot' : t.root < u.size := Nat.lt_of_lt_of_le hroot hkept.size_le
  have hinside : ∀ id ∈ t.preorder t.root, id < t.size := fun id hid =>
    ht.lt_of_reaches hroot (ht.reaches_of_mem_preorder hroot hid)
  have hinside' : ∀ id ∈ u.preorder t.root, id < u.size := fun id hid =>
    hu.lt_of_reaches hroot' (hu.reaches_of_mem_preorder hroot' hid)
  -- a passage that stems from a node of `t` stands at that node
  have hsame : ∀ {a b}, a < t.size → b < u.size →
      Retouched (t.passage (written t) a) (u.passage (written t) b) → b = a := by
    intro a b ha hb h
    have hmark := h.mark
    rw [ht.mark_passage ha, hu.mark_passage hb, written_of_lt ha] at hmark
    exact (Option.guard_eq_some_iff.mp hmark).1
  have horder := order_of_thins ht hu hroot hkept.size_le hthins
  rw [ht.all_passage hroot, hu.all_passage hroot'] at hthins
  refine ⟨?_, ?_, fun id hid hlost => ?_, fun id hid text htext => ?_⟩ <;> rw [hkept.root_eq] at *
  · exact hu.nodup_preorder hlinked hroot'
  · exact horder
  · rcases hthins.kept (List.mem_map_of_mem hid) with hidle | ⟨q, hq, hretouched⟩
    · exact idle_passage ht hidle
    · obtain ⟨later, hlater, rfl⟩ := List.mem_map.mp hq
      exact absurd (hsame (hinside id hid) (hinside' later hlater) hretouched ▸ hlater) hlost
  · have hlt : id < t.size := lt_of_plaintext? htext
    rcases hthins.origin (List.mem_map_of_mem hid) with hnew | ⟨p, hp, hretouched⟩
    · have hmark := hnew.mark
      rw [hu.mark_passage (hinside' id hid), written_of_lt hlt] at hmark
      exact absurd hmark (by simp)
    · obtain ⟨first, hfirst, rfl⟩ := List.mem_map.mp hp
      obtain rfl := hsame (hinside first hfirst) (hinside' id hid) hretouched
      rw [passage_of_plaintext? ht htext] at hretouched
      generalize hpassage : u.passage (written t) id = p at hretouched
      cases hretouched with
      | @text mark _ kept htrimmed => exact ⟨kept, plaintext?_of_passage hu hpassage, htrimmed⟩

end Assembly

/-- A document that nothing is reported of has no error node. -/
theorem analyze_clean {registry : Registry} (hcoherent : registry.Coherent)
    (document source : String)
    (hsilent : (analyze registry document source).diagnostics = []) {id : NodeId}
    (hid : (analyze registry document source).tree.Reaches
      (analyze registry document source).tree.root id) (message : String) :
    (analyze registry document source).tree.kind? id ≠ some (.error message) := by
  have hparsed : (parse registry (tokenize source).tokens).diagnostics = [] := by
    simp only [analyze, List.append_eq_nil_iff] at hsilent
    exact hsilent.1.2
  exact Assembly.clean_of_settlesTo (analyze_settlesTo hcoherent document source)
    (parse_clean registry source hparsed) hid message

/-- The assembly leaves out nothing that is written, repeats nothing and moves nothing. -/
theorem analyze_keepsContent {registry : Registry} (hcoherent : registry.Coherent)
    (document source : String) : (parse registry (tokenize source).tokens).tree.KeepsContent
      (analyze registry document source).tree :=
  Assembly.keepsContent (analyze_settlesTo hcoherent document source)

theorem analyze_keepsContent_geese : Registry.builtin.Coherent ∧
    (parse .builtin (tokenize
      "\\h[1][Geese]\n\n\\L[greylag]\n\\L[\\b[brent]\n\ngoose]\n\n\\Td[1]\\Td[2]\nswans").tokens).tree.KeepsContent
      (analyze .builtin "geese"
        "\\h[1][Geese]\n\n\\L[greylag]\n\\L[\\b[brent]\n\ngoose]\n\n\\Td[1]\\Td[2]\nswans").tree :=
  ⟨Registry.coherent_builtin, analyze_keepsContent Registry.coherent_builtin _ _⟩

end Macromark
