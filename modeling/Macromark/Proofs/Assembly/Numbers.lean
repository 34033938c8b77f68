import Macromark.Proofs.Assembly.Identifiers
import Macromark.Proofs.Assembly.Untouched

/-!
# Numbers without gaps

A number is handed out together with an identifier, and the next one of its name
is one higher (`Naming.counting`). Since the visits go through the finished tree
in reading order, that is the order of the numbers as well.
-/

namespace Macromark

/-- Whether a node takes part in the numbering of the macros of a name. What is a synonym has been
`written`. -/
def Tree.isNumbered (registry : Registry) (t written : Tree) (name : String) (x : NodeId) : Bool :=
  t.name? x == some name && (t.id? x).isSome && x != t.root && !written.isSynonym registry x

namespace Assembly

variable {setting : Setting} {s u start : State} {node x : NodeId} {asked given : Option String}
variable {t : Tree} {order : List NodeId} {made : List Arrival}

/-- The numbers that have been handed out to `order`, where `t` was written. -/
structure Counting (setting : Setting) (t : Tree) (order : List NodeId) (s : State) : Prop where
  counts : ∀ name, (order.filter (s.tree.isNumbered setting.registry t name)).map s.tree.count? =
    (List.range' 1 ((s.counters.get? name).getD 0)).map some
  others : ∀ x ∈ order, (∀ name, s.tree.isNumbered setting.registry t name x = false) →
    s.tree.count? x = none
  waiting : ∀ x, x ∉ order → s.tree.count? x = none

/-- The numbered nodes are seen in the labels and in the names. -/
theorem isNumbered_congr {registry : Registry} {u v : Tree} (hroot : v.root = u.root)
    (hlabel : v.label x = u.label x) (hname : v.name? x = u.name? x) (name : String) :
    v.isNumbered registry t name x = u.isNumbered registry t name x := by
  rw [Tree.isNumbered, Tree.isNumbered, Tree.id?, Tree.id?, hlabel, hname, hroot]

theorem uncounted_snoc {v : Tree}
    (hwaiting : ∀ x, x ∉ order → x ≠ node → v.count? x = none) (hx : x ∉ order ++ [node]) :
    v.count? x = none := by
  obtain ⟨hout, hother⟩ := not_or.mp (List.mem_append.not.mp hx)
  exact hwaiting x hout (by simpa using hother)

section
variable (h : Counting setting t order s) (hroot : u.tree.root = s.tree.root)
variable (hlabels : ∀ x ∈ order, u.tree.label x = s.tree.label x)
variable (hnames : ∀ x ∈ order, u.tree.name? x = s.tree.name? x)
include h hroot hlabels hnames

theorem Counting.counts_eq (name : String) :
    (order.filter (u.tree.isNumbered setting.registry t name)).map u.tree.count? =
      (List.range' 1 ((s.counters.get? name).getD 0)).map some := by
  rw [← h.counts, List.filter_congr fun x hx =>
    isNumbered_congr hroot (hlabels x hx) (hnames x hx) name]
  refine List.map_congr_left fun x hx => ?_
  rw [Tree.count?, Tree.count?, hlabels x (List.mem_filter.mp hx).1]

theorem Counting.others_eq (hx : x ∈ order)
    (hquiet : ∀ name, u.tree.isNumbered setting.registry t name x = false) :
    u.tree.count? x = none := by
  rw [Tree.count?, hlabels x hx, ← Tree.count?]
  refine h.others x hx fun name => ?_
  rw [← hquiet name, isNumbered_congr hroot (hlabels x hx) (hnames x hx)]

variable (hwaiting : ∀ x, x ∉ order → x ≠ node → u.tree.count? x = none)
include hwaiting

theorem Counting.pass (hcounters : u.counters = s.counters)
    (hquiet : ∀ name, u.tree.isNumbered setting.registry t name node = false)
    (hcount : u.tree.count? node = none) : Counting setting t (order ++ [node]) u := by
  refine ⟨fun name => ?_, fun x hx hnone => ?_, fun x hx => uncounted_snoc hwaiting hx⟩
  · rw [List.filter_append, List.filter_singleton, hquiet, hcounters,
      ← h.counts_eq hroot hlabels hnames]
    simp
  · rcases List.mem_append.mp hx with hx | hx
    · exact h.others_eq hroot hlabels hnames hx hnone
    · exact List.mem_singleton.mp hx ▸ hcount

theorem Counting.number {name : String} {count : Nat}
    (hlast : (s.counters.get? name).getD 0 = count)
    (hcounters : u.counters = s.counters.insert name (count + 1))
    (hnumbered : ∀ other, u.tree.isNumbered setting.registry t other node = (name == other))
    (hcount : u.tree.count? node = some (count + 1)) : Counting setting t (order ++ [node]) u := by
  refine ⟨fun other => ?_, fun x hx hquiet => ?_, fun x hx => uncounted_snoc hwaiting hx⟩
  · rw [List.filter_append, List.map_append, h.counts_eq hroot hlabels hnames,
      List.filter_singleton, hnumbered, hcounters, OrderedMap.get?_insert]
    by_cases heq : name = other
    · have hnext : List.range' 1 (count + 1) = List.range' 1 count ++ [count + 1] := by
        rw [List.range'_1_concat, Nat.add_comm 1]
      rw [← heq, if_pos rfl, hlast, Option.getD_some, hnext, List.map_append]
      simp [hcount]
    · have hother : (name == other) = false := by simpa using heq
      rw [if_neg heq, hother]
      simp
  · rcases List.mem_append.mp hx with hx | hx
    · exact h.others_eq hroot hlabels hnames hx hquiet
    · have hself := hquiet name
      rw [List.mem_singleton.mp hx, hnumbered] at hself
      simp at hself

end

theorem Naming.counting (h : Naming setting node s asked given u)
    (hs : Counting setting t order s) (hnot : node ∉ order)
    (hunnamed : node ≠ s.tree.root → s.tree.id? node = none)
    (hasked : asked ≠ none → node ≠ s.tree.root ∧
      s.tree.isSynonym setting.registry node = t.isSynonym setting.registry node) :
    Counting setting t (order ++ [node]) u := by
  have hquiet : ∀ name, s.tree.isNumbered setting.registry t name node = false := by
    intro name
    by_cases heq : node = s.tree.root
    · simp [Tree.isNumbered, heq]
    · simp [Tree.isNumbered, hunnamed heq]
  have hsame : u.tree = s.tree → u.counters = s.counters → Counting setting t (order ++ [node]) u := by
    intro htree hcounters
    refine hs.pass ?_ ?_ ?_ ?_ hcounters ?_ ?_ <;> rw [htree]
    · exact fun _ _ => rfl
    · exact fun _ _ => rfl
    · exact fun x hx _ => hs.waiting x hx
    · exact hquiet
    · exact hs.waiting node hnot
  cases h with
  | nameless h => exact hsame h.tree h.counters
  | refused _ htree _ hcounters => exact hsame htree hcounters
  | @entered _ id name r hfree hname _ hcount _ htree hcounters =>
    obtain ⟨hinner, hsynonym⟩ := hasked (by simp)
    have hlabel := label_entered hname htree
    have hne : ∀ x ∈ order, x ≠ node := fun x hx heq => hnot (heq ▸ hx)
    have hlabels : ∀ x ∈ order, u.tree.label x = s.tree.label x := fun x hx => by
      rw [hlabel, if_neg (hne x hx)]
    have hnames : ∀ x, u.tree.name? x = s.tree.name? x := fun x => by
      rw [htree, Tree.name?, Tree.name?, Tree.call?_modifyCall]
      split
      · cases s.tree.call? x <;> rfl
      · rfl
    have hroot : u.tree.root = s.tree.root := by rw [htree]; rfl
    have hwaiting : ∀ x, x ∉ order → x ≠ node → u.tree.count? x = none := fun x hx hother => by
      rw [Tree.count?, hlabel, if_neg hother]
      exact hs.waiting x hx
    have hnumbered : ∀ other, u.tree.isNumbered setting.registry t other node =
        (name == other && !t.isSynonym setting.registry node) := by
      have hinner : (node != u.tree.root) = true := by rw [hroot]; simpa using hinner
      intro other
      rw [Tree.isNumbered, hnames, hname, Tree.id?, hlabel, if_pos rfl, hinner]
      simp
    have hgiven : u.tree.count? node = r.count := by rw [Tree.count?, hlabel, if_pos rfl]
    rw [hsynonym] at hcount
    cases hsynonymous : t.isSynonym setting.registry node with
    | true =>
      rw [hsynonymous, if_pos rfl] at hcount
      rw [hcount] at hcounters hgiven
      refine hs.pass hroot hlabels (fun x _ => hnames x) hwaiting hcounters (fun other => ?_) hgiven
      rw [hnumbered, hsynonymous, Bool.not_true, Bool.and_false]
    | false =>
      simp only [hsynonymous, Bool.false_eq_true, if_false] at hcount
      rw [hcount] at hcounters hgiven
      refine hs.number hroot hlabels (fun x _ => hnames x) hwaiting rfl hcounters (fun other => ?_) hgiven
      rw [hnumbered, hsynonymous, Bool.not_false, Bool.and_true]

theorem Counting.tree (h : Counting setting t order s) (hroot : u.tree.root = s.tree.root)
    (hlabels : ∀ x, u.tree.label x = s.tree.label x)
    (hnames : ∀ x ∈ order, u.tree.name? x = s.tree.name? x) (hcounters : u.counters = s.counters) :
    Counting setting t order u := by
  have hlabels' : ∀ x ∈ order, u.tree.label x = s.tree.label x := fun x _ => hlabels x
  refine ⟨fun name => ?_, fun x hx => h.others_eq hroot hlabels' hnames hx, fun x hx => ?_⟩
  · rw [h.counts_eq hroot hlabels' hnames, hcounters]
  · rw [Tree.count?, hlabels, ← Tree.count?]
    exact h.waiting x hx

theorem Visited.counting (h : Visited setting (registerDocument setting (.initial t)) made s)
    (hr : setting.registry.Coherent) (ht : t.Acyclic)
    (hindexed : Indexed setting [] (registerDocument setting (.initial t)).index
      (registerDocument setting (.initial t)).tree)
    (hstart : Counting setting t [] (registerDocument setting (.initial t))) :
    Counting setting t (made.reverse.map (·.node)) s := by
  induction h with
  | start => exact hstart
  | @visit earlier s rank visit hvisited hshape hnot hnode _ ih =>
    obtain ⟨given, named, hnaming, -, hrest, hadorned⟩ := visitNode_naming visit hshape.declared hnode
    obtain ⟨-, later, -, hstepped⟩ := visitNode_shape hr hshape hnode fun _ => hnot
    have hkept := hstepped.kept.from hnaming.labeled.kept hnaming.labeled.size_eq
    have hasked : requestedId setting s visit.node ≠ none → visit.node ≠ s.tree.root ∧
        s.tree.isSynonym setting.registry visit.node = t.isSynonym setting.registry visit.node := by
      intro hasked
      obtain ⟨id, hid⟩ := Option.ne_none_iff_exists'.mp hasked
      refine ⟨fun heq => ?_, ?_⟩
      · rw [heq] at hasked
        exact hasked requestedId_root
      · exact hvisited.isSynonym hr ht hshape.acyclic (hvisited.lt_of_requestedId hr hid) hnot
    have hnot' : visit.node ∉ earlier.reverse.map (·.node) := by
      rwa [List.map_reverse, List.mem_reverse]
    have hnamed := hnaming.counting ih hnot'
      (fun hroot => (hvisited.indexed hr hindexed).waiting visit.node hnot hroot) hasked
    rw [List.reverse_cons, List.map_append, List.map_singleton]
    refine hnamed.tree hkept.root_eq hadorned.labels (fun x hx => hkept.name? ?_) (by rw [hrest])
    rw [hnaming.labeled.size_eq]
    rcases List.mem_append.mp hx with hx | hx
    · rw [List.map_reverse, List.mem_reverse] at hx
      exact hshape.known x "" hx
    · exact List.mem_singleton.mp hx ▸ hnode

theorem registerDocument_counting (setting : Setting) (hgrown : t.Grown setting.registry) :
    Counting setting t [] (registerDocument setting (.initial t)) := by
  have hcount : ∀ (id : String) (x : NodeId),
      (t.modifyCall t.root fun call => { call with id := some id }).count? x = none := by
    intro id x
    rw [Tree.count?, Tree.label, Tree.call?_modifyCall]
    cases hcall : t.call? x with
    | none => split <;> rfl
    | some call =>
      have hnone := (hgrown.unnamed x call hcall).2
      split <;> exact hnone
  have hbefore : ∀ x, t.count? x = none := fun x => by rw [Tree.count?, hgrown.label]
  unfold registerDocument
  split
  · exact ⟨fun name => rfl, fun x _ _ => hbefore x, fun x _ => hbefore x⟩
  · simp only
    split
    · exact ⟨fun name => rfl, fun x _ _ => hcount _ x, fun x _ => hcount _ x⟩
    · exact ⟨fun name => rfl, fun x _ _ => hbefore x, fun x _ => hbefore x⟩

end Assembly

open Assembly (registerDocument_counting registerDocument_indexed shape_of_grown)

def Analysis.numbered (a : Analysis) (registry : Registry) (written : Tree) (name : String) :
    List NodeId :=
  (a.tree.preorder a.tree.root).filter (a.tree.isNumbered registry written name)

/-- The macros of one name that have an identifier are numbered one after another in the order of the
finished document, the synonyms of headers apart. Nothing else has a number. -/
theorem analyze_numbers {registry : Registry} (hcheck : registry.check = .ok ())
    (hr : registry.Coherent) (document source : String) :
    let a := analyze registry document source
    let numbered := a.numbered registry (parse registry (tokenize source).tokens).tree
    (∀ name, (numbered name).map a.tree.count? =
      (List.range' 1 (numbered name).length).map some) ∧
    ∀ x, a.tree.Reaches a.tree.root x → (∀ name, x ∉ numbered name) → a.tree.count? x = none := by
  intro a numbered
  obtain ⟨hgrown, hrooted, -, -⟩ := parse_tree registry (tokenize source).tokens
  obtain ⟨rank, final, hvisited, hshape, -, htree, -, -, -, -, -, horder⟩ :=
    analyze_visits hr document source
  obtain ⟨call, hroot, -⟩ := parse_toplevel hcheck source
  obtain ⟨hindexed, -⟩ := registerDocument_indexed ⟨registry, document⟩ hgrown hroot
  obtain ⟨hcounts, hothers, -⟩ := hvisited.counting hr (shape_of_grown hgrown hrooted).acyclic hindexed
    (registerDocument_counting ⟨registry, document⟩ hgrown)
  rw [List.reverse_reverse, horder, ← htree] at hcounts hothers
  refine ⟨fun name => ?_, fun x hx hquiet => ?_⟩
  · have hlength := congrArg List.length (hcounts name)
    rw [List.length_map, List.length_map, List.length_range'] at hlength
    rw [show (numbered name).length = _ from hlength]
    exact hcounts name
  · have hmem : x ∈ a.tree.preorder a.tree.root := by
      rw [htree] at hx ⊢
      exact (hshape.mem_preorder_iff .refl).mpr hx
    refine hothers x hmem fun name => Bool.eq_false_iff.mpr fun hself => ?_
    exact hquiet name (List.mem_filter.mpr ⟨hmem, hself⟩)

theorem analyze_numbers_geese :
    let source := "\\h[1][Geese]\n\n\\h[1][Gander]{synonym=1}\n\n\\h[2][Brent]"
    let a := analyze .builtin "zoo" source
    let numbered := a.numbered .builtin (parse .builtin (tokenize source).tokens).tree
    Registry.builtin.check = .ok () ∧ Registry.builtin.Coherent ∧
      (∀ name, (numbered name).map a.tree.count? =
        (List.range' 1 (numbered name).length).map some) ∧
      ∀ x, a.tree.Reaches a.tree.root x → (∀ name, x ∉ numbered name) → a.tree.count? x = none :=
  ⟨by decide, Registry.coherent_builtin, analyze_numbers (by decide) Registry.coherent_builtin _ _⟩

end Macromark
