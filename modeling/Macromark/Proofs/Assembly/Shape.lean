import Macromark.Proofs.Assembly.Arrangement
import Mathlib.Data.List.Nodup

/-!
# The shape of the tree between two visits

`Shape` is the invariant of the assembly: children and parents agree, what has
been visited is arranged, and what has not waits for it. One argument after
another of a macro goes from the one to the other (`Shape.argument`), and what
is new waits.
-/

namespace Macromark

-- ----------------------------------------------------------------------------
-- Other children for one argument
-- ----------------------------------------------------------------------------

namespace MacroCall

variable {name : String} {argument other : Argument} {arguments front back : List Argument}
variable {children : List NodeId}

theorem setChildren_go_eq (hfront : ∀ other ∈ front, other.name ≠ argument.name) :
    setChildren.go argument.name children (front ++ argument :: back) =
      front ++ { argument with children } :: back := by
  induction front with
  | nil => simp [setChildren.go]
  | cons other front ih =>
    simp [setChildren.go, hfront other List.mem_cons_self,
      ih fun other hother => hfront other (List.mem_cons_of_mem _ hother)]

/-- Where no two arguments have one name, exactly one gets other children. -/
theorem setChildren_split {call : MacroCall} (hnames : (call.arguments.map (·.name)).Nodup)
    (hargument : argument ∈ call.arguments) :
    ∃ front back, call.arguments = front ++ argument :: back ∧
      (∀ other ∈ front ++ back, other.name ≠ argument.name) ∧
      ∀ children, (call.setChildren argument.name children).arguments =
        front ++ { argument with children } :: back := by
  obtain ⟨front, back, hsplit⟩ := List.append_of_mem hargument
  rw [hsplit, List.map_append, List.map_cons] at hnames
  have hothers : ∀ other ∈ front ++ back, other.name ≠ argument.name := by
    obtain ⟨-, hback, hdisjoint⟩ := List.nodup_append.mp hnames
    intro other hother heq
    rcases List.mem_append.mp hother with hother | hother
    · exact hdisjoint _ (List.mem_map_of_mem hother) _ List.mem_cons_self heq
    · exact (List.nodup_cons.mp hback).1 (heq ▸ List.mem_map_of_mem hother)
  refine ⟨front, back, hsplit, hothers, fun children => ?_⟩
  rw [setChildren, hsplit]
  exact setChildren_go_eq fun other hother => hothers other (List.mem_append_left _ hother)

@[simp] theorem name_setChildren (call : MacroCall) (name : String) (children : List NodeId) :
    (call.setChildren name children).name = call.name := rfl

end MacroCall

namespace Assembly

structure Shape (registry : Registry) (rank : NodeId → Nat) (visited : NodeId → String → Prop)
    (t : Tree) : Prop extends Tree.Rooted t where
  declared : t.Declared registry
  known : ∀ owner name, visited owner name → owner < t.size
  pending : ∀ owner call, t.call? owner = some call → ∀ argument ∈ call.arguments,
    ¬ visited owner argument.name →
      Pending registry rank t call.name (rank owner) argument.children
  arranged : ∀ owner call, t.call? owner = some call → ∀ argument ∈ call.arguments,
    visited owner argument.name → Arranged rank t (rank owner) argument.children
  /-- Paragraphs are implied in the document itself even without a break. -/
  written : ∀ call, t.call? t.root = some call → ∀ argument ∈ call.arguments,
    ¬ visited t.root argument.name →
      4 ≤ rank t.root ∧ ∀ node ∈ argument.children, rank node + 4 ≤ rank t.root

structure Stepped (registry : Registry) (rank : NodeId → Nat) (t : Tree) (node : NodeId)
    (later : NodeId → Nat) (u : Tree) : Prop where
  kept : t.Kept u
  ranks : ∀ id < t.size, later id = rank id
  others : ∀ id < t.size, id ≠ node → u.below id = t.below id
  within : ∀ owner, owner = node ∨ t.size ≤ owner → ∀ child ∈ u.below owner,
    child ∈ t.below node ∨ t.size ≤ child
  implied : ∀ id, t.size ≤ id → ∀ call, u.call? id = some call → registry.Implies call.name

variable {registry : Registry} {rank later last : NodeId → Nat} {t u v : Tree}
variable {visited : NodeId → String → Prop} {node owner : NodeId} {call : MacroCall} {argument : Argument}

theorem Stepped.refl (registry : Registry) (rank : NodeId → Nat) (t : Tree) (node : NodeId) :
    Stepped registry rank t node rank t := by
  refine ⟨.refl t, fun _ _ => rfl, fun _ _ _ => rfl, ?_, ?_⟩
  · rintro owner (rfl | howner) child hchild
    · exact .inl hchild
    · simp [Tree.below, Tree.call?_eq_none howner] at hchild
  · intro id hid call hcall
    simp [Tree.call?_eq_none hid] at hcall

theorem Stepped.trans (h : Stepped registry rank t node later u)
    (h' : Stepped registry later u node last v) : Stepped registry rank t node last v := by
  have hlt : ∀ id, id < t.size → id < u.size := fun id hid =>
    Nat.lt_of_lt_of_le hid h.kept.size_le
  refine ⟨h.kept.trans h'.kept, fun id hid => ?_, fun id hid hne => ?_, ?_, ?_⟩
  · rw [h'.ranks id (hlt id hid), h.ranks id hid]
  · rw [h'.others id (hlt id hid) hne, h.others id hid hne]
  · intro owner howner child hchild
    by_cases hold : owner < u.size ∧ owner ≠ node
    · rw [h'.others owner hold.1 hold.2] at hchild
      exact h.within owner howner child hchild
    · have hnew : owner = node ∨ u.size ≤ owner := by
        by_cases heq : owner = node
        · exact .inl heq
        · exact .inr (Nat.le_of_not_lt fun hlt => hold ⟨hlt, heq⟩)
      rcases h'.within owner hnew child hchild with hchild | hchild
      · exact h.within node (.inl rfl) child hchild
      · exact .inr (Nat.le_trans h.kept.size_le hchild)
  · intro id hid call hcall
    by_cases hold : id < u.size
    · obtain ⟨written, hwritten, hname⟩ := h'.kept.call?_of_lt hold hcall
      exact hname ▸ h.implied id hid written hwritten
    · exact h'.implied id (Nat.le_of_not_lt hold) call hcall

theorem Shape.names_nodup (h : Shape registry rank visited t) (hr : registry.Coherent)
    (hcall : t.call? owner = some call) : (call.arguments.map (·.name)).Nodup := by
  obtain ⟨d, hd, hnames⟩ := h.declared owner call hcall
  rw [hnames]
  exact hr d (List.mem_of_find?_eq_some hd)

/-- Which arguments have been visited matters only where there are any. -/
theorem Shape.congr {visited' : NodeId → String → Prop} (h : Shape registry rank visited t)
    (hknown : ∀ owner name, visited' owner name → owner < t.size)
    (heq : ∀ owner call, t.call? owner = some call → ∀ argument ∈ call.arguments,
      (visited owner argument.name ↔ visited' owner argument.name)) :
    Shape registry rank visited' t := by
  refine ⟨h.toRooted, h.declared, hknown, ?_, ?_, ?_⟩
  · intro owner call hcall argument hargument hnot
    exact h.pending owner call hcall argument hargument
      fun hvisited => hnot ((heq owner call hcall argument hargument).mp hvisited)
  · intro owner call hcall argument hargument hvisited
    exact h.arranged owner call hcall argument hargument
      ((heq owner call hcall argument hargument).mpr hvisited)
  · intro call hcall argument hargument hnot
    exact h.written call hcall argument hargument
      fun hvisited => hnot ((heq t.root call hcall argument hargument).mp hvisited)

-- ----------------------------------------------------------------------------
-- The visit of one argument
-- ----------------------------------------------------------------------------

/-- `v` is `u` with other nodes in one argument of a macro, all of them its children. -/
structure Placed (u : Tree) (owner : NodeId) (call : MacroCall) (name : String)
    (children : List NodeId) (v : Tree) : Prop where
  kept : u.Kept v
  size_eq : v.size = u.size
  call : v.call? owner = some (call.setChildren name children)
  others : ∀ id, id ≠ owner → v.call? id = u.call? id
  adopted : ∀ id ∈ children, v.parent? id = some owner
  unmoved : ∀ id, id ∉ children → v.parent? id = u.parent? id

theorem placed_setChildren (hcall : u.call? owner = some call) (name : String)
    {children : List NodeId} (hchildren : ∀ id ∈ children, id < u.size) :
    Placed u owner call name children (u.setChildren owner name children) := by
  refine ⟨u.kept_setChildren owner name children, by simp [Tree.setChildren], ?_, ?_, ?_, ?_⟩
  · simp [Tree.setChildren, Tree.call?_modifyCall, hcall]
  · intro id hne
    simp [Tree.setChildren, Tree.call?_modifyCall, Ne.symm hne]
  · intro id hid
    simp [Tree.setChildren, Tree.parent?_adopt, hid, hchildren id hid]
  · intro id hid
    simp [Tree.setChildren, Tree.parent?_adopt, hid]

theorem placed_self (hcall : u.call? owner = some call)
    (hnames : (call.arguments.map (·.name)).Nodup) (hargument : argument ∈ call.arguments)
    (hparents : ∀ id ∈ argument.children, u.parent? id = some owner) :
    Placed u owner call argument.name argument.children u := by
  obtain ⟨front, back, hsplit, -, hset⟩ := MacroCall.setChildren_split hnames hargument
  have hself : call.setChildren argument.name argument.children = call := by
    have harguments := hset argument.children
    rw [← hsplit] at harguments
    obtain ⟨name, arguments, id, count, synthetic⟩ := call
    simpa [MacroCall.setChildren] using harguments
  exact ⟨.refl u, rfl, by rw [hself, hcall], fun _ _ => rfl, hparents, fun _ _ => rfl⟩

theorem Placed.below_of_ne {name : String} {children : List NodeId}
    (h : Placed u owner call name children v) {id : NodeId} (hne : id ≠ owner) :
    v.below id = u.below id := by
  rw [Tree.below, Tree.below, h.others id hne]

section Placed

variable {name : String} {children : List NodeId}

/-- The children of a macro are regrouped, and put back into it. -/
theorem rooted_placed (h : t.Rooted) (howner : owner < t.size)
    (hregroups : Regroups registry rank t (t.below owner) later u (v.below owner))
    (hplaced : Placed u owner call name children v) (hsub : ∀ id ∈ children, id ∈ v.below owner)
    (hstays : ∀ id ∈ v.below owner, id ∉ children → id ∈ t.below owner) : v.Rooted := by
  have hkept : t.Kept v := hregroups.kept.trans hplaced.kept
  have hold : ∀ id < t.size, id ∈ children → id ∈ t.below owner := fun id hid hmem =>
    (hregroups.origin id (hsub id hmem)).resolve_right (Nat.not_le_of_lt hid)
  -- a node elsewhere in the tree stays where it is
  have helse : ∀ id < t.size, id ∉ t.below owner → v.parent? id = t.parent? id := by
    intro id hid hmem
    rw [hplaced.unmoved id fun hplace => hmem (hold id hid hplace)]
    exact hregroups.unmoved id hid fun hbelow => absurd hbelow hmem
  refine ⟨⟨?_, ?_, ?_⟩, ?_, ?_⟩
  · intro other child hchild
    by_cases heq : other = owner
    · subst heq
      by_cases hplace : child ∈ children
      · exact hplaced.adopted child hplace
      · have hbefore := hstays child hchild hplace
        rw [hplaced.unmoved child hplace,
          hregroups.unmoved child (h.lt_of_below hbefore) fun _ => hchild]
        exact h.parent hbefore
    · rw [hplaced.below_of_ne heq] at hchild
      by_cases hother : other < t.size
      · rw [hregroups.below hother] at hchild
        have hparent := h.parent hchild
        rw [helse child (h.lt_of_below hchild), hparent]
        intro hmem
        exact heq (Option.some.inj (hparent.symm.trans (h.parent hmem)))
      · have hfresh := Nat.le_of_not_lt hother
        rw [hplaced.unmoved child fun hplace =>
          hregroups.apart other hfresh child hchild (hsub child hplace)]
        exact (hregroups.holder other hfresh).parent child hchild
  · intro other
    by_cases heq : other = owner
    · subst heq
      exact hregroups.row.nodup
    · rw [hplaced.below_of_ne heq]
      by_cases hother : other < t.size
      · rw [hregroups.below hother]
        exact h.distinct other
      · exact (hregroups.holder other (Nat.le_of_not_lt hother)).distinct
  · intro child other hparent
    by_cases hplace : child ∈ children
    · rw [hplaced.adopted child hplace] at hparent
      cases hparent
      exact Nat.lt_of_lt_of_le howner hkept.size_le
    · rw [hplaced.unmoved child hplace] at hparent
      rcases hregroups.parents child other hparent with hparent | ⟨-, hlt⟩
      · exact Nat.lt_of_lt_of_le (h.inside hparent) hkept.size_le
      · exact hplaced.size_eq ▸ hlt
  · rw [hkept.root_eq]
    exact Nat.lt_of_lt_of_le h.root_lt hkept.size_le
  · rw [hkept.root_eq, helse t.root h.root_lt, h.top]
    intro hmem
    simpa [h.top] using h.parent hmem

theorem stepped_placed (howner : owner < t.size)
    (hregroups : Regroups registry rank t (t.below owner) later u (v.below owner))
    (hplaced : Placed u owner call name children v) : Stepped registry rank t owner later v := by
  refine ⟨hregroups.kept.trans hplaced.kept, hregroups.ranks, ?_, ?_, ?_⟩
  · intro id hid hne
    rw [hplaced.below_of_ne hne, hregroups.below hid]
  · intro other hother child hchild
    by_cases heq : other = owner
    · subst heq
      exact hregroups.origin child hchild
    · rw [hplaced.below_of_ne heq] at hchild
      exact ((hregroups.holder other (hother.resolve_left heq)).within child hchild).1
  · intro other hother others hcall
    rw [hplaced.others other fun heq => Nat.not_lt.mpr hother (heq ▸ howner)] at hcall
    exact (hregroups.holder other hother).implied others hcall

end Placed

section
variable {children : List NodeId}
variable (hregroups : Regroups registry rank t argument.children later u children)
variable (hcall : t.call? owner = some call) (hnames : (call.arguments.map (·.name)).Nodup)
variable (hargument : argument ∈ call.arguments)
variable (hplaced : Placed u owner call argument.name children v)
include hcall hnames hargument hplaced

theorem Placed.below_split : ∃ before after,
    t.below owner = before ++ argument.children ++ after ∧
      v.below owner = before ++ children ++ after := by
  obtain ⟨front, back, hsplit, -, hset⟩ := MacroCall.setChildren_split hnames hargument
  refine ⟨front.flatMap (·.children), back.flatMap (·.children), ?_, ?_⟩
  · simp [Tree.below_of_call? hcall, MacroCall.allChildren, hsplit]
  · simp [Tree.below_of_call? hplaced.call, MacroCall.allChildren, hset]

include hregroups

/-- An argument of `v` is that one, or was in `t`, or is one of a new macro. -/
theorem Placed.argument_cases {other : NodeId} {others : MacroCall} {a : Argument}
    (hother : v.call? other = some others) (ha : a ∈ others.arguments) :
    (other = owner ∧ a = { argument with children }) ∨
    (other < t.size ∧ (other = owner → a.name ≠ argument.name) ∧ ∃ written,
      t.call? other = some written ∧ others.name = written.name ∧ a ∈ written.arguments) ∨
    (t.size ≤ other ∧ u.call? other = some others) := by
  by_cases heq : other = owner
  · subst heq
    obtain ⟨front, back, hsplit, hothers, hset⟩ := MacroCall.setChildren_split hnames hargument
    obtain rfl := Option.some.inj (hplaced.call.symm.trans hother)
    have hkeep : ∀ hmem : a ∈ front ++ back, a ∈ call.arguments := by
      intro hmem
      rw [hsplit]
      exact (List.sublist_cons_self argument back).append_left front |>.subset hmem
    have hold := Tree.lt_of_call? hcall
    rw [hset, List.mem_append, List.mem_cons] at ha
    rcases ha with ha | rfl | ha
    · have hmem := List.mem_append_left back ha
      exact .inr (.inl ⟨hold, fun _ => hothers a hmem, call, hcall, rfl, hkeep hmem⟩)
    · exact .inl ⟨rfl, rfl⟩
    · have hmem := List.mem_append_right front ha
      exact .inr (.inl ⟨hold, fun _ => hothers a hmem, call, hcall, rfl, hkeep hmem⟩)
  · rw [hplaced.others other heq] at hother
    by_cases hold : other < t.size
    · rw [hregroups.calls other hold] at hother
      exact .inr (.inl ⟨hold, fun h => absurd h heq, others, hother, rfl, ha⟩)
    · exact .inr (.inr ⟨Nat.le_of_not_lt hold, hother⟩)

theorem Placed.declared (hdeclared : t.Declared registry) : v.Declared registry := by
  intro other others hother
  by_cases heq : other = owner
  · subst heq
    obtain ⟨front, back, hsplit, -, hset⟩ := MacroCall.setChildren_split hnames hargument
    obtain rfl := Option.some.inj (hplaced.call.symm.trans hother)
    obtain ⟨d, hd, hdefined⟩ := hdeclared other call hcall
    refine ⟨d, hd, ?_⟩
    rw [← hdefined, hset, hsplit]
    simp
  · rw [hplaced.others other heq] at hother
    by_cases hold : other < t.size
    · rw [hregroups.calls other hold] at hother
      exact hdeclared other others hother
    · exact (hregroups.holder other (Nat.le_of_not_lt hold)).declared others hother

theorem Placed.rooted (hrooted : t.Rooted) :
    v.Rooted ∧ Stepped registry rank t owner later v := by
  have howner := Tree.lt_of_call? hcall
  obtain ⟨before, after, hbelow, hbelow'⟩ := hplaced.below_split hcall hnames hargument
  have hrow : Row t (before ++ argument.children ++ after) := by
    rw [← hbelow]
    exact ⟨hrooted.distinct owner, fun id hid => hrooted.lt_of_below hid⟩
  have hall : Regroups registry rank t (t.below owner) later u (v.below owner) := by
    rw [hbelow, hbelow']
    exact hregroups.around _ _ hrow
  refine ⟨rooted_placed hrooted howner hall hplaced ?_ ?_, stepped_placed howner hall hplaced⟩
  · intro id hid
    rw [hbelow']
    simp [hid]
  · intro id hid hnot
    rw [hbelow'] at hid
    rw [hbelow]
    simp only [List.mem_append] at hid ⊢
    tauto

end

/-- The nodes of an argument are regrouped, and put back into it. -/
theorem Shape.placed {children : List NodeId} (h : Shape registry rank visited t)
    (hr : registry.Coherent) (hcall : t.call? owner = some call) (hargument : argument ∈ call.arguments)
    (hregroups : Regroups registry rank t argument.children later u children)
    (harranged : Arranged later u (rank owner) children)
    (hplaced : Placed u owner call argument.name children v) :
    Shape registry later
        (fun o name => visited o name ∨ o = owner ∧ name = argument.name) v ∧
      Stepped registry rank t owner later v := by
  have howner := Tree.lt_of_call? hcall
  have hnames := h.names_nodup hr hcall
  have hkept : t.Kept v := hregroups.kept.trans hplaced.kept
  have hcases : ∀ {other : NodeId} {others : MacroCall} {a : Argument},
      v.call? other = some others → a ∈ others.arguments → _ :=
    fun hother ha => hplaced.argument_cases hregroups hcall hnames hargument hother ha
  have hinside : ∀ {other : NodeId} {written : MacroCall} {a : Argument},
      t.call? other = some written → a ∈ written.arguments → ∀ id ∈ a.children, id < t.size :=
    fun hwritten ha id hid => h.lt_of_below (Tree.mem_below_of_argument hwritten ha hid)
  obtain ⟨hrooted, hstepped⟩ := hplaced.rooted hregroups hcall hnames hargument h.toRooted
  refine ⟨⟨hrooted, hplaced.declared hregroups hcall hnames hargument h.declared, ?_, ?_, ?_, ?_⟩,
    hstepped⟩
  · rintro other name (hvisited | ⟨rfl, -⟩)
    · exact Nat.lt_of_lt_of_le (h.known other name hvisited) hkept.size_le
    · exact Nat.lt_of_lt_of_le howner hkept.size_le
  · intro other others hother a ha hnot
    rcases hcases hother ha with ⟨rfl, rfl⟩ | ⟨hold, -, written, hwritten, hname, ha⟩ |
      ⟨hfresh, hother⟩
    · exact absurd (.inr ⟨rfl, rfl⟩) hnot
    · have hpending := h.pending other written hwritten a ha fun hvisited => hnot (.inl hvisited)
      rw [hname, hregroups.ranks other hold]
      exact hpending.kept hkept (hinside hwritten ha) hregroups.ranks
    · have hholder := hregroups.holder other hfresh
      refine (hholder.pending others hother a ha).kept hplaced.kept ?_ fun _ _ => rfl
      intro id hid
      exact (hholder.within id (Tree.mem_below_of_argument hother ha hid)).2
  · intro other others hother a ha hvisited
    rcases hcases hother ha with ⟨rfl, rfl⟩ | ⟨hold, hne, written, hwritten, hname, ha⟩ |
      ⟨hfresh, -⟩
    · rw [hregroups.ranks other howner]
      exact harranged.kept hplaced.kept hregroups.row.inside fun _ _ => rfl
    · have hbefore : visited other a.name := by
        rcases hvisited with hvisited | ⟨heq, hsame⟩
        · exact hvisited
        · exact absurd hsame (hne heq)
      rw [hregroups.ranks other hold]
      exact (h.arranged other written hwritten a ha hbefore).kept hkept (hinside hwritten ha)
        hregroups.ranks
    · rcases hvisited with hvisited | ⟨rfl, -⟩
      · exact absurd (h.known other _ hvisited) (Nat.not_lt.mpr hfresh)
      · exact absurd howner (Nat.not_lt.mpr hfresh)
  · rw [hkept.root_eq]
    intro others hother a ha hnot
    rcases hcases hother ha with ⟨heq, rfl⟩ | ⟨hold, -, written, hwritten, hname, ha⟩ |
      ⟨hfresh, -⟩
    · exact absurd (.inr ⟨heq, rfl⟩) hnot
    · obtain ⟨hfour, hranks⟩ := h.written written hwritten a ha fun hvisited => hnot (.inl hvisited)
      rw [hregroups.ranks t.root hold]
      refine ⟨hfour, fun id hid => ?_⟩
      rw [hregroups.ranks id (hinside hwritten ha id hid)]
      exact hranks id hid
    · exact absurd h.root_lt (Nat.not_lt.mpr hfresh)

/-- The stage of an argument that waits. That of the document is as it was written. -/
theorem Shape.stage (h : Shape registry rank visited t) (hcall : t.call? owner = some call)
    (hargument : argument ∈ call.arguments) (hnot : ¬ visited owner argument.name) :
    ∃ stage : Stage, stage.room ≤ rank owner ∧ (owner = t.root → stage = .written) ∧
      ∀ id ∈ argument.children, stage.Admits registry rank t call.name (rank owner) id := by
  by_cases hroot : owner = t.root
  · subst hroot
    obtain ⟨hfour, hranks⟩ := h.written call hcall argument hargument hnot
    exact ⟨.written, hfour, fun _ => rfl, fun id hid => ⟨hranks id hid, by simp, by simp⟩⟩
  · obtain ⟨stage, hroom, hadmits⟩ := h.pending owner call hcall argument hargument hnot
    exact ⟨stage, hroom, fun heq => absurd heq hroot, hadmits⟩

def arrangeOne (setting : Setting) (owner : NodeId) (name : String) (isRoot : Bool) (s : State)
    (argument : Argument) : State :=
  let result := arrangeArgument setting name isRoot argument s.tree
  { s with
    tree := if result.1 = argument.children then result.2
      else result.2.setChildren owner argument.name result.1 }

theorem arrange_eq (setting : Setting) (s : State) (owner : NodeId) (call : MacroCall)
    (isRoot : Bool) : arrange setting s owner call isRoot =
      call.arguments.foldl (arrangeOne setting owner call.name isRoot) s := rfl

section
variable {setting : Setting} {s : State} (h : Shape setting.registry rank visited s.tree)
variable (hr : setting.registry.Coherent) (hcall : s.tree.call? owner = some call)
variable (hargument : argument ∈ call.arguments)
include h hcall hargument

theorem Shape.row : Row s.tree argument.children := by
  refine ⟨?_, fun id hid => h.lt_of_below (Tree.mem_below_of_argument hcall hargument hid)⟩
  have hdistinct := h.distinct owner
  rw [Tree.below_of_call? hcall] at hdistinct
  exact (List.nodup_flatMap.mp hdistinct).1 argument hargument

include hr

/-- The nodes of an argument are regrouped, and then stand in it. -/
theorem Shape.arrangeOne_placed (hnot : ¬ visited owner argument.name) :
    let result := arrangeArgument setting call.name (owner = s.tree.root) argument s.tree
    (∃ later, Regroups setting.registry rank s.tree argument.children later result.2 result.1 ∧
      Arranged later result.2 (rank owner) result.1) ∧
    Placed result.2 owner call argument.name result.1
      (arrangeOne setting owner call.name (owner = s.tree.root) s argument).tree := by
  have hrow := h.row hcall hargument
  obtain ⟨t, _, _, _, _, _, _, _, _, _⟩ := s
  simp only [arrangeOne]
  have howner := Tree.lt_of_call? hcall
  have hmem : ∀ id ∈ argument.children, id ∈ t.below owner :=
    fun id hid => Tree.mem_below_of_argument hcall hargument hid
  obtain ⟨stage, hroom, hroot, hadmits⟩ := h.stage hcall hargument hnot
  have hwritten : decide (owner = t.root) = true → stage = .written :=
    fun hisRoot => hroot (of_decide_eq_true hisRoot)
  obtain ⟨later, hregroups, harranged⟩ :=
    arrangeArgument_regroups hrow hroom hadmits hwritten
  generalize arrangeArgument setting call.name (owner = t.root) argument t = result
    at hregroups harranged
  obtain ⟨children, u⟩ := result
  have hcall' : u.call? owner = some call := by rw [hregroups.calls owner howner, hcall]
  refine ⟨⟨later, hregroups, harranged⟩, ?_⟩
  split
  · next heq =>
    simp only at heq hregroups
    subst heq
    refine placed_self hcall' (h.names_nodup hr hcall) hargument fun id hid => ?_
    rw [hregroups.unmoved id (hrow.inside id hid) fun h => h, h.parent (hmem id hid)]
  · exact placed_setChildren hcall' _ hregroups.row.inside

theorem Shape.visitArgument (hnot : ¬ visited owner argument.name) :
    let t := (arrangeOne setting owner call.name (owner = s.tree.root) s argument).tree
    (∃ children, t.call? owner = some (call.setChildren argument.name children)) ∧ ∃ later,
      Shape setting.registry later
        (fun o name => visited o name ∨ o = owner ∧ name = argument.name) t ∧
      Stepped setting.registry rank s.tree owner later t := by
  obtain ⟨⟨later, hregroups, harranged⟩, hplaced⟩ := h.arrangeOne_placed hr hcall hargument hnot
  obtain ⟨hshape, hstepped⟩ := h.placed hr hcall hargument hregroups harranged hplaced
  exact ⟨⟨_, hplaced.call⟩, later, hshape, hstepped⟩

end

-- ----------------------------------------------------------------------------
-- All arguments of a macro
-- ----------------------------------------------------------------------------

theorem arrangeAll_shape {setting : Setting} {s : State} {arguments : List Argument}
    (hr : setting.registry.Coherent) (h : Shape setting.registry rank visited s.tree)
    (hcall : s.tree.call? owner = some call) (hnames : (arguments.map (·.name)).Nodup)
    (harguments : ∀ argument ∈ arguments,
      argument ∈ call.arguments ∧ ¬ visited owner argument.name) :
    let t := (arguments.foldl (arrangeOne setting owner call.name (owner = s.tree.root)) s).tree
    ∃ later, Shape setting.registry later
        (fun o name => visited o name ∨ o = owner ∧ name ∈ arguments.map (·.name)) t ∧
      Stepped setting.registry rank s.tree owner later t := by
  induction arguments generalizing s rank visited call with
  | nil => exact ⟨rank, by simpa using h, .refl ..⟩
  | cons argument rest ih =>
    obtain ⟨hargument, hnot⟩ := harguments argument List.mem_cons_self
    obtain ⟨hnew, hrest⟩ := List.nodup_cons.mp hnames
    obtain ⟨⟨children, hafter⟩, later, hshape, hstepped⟩ :=
      h.visitArgument hr hcall hargument hnot
    obtain ⟨front, back, hsplit, -, hset⟩ :=
      MacroCall.setChildren_split (h.names_nodup hr hcall) hargument
    have hnext : ∀ other ∈ rest, other ∈ (call.setChildren argument.name children).arguments ∧
        ¬ (visited owner other.name ∨ owner = owner ∧ other.name = argument.name) := by
      intro other hother
      have hne : other.name ≠ argument.name := fun heq =>
        hnew (List.mem_map.mpr ⟨other, hother, heq⟩)
      obtain ⟨hmem, hnot⟩ := harguments other (List.mem_cons_of_mem _ hother)
      refine ⟨?_, fun hvisited => hvisited.elim hnot fun heq => hne heq.2⟩
      rw [hsplit] at hmem
      rw [hset]
      simp only [List.mem_append, List.mem_cons] at hmem ⊢
      exact hmem.imp_right (·.imp_left fun heq => absurd (congrArg (·.name) heq) hne)
    have hlast := ih hshape hafter hrest hnext
    rw [hstepped.kept.root_eq] at hlast
    obtain ⟨last, hshape', hstepped'⟩ := hlast
    refine ⟨last, hshape'.congr ?_ ?_, hstepped.trans hstepped'⟩
    · rintro o name (hvisited | ⟨rfl, -⟩)
      · exact Nat.lt_of_lt_of_le (h.known o name hvisited) (hstepped.trans hstepped').kept.size_le
      · exact Nat.lt_of_lt_of_le (Tree.lt_of_call? hcall) (hstepped.trans hstepped').kept.size_le
    · intro o _ _ a _
      simp only [List.map_cons, List.mem_cons]
      tauto

end Assembly
end Macromark
