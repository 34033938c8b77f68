import Macromark.Proofs.Assembly.Identifiers
import Macromark.Proofs.Assembly.Untouched
import Macromark.Proofs.Outline

/-!
# Scopes

The chain of open headers is that of the headers that enclose the next visit, and
each of them keeps the scope that it has opened (`Chained`). So an identifier has
the scope of the last header around its macro that opens one
(`analyze_scopes`).
-/

namespace Macromark

/-- The scope that a header opens, if it has an identifier and was `written` as one. -/
def Tree.scopeId? (registry : Registry) (t written : Tree) (x : NodeId) : Option String :=
  if Text.isTruthy (written.argumentText registry x "scope") then t.id? x else none

def Tree.ownName (registry : Registry) (t : Tree) (call : MacroCall) (definition : MacroDef)
    (x : NodeId) : String :=
  if call.supplies "id" then t.argumentText registry x "id"
  else Identifier.ofTitleWithStem (t.argumentText registry x "title") definition.idStem

namespace Assembly

open Outline (enclosing mem_enclosing isOpen_iff enclosing_map enclosing_snoc enclosing_of_none)

variable {setting : Setting} {s u start : State} {node x : NodeId} {asked given : Option String}
variable {t : Tree} {made : List Arrival} {visit : Visit} {arrival : Arrival}

/-- The level at which a visit links its node as a header. -/
def headingLevel? (setting : Setting) (arrival : Arrival) : Option Level :=
  if arrival.node = arrival.before.tree.root then none
  else if arrival.before.tree.isHeading setting.registry arrival.node then
    some (levelOf setting arrival.before arrival.node).1
  else none

def State.heading (s : State) (header : HeaderId) : Level × Option String :=
  (s.headers.level header, s.scopes.get? header)

/-- The same of the visit that has opened it, where `t` was written. -/
def State.headingOf (setting : Setting) (t : Tree) (s : State) (arrival : Arrival) :
    Level × Option String :=
  ((headingLevel? setting arrival).getD 0, s.tree.scopeId? setting.registry t arrival.node)

/-- What is known of the headers after the visits of `made`, the last of them first. -/
structure Chained (setting : Setting) (t : Tree) (made : List Arrival) (s : State) : Prop where
  outline : s.headers.outline = (some t.root, 0) :: made.reverse.filterMap fun arrival =>
    (headingLevel? setting arrival).map fun level => (some arrival.node, level)
  chain : ∃ ids, s.headers.chain = ids ++ [HeaderTree.root] ∧ ids.map s.heading =
    ((enclosing (headingLevel? setting) [] made.reverse).map (s.headingOf setting t)).reverse
  inside : ∀ header ∈ s.headers.chain, header < s.headers.nodes.size
  fresh : ∀ header, s.headers.nodes.size ≤ header → s.scopes.get? header = none
  top : s.scopes.get? HeaderTree.root = none

theorem scopesOf_eq (s : State) (ids : List HeaderId) :
    scopesOf s ids = (ids.map s.heading).filterMap (·.2) := by
  rw [List.filterMap_map]
  rfl

theorem filterMap_headingOf (arrivals : List Arrival) :
    (arrivals.map (s.headingOf setting t)).filterMap (·.2) =
      arrivals.filterMap fun arrival => s.tree.scopeId? setting.registry t arrival.node := by
  simp only [List.filterMap_map, Function.comp_def, State.headingOf]

section
variable (h : Chained setting t made s)
include h

/-- The open scopes are those of the enclosing headers that open one. -/
theorem Chained.scopesAround (hnone : headingLevel? setting arrival = none) :
    scopesAround s = ((enclosing (headingLevel? setting) [arrival] made.reverse).filterMap
      fun arrival => s.tree.scopeId? setting.registry t arrival.node).reverse := by
  obtain ⟨ids, hchain, hids⟩ := h.chain
  have htop : ([HeaderTree.root].map s.heading).filterMap (·.2) = [] := by
    simp [State.heading, h.top]
  rw [Assembly.scopesAround, hchain, scopesOf_eq, List.map_append, List.filterMap_append, hids,
    enclosing_of_none hnone, htop, List.append_nil, List.filterMap_reverse, filterMap_headingOf]

/-- The innermost open scope is that of the last enclosing header that opens one. -/
theorem Chained.innerScope (hnone : headingLevel? setting arrival = none) :
    innerScope s = ((enclosing (headingLevel? setting) [arrival] made.reverse).filterMap
      fun arrival => s.tree.scopeId? setting.registry t arrival.node).getLast? := by
  rw [Assembly.innerScope, h.scopesAround hnone, List.head?_reverse]

/-- That of a header is the innermost one behind which it is not closed. -/
theorem Chained.outerScope {level : Level} (hlevel : headingLevel? setting arrival = some level) :
    outerScope { s with headers := (s.headers.enter node level).2 } =
      ((enclosing (headingLevel? setting) [arrival] made.reverse).filterMap
        fun arrival => s.tree.scopeId? setting.registry t arrival.node).getLast? := by
  obtain ⟨ids, hchain, hids⟩ := h.chain
  have hclosed : s.headers.close level s.headers.chain =
      (ids.dropWhile fun id => level ≤ (s.heading id).1) ++ [HeaderTree.root] := by
    rw [hchain, HeaderTree.close_root]
    rfl
  have hcut := Outline.map_dropWhile (fun _ => rfl) hids hlevel
  have htop : ([HeaderTree.root].map s.heading).filterMap (·.2) = [] := by
    simp [State.heading, h.top]
  change (scopesOf s (s.headers.close level s.headers.chain)).head? = _
  rw [hclosed, scopesOf_eq, List.map_append, List.filterMap_append, hcut, htop, List.append_nil,
    List.filterMap_reverse, List.head?_reverse, filterMap_headingOf]

theorem Chained.scopeAt (hroot : visit.node ≠ s.tree.root)
    (hsynonym : s.tree.isSynonym setting.registry visit.node = false) :
    scopeAt setting s visit.node =
      ((enclosing (headingLevel? setting) [⟨visit, s⟩] made.reverse).filterMap
        fun arrival => s.tree.scopeId? setting.registry t arrival.node).getLast? := by
  unfold Assembly.scopeAt
  rw [hsynonym]
  simp only [Bool.false_eq_true, if_false]
  split
  · next hheading => exact h.outerScope (by simp [headingLevel?, hroot, hheading])
  · next hother => exact h.innerScope (by simp [headingLevel?, hother])

end

-- ----------------------------------------------------------------------------
-- One visit
-- ----------------------------------------------------------------------------

theorem Opening.tree (h : Opening setting node s given u) (v : Tree) :
    Opening setting node s given { u with tree := v } := by
  cases h with
  | aside hother hsame =>
    exact .aside hother ⟨hsame.headers, hsame.headerIds, hsame.scopes, hsame.aborted⟩
  | opened hroot hheading h =>
    exact .opened hroot hheading ⟨h.headers, h.headerIds, h.scopes, h.aborted⟩

theorem map_headingOf (hids : ∀ arrival ∈ made, u.tree.id? arrival.node = s.tree.id? arrival.node)
    (last : List Arrival) :
    (enclosing (headingLevel? setting) last made.reverse).map (u.headingOf setting t) =
      (enclosing (headingLevel? setting) last made.reverse).map (s.headingOf setting t) := by
  refine List.map_congr_left fun arrival harrival => ?_
  obtain ⟨front, back, hsplit, -⟩ := mem_enclosing.mp harrival
  have hmade : arrival ∈ made := by
    rw [← List.mem_reverse, hsplit]
    simp
  simp only [State.headingOf, Tree.scopeId?, hids arrival hmade]

theorem Chained.aside (h : Chained setting t made s) (hsame : SameScopes s u)
    (hids : ∀ arrival ∈ made, u.tree.id? arrival.node = s.tree.id? arrival.node)
    (hnone : headingLevel? setting arrival = none) : Chained setting t (arrival :: made) u := by
  obtain ⟨houtline, ⟨ids, hchain, hheadings⟩, hinside, hfresh, htop⟩ := h
  have hheading : u.heading = s.heading := by
    funext header
    rw [State.heading, State.heading, hsame.headers, hsame.scopes]
  refine ⟨?_, ⟨ids, ?_, ?_⟩, ?_, ?_, ?_⟩
  · rw [hsame.headers, houtline, List.reverse_cons, List.filterMap_append]
    simp [hnone]
  · rw [hsame.headers, hchain]
  · rw [hheading, hheadings, List.reverse_cons, enclosing_snoc, hnone, enclosing_of_none hnone,
      List.map_append, map_headingOf hids]
    simp
  · rwa [hsame.headers]
  · rwa [hsame.headers, hsame.scopes]
  · rwa [hsame.scopes]

theorem Chained.opened {level : Level} (h : Chained setting t made s) (arrival : Arrival)
    (hopened : Opened setting arrival.node level given s u)
    (hids : ∀ arrival ∈ made, u.tree.id? arrival.node = s.tree.id? arrival.node)
    (hlevel : headingLevel? setting arrival = some level)
    (hgiven : u.tree.scopeId? setting.registry t arrival.node =
      if Text.isTruthy (text setting s arrival.node "scope") then given else none) :
    Chained setting t (arrival :: made) u := by
  obtain ⟨houtline, ⟨ids, hchain, hheadings⟩, hinside, hfresh, htop⟩ := h
  obtain ⟨hheaders, -, hscopes⟩ := hopened
  have hold : ∀ header, header < s.headers.nodes.size → u.heading header = s.heading header := by
    intro header hlt
    rw [State.heading, State.heading, hheaders, HeaderTree.level_enter _ _ _ hlt, hscopes,
      if_neg fun hnew => Nat.lt_irrefl _ (hnew.1 ▸ hlt)]
  have hnew : u.heading s.headers.nodes.size = u.headingOf setting t arrival := by
    rw [State.heading, State.headingOf, hheaders, HeaderTree.level_enter_self, hlevel, hgiven, hscopes,
      hfresh _ (Nat.le_refl _)]
    cases given <;> simp
  have hmem : ∀ header ∈ ids, header < s.headers.nodes.size := fun header hheader =>
    hinside header (hchain ▸ List.mem_append_left _ hheader)
  have hroot : HeaderTree.root < s.headers.nodes.size := hinside _ (by simp [hchain])
  have hlink : u.headers.chain = (s.headers.nodes.size ::
      ids.dropWhile fun id => level ≤ (s.heading id).1) ++ [HeaderTree.root] := by
    have hclosed := s.headers.close_root level ids
    rw [hheaders, HeaderTree.enter, hchain, hclosed]
    rfl
  have hsub := List.dropWhile_sublist (fun id => decide (level ≤ (s.heading id).1)) (l := ids)
  refine ⟨?_, ⟨_, hlink, ?_⟩, ?_, ?_, ?_⟩
  · rw [hheaders, HeaderTree.outline_enter, houtline, List.reverse_cons, List.filterMap_append]
    simp [hlevel]
  · have hcut := Outline.map_dropWhile (fun _ => rfl) hheadings hlevel
    rw [List.map_cons, hnew, List.reverse_cons, enclosing_snoc, hlevel, List.map_append,
      map_headingOf hids, List.reverse_append, ← hcut]
    simp only [Option.isSome_some, if_true, List.map_singleton, List.reverse_singleton,
      List.singleton_append, List.cons.injEq, true_and]
    exact List.map_congr_left fun header hheader => hold header (hmem header (hsub.subset hheader))
  · rw [hlink, hheaders, HeaderTree.size_enter]
    intro header hheader
    simp only [List.cons_append, List.mem_cons, List.mem_append, List.not_mem_nil, or_false] at hheader
    rcases hheader with rfl | hheader | rfl
    · exact Nat.lt_succ_self _
    · exact Nat.lt_succ_of_lt (hmem header (hsub.subset hheader))
    · exact Nat.lt_succ_of_lt hroot
  · intro header hheader
    rw [hheaders, HeaderTree.size_enter] at hheader
    rw [hscopes, if_neg fun hnew => Nat.not_succ_le_self _ (hnew.1 ▸ hheader)]
    exact hfresh header (Nat.le_of_succ_le hheader)
  · rw [hscopes, if_neg fun hnew => Nat.lt_irrefl _ (hnew.1 ▸ hroot), htop]

-- ----------------------------------------------------------------------------
-- All visits
-- ----------------------------------------------------------------------------

theorem Naming.id?_eq (h : Naming setting node s asked given u) (hunnamed : s.tree.id? node = none) :
    u.tree.id? node = given := by
  cases h with
  | nameless hsame => rw [hsame.tree, hunnamed]
  | refused _ htree => rw [htree, hunnamed]
  | entered _ hname _ _ _ htree => rw [Tree.id?, label_entered hname htree, if_pos rfl]

theorem Naming.asked_of_given {id : String} (h : Naming setting node s asked (some id) u) :
    asked = some id := by
  cases h
  rfl

/-- What the visits of a written document may rely on. -/
structure Ready (setting : Setting) (t : Tree) : Prop where
  coherent : setting.registry.Coherent
  acyclic : t.Acyclic
  indexed : Indexed setting [] (registerDocument setting (.initial t)).index
    (registerDocument setting (.initial t)).tree
  chained : Chained setting t [] (registerDocument setting (.initial t))

theorem Visited.chained (h : Visited setting (registerDocument setting (.initial t)) made s)
    (ht : Ready setting t) : Chained setting t made s := by
  induction h with
  | start => exact ht.chained
  | @visit earlier s rank visit hvisited hshape hnot hnode _ ih =>
    obtain ⟨given, named, hnaming, hopening, hrest, hadorned⟩ :=
      visitNode_naming visit hshape.declared hnode
    rw [hrest]
    generalize (visitNode setting visit s).2.tree = v at hadorned ⊢
    have hids : ∀ arrival ∈ earlier, v.id? arrival.node = s.tree.id? arrival.node := by
      intro arrival harrival
      have hne : arrival.node ≠ visit.node := fun heq => hnot (heq ▸ List.mem_map_of_mem harrival)
      rw [Tree.id?, hadorned.labels, ← Tree.id?, Tree.id?_eq, Tree.id?_eq, hnaming.others hne]
    cases hopening.tree v with
    | aside hother hsame =>
      refine ih.aside hsame hids ?_
      rcases hother with hroot | hheading
      · simp [headingLevel?, hroot]
      · simp [headingLevel?, hheading]
    | opened hroot hheading hopened =>
      have hlevel : headingLevel? setting ⟨visit, s⟩ = some (levelOf setting s visit.node).1 := by
        simp [headingLevel?, hroot, hheading]
      have hunnamed :=
        (hvisited.indexed ht.coherent ht.indexed).waiting visit.node hnot hroot
      have hgiven : v.id? visit.node = given := by
        rw [Tree.id?, hadorned.labels, ← Tree.id?, hnaming.id?_eq hunnamed]
      refine ih.opened ⟨visit, s⟩ hopened hids hlevel ?_
      simp only [Tree.scopeId?, hgiven]
      cases given with
      | none => simp
      | some id =>
        have hlt := hvisited.lt_of_requestedId ht.coherent hnaming.asked_of_given
        have htext :=
          (hvisited.written ht.coherent ht.acyclic hshape.acyclic hlt hnot setting.registry).2 "scope"
        rw [text, htext]

theorem registerDocument_headers (setting : Setting) (hrooted : t.Rooted) :
    (registerDocument setting (.initial t)).headers = .new (some t.root) ∧
      (registerDocument setting (.initial t)).scopes = [] := by
  have hempty : t.isEmpty = false := Tree.isEmpty_of_lt hrooted.root_lt
  unfold registerDocument
  split
  · simp [State.initial, hempty]
  · simp only
    split <;> simp [State.initial, hempty]

theorem registerDocument_chained (setting : Setting) (hrooted : t.Rooted) :
    Chained setting t [] (registerDocument setting (.initial t)) := by
  obtain ⟨hheaders, hscopes⟩ := registerDocument_headers setting hrooted
  refine ⟨?_, ⟨[], ?_, rfl⟩, ?_, ?_, ?_⟩
  · rw [hheaders]
    rfl
  · rw [hheaders]
    rfl
  · rw [hheaders]
    simp [HeaderTree.new, HeaderTree.root]
  · simp [hscopes]
  · simp [hscopes]

theorem Visited.before {later earlier : List Arrival}
    (h : Visited setting start (later ++ arrival :: earlier) u) :
    Visited setting start earlier arrival.before ∧
      arrival.before.tree.Acyclic ∧ arrival.node ∉ earlier.map (·.node) := by
  induction later generalizing u with
  | nil =>
    cases h with
    | visit hvisited hshape hnot => exact ⟨hvisited, hshape.acyclic, hnot⟩
  | cons last later ih =>
    cases h with
    | visit hvisited => exact ih hvisited

theorem Visited.root_eq (h : Visited setting start made s) (hr : setting.registry.Coherent) :
    s.tree.root = start.tree.root := by
  induction h with
  | start => rfl
  | visit _ hshape hnot hnode _ ih =>
    obtain ⟨-, later, -, hstepped⟩ := visitNode_shape hr hshape hnode fun _ => hnot
    rw [hstepped.kept.root_eq, ih]

theorem Visited.distinct (h : Visited setting start made s) : (made.map (·.node)).Nodup := by
  induction h with
  | start => exact .nil
  | visit _ _ hnot _ _ ih => exact List.nodup_cons.mpr ⟨hnot, ih⟩

theorem Visited.kept (h : Visited setting start made s) (hr : setting.registry.Coherent)
    (harrival : arrival ∈ made) :
    arrival.before.tree.Kept s.tree ∧ arrival.node < arrival.before.tree.size := by
  induction h with
  | start => simp at harrival
  | @visit earlier s rank visit _ hshape hnot hnode _ ih =>
    obtain ⟨-, later, -, hstepped⟩ := visitNode_shape hr hshape hnode fun _ => hnot
    rcases List.mem_cons.mp harrival with rfl | harrival
    · exact ⟨hstepped.kept, hnode⟩
    · obtain ⟨hkept, hlt⟩ := ih harrival
      exact ⟨hkept.trans hstepped.kept, hlt⟩

/-- The outline tells the level of each header that has been visited. -/
theorem find?_headings {level? : Arrival → Option Level} {order : List Arrival}
    (hdistinct : (order.map (·.node)).Nodup) (harrival : arrival ∈ order) :
    ((order.filterMap fun a => (level? a).map fun level => (some a.node, level)).find?
      (·.1 == some arrival.node)).map (·.2) = level? arrival := by
  induction order with
  | nil => simp at harrival
  | cons first order ih =>
    rw [List.map_cons, List.nodup_cons] at hdistinct
    obtain ⟨hnot, hdistinct⟩ := hdistinct
    rcases List.mem_cons.mp harrival with rfl | harrival
    · cases hlevel : level? arrival with
      | some level => simp [hlevel]
      | none =>
        rw [List.filterMap_cons_none (by simp [hlevel]), Option.map_eq_none_iff, List.find?_eq_none]
        intro entry hentry
        obtain ⟨a, ha, heq⟩ := List.mem_filterMap.mp hentry
        obtain ⟨level, -, rfl⟩ := Option.map_eq_some_iff.mp heq
        have hne : a.node ≠ arrival.node := fun heq => hnot (heq ▸ List.mem_map_of_mem ha)
        simpa using hne
    · have hne : first.node ≠ arrival.node := fun heq => hnot (heq ▸ List.mem_map_of_mem harrival)
      cases hlevel : level? first with
      | none => simpa [hlevel] using ih hdistinct harrival
      | some level => simpa [hlevel, hne] using ih hdistinct harrival

theorem Chained.levelOf? (h : Chained setting t made s) (hdistinct : (made.map (·.node)).Nodup)
    (harrival : arrival ∈ made) :
    s.headers.levelOf? arrival.node = headingLevel? setting arrival := by
  rw [HeaderTree.levelOf?_eq, h.outline]
  refine find?_headings ?_ (List.mem_reverse.mpr harrival)
  rwa [List.map_reverse, List.nodup_reverse]

theorem underScope_ne_empty {name : String} (hname : name ≠ "") (scope : Option String) :
    Identifier.underScope scope name ≠ "" := by
  unfold Identifier.underScope
  split
  · next scope =>
    split
    · exact hname
    · change scope ++ "/" ++ name ≠ ""
      simp [hname]
  · exact hname

theorem localId_eq {call : MacroCall} {definition : MacroDef} {name : String}
    (h : localId setting s x call definition = some name) :
    name = (if call.supplies "id" then text setting s x "id"
      else Identifier.ofTitleWithStem (text setting s x "title") definition.idStem) ∧ name ≠ "" := by
  unfold localId at h
  simp only [Option.ite_none_left_eq_some, Option.some.injEq] at h
  obtain ⟨-, hname, rfl⟩ := h
  refine ⟨?_, hname⟩
  split
  · rfl
  · next hid =>
    rw [if_neg hid] at hname
    split
    · rfl
    · next htitle => exact absurd (if_neg htitle) hname

/-- A name under a scope, if there is one. -/
def under (scope? : Option String) (name : String) : String :=
  match scope? with
  | some scope => scope ++ "/" ++ name
  | none => name

theorem underScope_eq {scope? : Option String} (h : scope? ≠ some "") (name : String) :
    Identifier.underScope scope? name = under scope? name := by
  cases scope? with
  | none => rfl
  | some scope => exact if_neg fun heq => h (congrArg some heq)

theorem requestedId_eq {id : String} (hasked : requestedId setting s x = some id) :
    ∃ call definition, s.tree.call? x = some call ∧ setting.registry.get? call.name = some definition ∧
      let name := if call.supplies "id" then text setting s x "id"
        else Identifier.ofTitleWithStem (text setting s x "title") definition.idStem
      id = Identifier.underScope (scopeAt setting s x) name ∧ name ≠ "" := by
  unfold requestedId at hasked
  split at hasked
  · cases hasked
  · simp only [Option.bind_eq_bind, Option.bind_eq_some_iff, Option.pure_def, Option.some.injEq]
      at hasked
    obtain ⟨call, hcall, definition, hdefined, name, hlocal, rfl⟩ := hasked
    obtain ⟨rfl, hne⟩ := localId_eq hlocal
    exact ⟨call, definition, hcall, hdefined, rfl, hne⟩

theorem requestedId_of_granted {id : String} (h : granted setting arrival = some id) :
    requestedId setting arrival.before arrival.node = some id := by
  unfold Assembly.granted at h
  split at h
  · cases h
  · exact h

section
variable {later earlier : List Arrival}
variable (h : Visited setting (registerDocument setting (.initial t)) (later ++ arrival :: earlier) s)
variable (ht : Ready setting t)
include h ht

/-- The headers around a visit were visited before, and the document is none of them. -/
theorem Visited.of_enclosing {other : Arrival}
    (hother : other ∈ enclosing (headingLevel? setting) [arrival] earlier.reverse) :
    other ∈ earlier ∧ s.tree.id? other.node = Assembly.granted setting other ∧
      arrival.before.tree.id? other.node = Assembly.granted setting other := by
  obtain ⟨hvisited, -, -⟩ := h.before
  obtain ⟨front, back, hfront, hopen⟩ := mem_enclosing.mp hother
  obtain ⟨level, hlevel, -⟩ := isOpen_iff.mp hopen
  have hearlier : other ∈ earlier := by
    rw [← List.mem_reverse, hfront]
    simp
  obtain ⟨first, last, rfl⟩ := List.append_of_mem hearlier
  have hroot : other.node ≠ (registerDocument setting (.initial t)).tree.root := by
    intro heq
    rw [← hvisited.before.1.root_eq ht.coherent] at heq
    simp [headingLevel?, heq] at hlevel
  exact ⟨hearlier, h.granted ht.coherent ht.indexed (by simp) (h.root_eq ht.coherent ▸ hroot),
    hvisited.granted ht.coherent ht.indexed hearlier (hvisited.root_eq ht.coherent ▸ hroot)⟩

/-- The scopes that were open at a visit are those that the finished tree tells. -/
theorem Visited.scopeId?_eq :
    (enclosing (headingLevel? setting) [arrival] earlier.reverse).filterMap
        (fun other => arrival.before.tree.scopeId? setting.registry t other.node) =
      (enclosing (headingLevel? setting) [arrival] earlier.reverse).filterMap
        fun other => s.tree.scopeId? setting.registry t other.node := by
  refine List.filterMap_congr fun other hother => ?_
  obtain ⟨-, hafter, hbefore⟩ := h.of_enclosing ht hother
  rw [Tree.scopeId?, Tree.scopeId?, hafter, hbefore]

theorem Visited.scope_ne_empty :
    ((enclosing (headingLevel? setting) [arrival] earlier.reverse).filterMap
      fun other => s.tree.scopeId? setting.registry t other.node).getLast? ≠ some "" := by
  intro hlast
  obtain ⟨other, hother, hscope⟩ := List.mem_filterMap.mp (List.mem_of_getLast? hlast)
  obtain ⟨-, hafter, -⟩ := h.of_enclosing ht hother
  rw [Tree.scopeId?, hafter, Option.ite_none_right_eq_some] at hscope
  obtain ⟨_, _, _, _, hid, hname⟩ := requestedId_eq (requestedId_of_granted hscope.2)
  exact underScope_ne_empty hname _ hid.symm

/-- The headers that enclosed a visit are those that the finished header tree tells. -/
theorem Visited.enclosing_eq :
    enclosing s.headers.levelOf? [arrival.node]
        (((later ++ arrival :: earlier).reverse.map (·.node)).takeWhile (· != arrival.node)) =
      (enclosing (headingLevel? setting) [arrival] earlier.reverse).map (·.node) := by
  have hlevel : ∀ other ∈ earlier.reverse ++ [arrival],
      s.headers.levelOf? other.node = headingLevel? setting other := by
    intro other hother
    refine (h.chained ht).levelOf? h.distinct ?_
    rw [List.mem_append, List.mem_reverse, List.mem_singleton] at hother
    exact List.mem_append_right _ (List.mem_cons.mpr hother.symm)
  have hbefore : ((later ++ arrival :: earlier).reverse.map (·.node)).takeWhile (· != arrival.node) =
      earlier.reverse.map (·.node) := by
    obtain ⟨-, -, hnot⟩ := h.before
    rw [List.reverse_append, List.reverse_cons, List.append_assoc, List.map_append,
      List.takeWhile_append_of_pos]
    · simp
    · intro x hx
      rw [List.map_reverse, List.mem_reverse] at hx
      have hne : x ≠ arrival.node := fun heq => hnot (heq ▸ hx)
      simpa using hne
  rw [hbefore]
  exact enclosing_map hlevel

/-- An identifier is the macro's own name, under the innermost scope around it. -/
theorem Visited.id?_eq {id : String} (hroot : arrival.node ≠ s.tree.root)
    (hsynonym : t.isSynonym setting.registry arrival.node = false)
    (hid : s.tree.id? arrival.node = some id) :
    ∃ call definition, t.call? arrival.node = some call ∧
      setting.registry.get? call.name = some definition ∧
      id = under (((enclosing s.headers.levelOf? [arrival.node]
          (((later ++ arrival :: earlier).reverse.map (·.node)).takeWhile (· != arrival.node))).filterMap
            (s.tree.scopeId? setting.registry t)).getLast?)
        (t.ownName setting.registry call definition arrival.node) := by
  obtain ⟨hvisited, hacyclic, hnot⟩ := h.before
  rw [h.granted ht.coherent ht.indexed (by simp) hroot] at hid
  have hasked := requestedId_of_granted hid
  have hlt := hvisited.lt_of_requestedId ht.coherent hasked
  obtain ⟨call, definition, hcall, hdefined, hname, -⟩ := requestedId_eq hasked
  obtain ⟨hcalls, htexts⟩ := hvisited.written ht.coherent ht.acyclic hacyclic hlt hnot setting.registry
  rw [hcall, Option.map_some] at hcalls
  obtain ⟨written, hwritten, heq⟩ := Option.map_eq_some_iff.mp hcalls.symm
  obtain ⟨hsame, harguments⟩ := Prod.mk.inj heq
  refine ⟨written, definition, hwritten, hsame ▸ hdefined, ?_⟩
  have hroot' : arrival.node ≠ arrival.before.tree.root := by
    rwa [hvisited.root_eq ht.coherent, ← h.root_eq ht.coherent]
  have hscope := (hvisited.chained ht).scopeAt hroot'
    (by rwa [hvisited.isSynonym ht.coherent ht.acyclic hacyclic hlt hnot])
  have hown : (if call.supplies "id" then text setting arrival.before arrival.node "id"
      else Identifier.ofTitleWithStem (text setting arrival.before arrival.node "title")
        definition.idStem) = t.ownName setting.registry written definition arrival.node := by
    unfold Tree.ownName MacroCall.supplies MacroCall.argument?
    rw [harguments, text, text, htexts, htexts]
  rw [hname, hown, hscope, h.scopeId?_eq ht, h.enclosing_eq ht,
    List.filterMap_map, Function.comp_def]
  exact underScope_eq (h.scope_ne_empty ht) _

end

end Assembly

open Assembly (Ready registerDocument_chained registerDocument_indexed shape_of_grown under)

theorem parse_ready {registry : Registry} (hcheck : registry.check = .ok ()) (hr : registry.Coherent)
    (document source : String) :
    Ready ⟨registry, document⟩ (parse registry (tokenize source).tokens).tree := by
  obtain ⟨hgrown, hrooted, -, -⟩ := parse_tree registry (tokenize source).tokens
  obtain ⟨call, hroot, -⟩ := parse_toplevel hcheck source
  obtain ⟨hindexed, -⟩ := registerDocument_indexed ⟨registry, document⟩ hgrown hroot
  exact ⟨hr, (shape_of_grown hgrown hrooted).acyclic, hindexed, registerDocument_chained _ hrooted⟩

/-- The headers around a node: those before it that no header up to it closes. -/
def Analysis.enclosing (a : Analysis) (x : NodeId) : List NodeId :=
  Outline.enclosing a.headers.levelOf? [x] ((a.tree.preorder a.tree.root).takeWhile (· != x))

/-- The scopes around a node, the outermost first. -/
def Analysis.scopes (a : Analysis) (registry : Registry) (written : Tree) (x : NodeId) :
    List String :=
  (a.enclosing x).filterMap (a.tree.scopeId? registry written)

/-- An identifier is the name that the author gave the macro, or else that of its title, under the
scope of the last header around it that opens one. -/
theorem analyze_scopes {registry : Registry} (hcheck : registry.check = .ok ())
    (hr : registry.Coherent) (document source : String) :
    let a := analyze registry document source
    let written := (parse registry (tokenize source).tokens).tree
    ∀ x id, a.tree.Reaches a.tree.root x → x ≠ a.tree.root → written.isSynonym registry x = false →
      a.tree.id? x = some id → ∃ call definition, written.call? x = some call ∧
        registry.get? call.name = some definition ∧
        id = under (a.scopes registry written x).getLast?
          (written.ownName registry call definition x) := by
  intro a written x id hreaches hroot hsynonym hid
  obtain ⟨rank, final, hvisited, hshape, -, htree, -, hheaders, -, -, -, horder⟩ :=
    analyze_visits hr document source
  change a.tree = final.tree at htree
  obtain ⟨arrival, harrival, rfl⟩ := hshape.exists_arrival (htree ▸ horder) (htree ▸ hreaches)
  obtain ⟨later, earlier, hsplit⟩ := List.append_of_mem (List.mem_reverse.mpr harrival)
  rw [hsplit] at hvisited
  obtain ⟨call, definition, hcall, hdefined, hname⟩ :=
    hvisited.id?_eq (parse_ready hcheck hr document source) (htree ▸ hroot) hsynonym (htree ▸ hid)
  rw [← hsplit, List.reverse_reverse, horder, ← hheaders, ← htree] at hname
  exact ⟨call, definition, hcall, hdefined, hname⟩

theorem analyze_scopes_geese :
    let source := "\\h[1][Geese]{scope=1}\n\n\\h[2][Brent]"
    let a := analyze .builtin "zoo" source
    let written := (parse .builtin (tokenize source).tokens).tree
    Registry.builtin.check = .ok () ∧ Registry.builtin.Coherent ∧
      a.tree.Reaches a.tree.root 12 ∧ 12 ≠ a.tree.root ∧
      written.isSynonym .builtin 12 = false ∧ a.tree.id? 12 = some "geese/brent" ∧
      ∃ call definition, written.call? 12 = some call ∧
        Registry.builtin.get? call.name = some definition ∧
        "geese/brent" =
          under (a.scopes .builtin written 12).getLast? (written.ownName .builtin call definition 12) := by
  intro source a written
  have hreaches : a.tree.Reaches a.tree.root 12 := .single (by decide +kernel)
  have hroot : 12 ≠ a.tree.root := by decide +kernel
  have hsynonym : written.isSynonym .builtin 12 = false := by decide +kernel
  have hid : a.tree.id? 12 = some "geese/brent" := by decide +kernel
  exact ⟨by decide, Registry.coherent_builtin, hreaches, hroot, hsynonym, hid,
    analyze_scopes (by decide) Registry.coherent_builtin _ _ 12 _ hreaches hroot hsynonym hid⟩

end Macromark
