import Macromark.Proofs.Analysis
import Macromark.Proofs.Assembly.Naming
import Macromark.Proofs.Assembly.Tree
import Macromark.Proofs.Token.Shape

/-!
# Identifiers in the index and in the tree

An identifier is written down at its node, in the index and in its record. A
visit keeps the three in step (`Naming.indexed`), and what has once been entered
stays, so that the later of two nodes goes without (`Visited.refused`).
-/

namespace Macromark

theorem Registry.contains_toplevel {registry : Registry} (h : registry.check = .ok ()) :
    registry.contains MacroName.toplevel = true := by
  unfold check at h
  by_contra hmissing
  rw [Bool.not_eq_true] at hmissing
  simp [hmissing] at h

theorem Tree.Grown.label {registry : Registry} {t : Tree} (h : t.Grown registry) (x : NodeId) :
    t.label x = (none, none) := by
  cases hcall : t.call? x with
  | none => exact Tree.label_of_none hcall
  | some call =>
    obtain ⟨hid, hcount⟩ := h.unnamed x call hcall
    rw [Tree.label_of_call? hcall, hid, hcount]

namespace Assembly

variable {setting : Setting} {s u start : State} {node x : NodeId} {asked given : Option String}
variable {nodes : List NodeId} {index : Index} {t v : Tree} {id : String} {previous : IdRecord}
variable {made : List Arrival} {arrival : Arrival}

/-- Once `nodes` have been visited, a node carries the identifier under which it is entered. -/
structure Indexed (setting : Setting) (nodes : List NodeId) (index : Index) (t : Tree) : Prop where
  carried : ∀ id x r, index.entries.get? id = some (x, r) → t.label x = (some id, r.count) ∧
    r.location = site setting (t.position x)
  entered : ∀ x id, t.id? x = some id → ∃ r, index.entries.get? id = some (x, r)
  uncounted : ∀ x, t.id? x = none → t.count? x = none
  waiting : ∀ x, x ∉ nodes → x ≠ t.root → t.id? x = none

/-- The tree may go on as long as the labels stay. -/
theorem Indexed.tree (h : Indexed setting nodes index t) (hkept : t.Kept v)
    (hlabels : ∀ x, v.label x = t.label x) : Indexed setting nodes index v := by
  obtain ⟨hcarried, hentered, huncounted, hwaiting⟩ := h
  refine ⟨fun id x r hentry => ?_, fun x id hid => hentered x id ?_, fun x hid => ?_,
    fun x hx hne => ?_⟩
  · obtain ⟨hlabel, hplace⟩ := hcarried id x r hentry
    obtain ⟨call, hcall, -⟩ := Tree.exists_call?_of_id? (congrArg Prod.fst hlabel)
    rw [hlabels, hkept.position (Tree.lt_of_call? hcall)]
    exact ⟨hlabel, hplace⟩
  · rw [← hid, Tree.id?, Tree.id?, hlabels]
  · rw [Tree.id?, hlabels] at hid
    rw [Tree.count?, hlabels]
    exact huncounted x hid
  · rw [Tree.id?, hlabels]
    exact hwaiting x hx (hkept.root_eq ▸ hne)

theorem Indexed.mono {more : List NodeId} (h : Indexed setting nodes index t)
    (hmore : nodes ⊆ more) : Indexed setting more index t :=
  ⟨h.carried, h.entered, h.uncounted, fun x hx => h.waiting x fun hmem => hx (hmore hmem)⟩

theorem Naming.indexed (h : Naming setting node s asked given u)
    (hs : Indexed setting nodes s.index s.tree) (hnot : node ∉ nodes)
    (hroot : asked ≠ none → node ≠ s.tree.root) :
    Indexed setting (node :: nodes) u.index u.tree := by
  cases h with
  | nameless hsame =>
    rw [hsame.index, hsame.tree]
    exact hs.mono (List.subset_cons_self ..)
  | refused _ htree hindex =>
    rw [hindex, htree]
    exact hs.mono (List.subset_cons_self ..)
  | @entered _ id name r hfree hname hplace _ hentries htree =>
    have hunnamed := hs.waiting node hnot (hroot (by simp))
    have hlabel := label_entered hname htree
    have hposition : ∀ x, u.tree.position x = s.tree.position x := by
      intro x
      rw [htree]
      exact Tree.position_modifyCall ..
    have hnode : ∀ x, s.tree.id? x ≠ none → x ≠ node := fun x hx heq => hx (heq ▸ hunnamed)
    refine ⟨fun other x found hentry => ?_, fun x other hid => ?_, fun x hid => ?_,
      fun x hx hne => ?_⟩
    · rw [hentries] at hentry
      rw [hlabel, hposition]
      split at hentry
      · next heq =>
        obtain ⟨rfl, rfl⟩ := Prod.mk.inj (Option.some.inj hentry)
        rw [if_pos rfl, heq]
        exact ⟨rfl, hplace⟩
      · have hcarried := hs.carried other x found hentry
        rwa [if_neg (hnode x (by simp [Tree.id?, hcarried.1]))]
    · rw [Tree.id?, hlabel] at hid
      rw [hentries]
      split at hid
      · next heq => exact ⟨r, by rw [if_pos (Option.some.inj hid), heq]⟩
      · obtain ⟨found, hfound⟩ := hs.entered x other hid
        -- an identifier that is entered is not free
        have hne : id ≠ other := by
          rintro rfl
          simp [Index.record?, hfound] at hfree
        exact ⟨found, by rw [if_neg hne, hfound]⟩
    · rw [Tree.id?, hlabel] at hid
      rw [Tree.count?, hlabel]
      split at hid
      · simp at hid
      · next hne =>
        rw [if_neg hne]
        exact hs.uncounted x hid
    · obtain ⟨hne', hout⟩ := not_or.mp (List.mem_cons.not.mp hx)
      rw [Tree.id?, hlabel, if_neg hne']
      exact hs.waiting x hout (by rwa [htree] at hne)

-- ----------------------------------------------------------------------------
-- All visits
-- ----------------------------------------------------------------------------

def refused (setting : Setting) (arrival : Arrival) : Option (String × IdRecord) := do
  let id ← requestedId setting arrival.before arrival.node
  let previous ← arrival.before.index.record? id
  return (id, previous)

def refusal (setting : Setting) (arrival : Arrival) : Option Diagnostic :=
  (refused setting arrival).map fun (id, previous) =>
    ⟨.duplicateId id previous.location, arrival.before.tree.position arrival.node, setting.document⟩

def granted (setting : Setting) (arrival : Arrival) : Option String :=
  match refused setting arrival with
  | some _ => none
  | none => requestedId setting arrival.before arrival.node

theorem requestedId_root : requestedId setting s s.tree.root = none := by simp [requestedId]

theorem Visited.indexed (h : Visited setting start made s) (hr : setting.registry.Coherent)
    (hstart : Indexed setting [] start.index start.tree) :
    Indexed setting (made.map (·.node)) s.index s.tree := by
  induction h with
  | start => exact hstart
  | @visit earlier s rank visit _ hshape hnot hnode _ ih =>
    obtain ⟨given, named, hnaming, -, hrest, hadorned⟩ :=
      visitNode_naming visit hshape.declared hnode
    obtain ⟨-, later, -, hstepped⟩ := visitNode_shape hr hshape hnode fun _ => hnot
    have hroot : requestedId setting s visit.node ≠ none → visit.node ≠ s.tree.root := by
      rintro hasked heq
      rw [heq] at hasked
      exact hasked requestedId_root
    have hnamed := hnaming.indexed ih hnot hroot
    have hkept := hstepped.kept.from hnaming.labeled.kept hnaming.labeled.size_eq
    have hindex : (visitNode setting visit s).2.index = named.index := by rw [hrest]
    rw [hindex]
    exact hnamed.tree hkept hadorned.labels

theorem Visited.granted (h : Visited setting start made s) (hr : setting.registry.Coherent)
    (hstart : Indexed setting [] start.index start.tree) (harrival : arrival ∈ made)
    (hroot : arrival.node ≠ s.tree.root) : s.tree.id? arrival.node = granted setting arrival := by
  induction h with
  | start => simp at harrival
  | @visit earlier s rank visit hvisited hshape hnot hnode _ ih =>
    obtain ⟨given, named, hnaming, -, -, hadorned⟩ :=
      visitNode_naming visit hshape.declared hnode
    obtain ⟨-, later, -, hstepped⟩ := visitNode_shape hr hshape hnode fun _ => hnot
    rw [hstepped.kept.root_eq] at hroot
    rw [Tree.id?, hadorned.labels, ← Tree.id?]
    rcases List.mem_cons.mp harrival with rfl | harrival
    · have hunnamed := (hvisited.indexed hr hstart).waiting visit.node hnot hroot
      generalize hasked : requestedId setting s visit.node = asked at hnaming
      cases hnaming with
      | nameless hsame => simp [hsame.tree, hunnamed, Assembly.granted, Assembly.refused, hasked]
      | refused hprevious htree =>
        simp [htree, hunnamed, Assembly.granted, Assembly.refused, hasked, hprevious]
      | @entered _ id _ r hfree hname _ _ _ htree =>
        simp [Tree.id?, label_entered hname htree, Assembly.granted, Assembly.refused, hasked, hfree]
    · have hne : arrival.node ≠ visit.node := by
        intro heq
        exact hnot (heq ▸ List.mem_map_of_mem harrival)
      rw [Tree.id?_eq, hnaming.others hne, ← Tree.id?_eq]
      exact ih harrival hroot

/-- The record of the node that was there first stays. -/
theorem Visited.refused (h : Visited setting start made s) (hr : setting.registry.Coherent)
    (harrival : arrival ∈ made) (hrefused : refused setting arrival = some (id, previous)) :
    arrival.node ≠ s.tree.root ∧ s.index.record? id = some previous := by
  induction h with
  | start => simp at harrival
  | @visit earlier s rank visit hvisited hshape hnot hnode _ ih =>
    obtain ⟨given, named, hnaming, -, hrest, -⟩ :=
      visitNode_naming visit hshape.declared hnode
    obtain ⟨-, later, -, hstepped⟩ := visitNode_shape hr hshape hnode fun _ => hnot
    have hbefore : arrival.node ≠ s.tree.root ∧ s.index.record? id = some previous := by
      rcases List.mem_cons.mp harrival with rfl | harrival
      · obtain ⟨asked, hasked, htaken⟩ := Option.bind_eq_some_iff.mp hrefused
        obtain ⟨record, hrecord, heq⟩ := Option.bind_eq_some_iff.mp htaken
        obtain ⟨rfl, rfl⟩ := Prod.mk.inj (Option.some.inj heq)
        refine ⟨fun hroot => ?_, hrecord⟩
        simp only at hasked hroot
        rw [hroot, requestedId_root] at hasked
        cases hasked
      · exact ih harrival
    obtain ⟨hroot, hrecord⟩ := hbefore
    obtain ⟨entry, hentry, rfl⟩ := Option.map_eq_some_iff.mp hrecord
    have hindex : (visitNode setting visit s).2.index = named.index := by rw [hrest]
    rw [hindex, hstepped.kept.root_eq, Index.record?, hnaming.entry hentry]
    exact ⟨hroot, rfl⟩

/-- There is one report for each identifier that is refused, in the order of the visits. -/
theorem Visited.refusals (h : Visited setting start made s) :
    duplicates s.diagnostics =
      duplicates start.diagnostics ++ made.reverse.filterMap (refusal setting) := by
  induction h with
  | start => simp
  | @visit earlier s rank visit _ hshape _ hnode _ ih =>
    obtain ⟨given, named, hnaming, -, hrest, -⟩ :=
      visitNode_naming visit hshape.declared hnode
    have hdiagnostics : (visitNode setting visit s).2.diagnostics = named.diagnostics := by rw [hrest]
    have hreport : duplicates named.diagnostics =
        duplicates s.diagnostics ++ (refusal setting ⟨visit, s⟩).toList := by
      generalize hasked : requestedId setting s visit.node = asked at hnaming
      cases hnaming with
      | nameless hsame => simp [hsame.refusals, refusal, Assembly.refused, hasked]
      | refused hprevious _ _ _ hrefusals =>
        simp [hrefusals, refusal, Assembly.refused, hasked, hprevious]
      | entered hfree _ _ _ _ _ _ hrefusals =>
        simp [hrefusals, refusal, Assembly.refused, hasked, hfree]
    rw [hdiagnostics, hreport, ih, List.reverse_cons, List.filterMap_append, List.append_assoc]
    congr 2

-- ----------------------------------------------------------------------------
-- Before and after the visits
-- ----------------------------------------------------------------------------

theorem registerDocument_indexed (setting : Setting) {registry : Registry}
    (hgrown : t.Grown registry) {call : MacroCall} (hroot : t.call? t.root = some call) :
    let start := registerDocument setting (.initial t)
    Indexed setting [] start.index start.tree ∧ start.diagnostics = [] := by
  have hlabel := hgrown.label
  cases hdocument : toplevelId setting with
  | none =>
    simp only [registerDocument, hdocument]
    refine ⟨⟨fun id x r hentry => ?_, fun x id hid => ?_, fun x _ => ?_, fun x _ _ => ?_⟩, rfl⟩
    · simp [State.initial, Index.empty] at hentry
    · simp [State.initial, Tree.id?, hlabel] at hid
    · simp [State.initial, Tree.count?, hlabel]
    · simp [State.initial, Tree.id?, hlabel]
  | some document =>
    let record := IdRecord.define document MacroName.toplevel (site setting (t.position t.root))
    have hstart : registerDocument setting (.initial t) = { State.initial t with
        index := ⟨[(document, t.root, record)]⟩
        tree := t.modifyCall t.root fun call => { call with id := some document } } := by
      simp only [registerDocument, hdocument]
      rfl
    have hnamed : ∀ x, (t.modifyCall t.root fun call => { call with id := some document }).label x =
        if x = t.root then (some document, none) else (none, none) := by
      intro x
      split
      · next heq =>
        have hcount := (hgrown.unnamed t.root call hroot).2
        rw [Tree.label, Tree.call?_modifyCall, heq, if_pos rfl, hroot, ← hcount]
        rfl
      · next hne => rw [Tree.label, Tree.call?_modifyCall, if_neg (Ne.symm hne), ← Tree.label, hlabel]
    simp only [hstart]
    refine ⟨⟨fun id x r hentry => ?_, fun x id hid => ?_, fun x _ => ?_, fun x _ hne => ?_⟩, rfl⟩
    · simp only [OrderedMap.get?] at hentry
      split at hentry
      · next heq =>
        obtain ⟨rfl, rfl⟩ := Prod.mk.inj (Option.some.inj hentry)
        rw [hnamed, if_pos rfl, heq, Tree.position_modifyCall]
        exact ⟨rfl, rfl⟩
      · simp at hentry
    · rw [Tree.id?, hnamed] at hid
      split at hid
      · next heq => exact ⟨record, by simp [OrderedMap.get?, Option.some.inj hid, heq]⟩
      · simp at hid
    · rw [Tree.count?, hnamed]
      split <;> rfl
    · rw [Tree.id?, hnamed]
      exact congrArg Prod.fst (if_neg hne)

/-- Only the title of the document is entered at the end. -/
theorem nameDocument_entries (setting : Setting) (s : State) : ∃ title : IdRecord → String,
    ∀ id, (nameDocument setting s).index.entries.get? id =
      (s.index.entries.get? id).map fun entry =>
        if id = setting.document then (entry.1, { entry.2 with title := title entry.2 }) else entry := by
  unfold nameDocument toplevelId
  split
  · refine ⟨(·.title), fun id => ?_⟩
    cases s.index.entries.get? id <;> simp
  · next document hdocument =>
    split at hdocument
    · simp at hdocument
    · obtain rfl := Option.some.inj hdocument
      refine ⟨fun _ => Text.trim (documentTitle setting.registry s.tree s.headers), fun id => ?_⟩
      simp only [Index.modify, OrderedMap.get?_modify]
      by_cases hid : setting.document = id
      · simp [hid]
      · simp [hid, Ne.symm hid]

theorem Indexed.nameDocument (h : Indexed setting nodes s.index s.tree) :
    Indexed setting nodes (nameDocument setting s).index s.tree := by
  obtain ⟨title, hentries⟩ := nameDocument_entries setting s
  refine ⟨fun id x r hentry => ?_, fun x id hid => ?_, h.uncounted, h.waiting⟩
  · rw [hentries] at hentry
    obtain ⟨⟨x', r'⟩, hold, heq⟩ := Option.map_eq_some_iff.mp hentry
    have hcarried := h.carried id x' r' hold
    split at heq <;> obtain ⟨rfl, rfl⟩ := Prod.mk.inj heq <;> exact hcarried
  · obtain ⟨r, hentry⟩ := h.entered x id hid
    rw [hentries, hentry, Option.map_some]
    split <;> exact ⟨_, rfl⟩

end Assembly

open Assembly (granted refusal refused visits nameDocument_entries registerDocument_indexed)

theorem Problem.category_of_isDuplicateId {p : Problem} (h : p.isDuplicateId = true) :
    p.category = .semantic := by
  cases p with
  | duplicateId => rfl
  | _ => cases h

theorem duplicates_formal {diagnostics : List Diagnostic} (h : ∀ d ∈ diagnostics, d.Formal) :
    duplicates diagnostics = [] :=
  List.filter_eq_nil_iff.mpr fun d hd hduplicate =>
    h d hd (Problem.category_of_isDuplicateId hduplicate)

/-- The index and the tree of a document tell the same of its identifiers. -/
structure Analysis.Identified (a : Analysis) : Prop where
  found : ∀ id, a.tree.findById id = a.index.node? id
  once : ∀ x y id, a.tree.Reaches a.tree.root x → a.tree.Reaches a.tree.root y →
    a.tree.id? x = some id → a.tree.id? y = some id → x = y
  keyed : ∀ id r, a.index.record? id = some r → r.id = id
  recorded : ∀ id x r, a.index.node? id = some x → a.index.record? id = some r →
    r.count = a.tree.count? x ∧ r.location = ⟨a.document, a.tree.position x⟩

namespace Assembly

theorem Indexed.findById_eq (h : Indexed setting nodes index t)
    (hnodes : t.preorder t.root = nodes) (hroot : t.root ∈ nodes) (id : String) :
    t.findById id = index.node? id := by
  unfold Tree.findById
  simp only [← Tree.id?_eq, hnodes]
  cases hfound : nodes.find? fun x => t.id? x == some id with
  | some x =>
    have hid : t.id? x = some id := by simpa using List.find?_some hfound
    obtain ⟨r, hentry⟩ := h.entered x id hid
    rw [Index.node?, hentry, Option.map_some]
  | none =>
    cases hentry : index.entries.get? id with
    | none => rw [Index.node?, hentry, Option.map_none]
    | some entry =>
      have hid : t.id? entry.1 = some id := congrArg Prod.fst (h.carried id entry.1 entry.2 hentry).1
      have hmem : entry.1 ∈ nodes := by
        by_contra hout
        have hnone := h.waiting entry.1 hout fun heq => hout (heq ▸ hroot)
        simp [hid] at hnone
      have hother := List.find?_eq_none.mp hfound entry.1 hmem
      simp [hid] at hother

theorem Indexed.identified {a : Analysis} (h : Indexed setting nodes a.index a.tree)
    (hnodes : a.tree.preorder a.tree.root = nodes) (hroot : a.tree.root ∈ nodes)
    (hsound : a.Sound setting.document) : a.Identified := by
  refine ⟨h.findById_eq hnodes hroot, fun x y id _ _ hx hy => ?_,
    fun id r hrecord => (hsound.index.record? hrecord).keyed, fun id x r hx hrecord => ?_⟩
  · obtain ⟨r, hentry⟩ := h.entered x id hx
    obtain ⟨r', hentry'⟩ := h.entered y id hy
    rw [hentry] at hentry'
    exact (Prod.mk.inj (Option.some.inj hentry')).1
  · obtain ⟨entry, hentry, rfl⟩ := Option.map_eq_some_iff.mp hx
    rw [Index.record?, hentry, Option.map_some] at hrecord
    obtain rfl := Option.some.inj hrecord
    obtain ⟨hlabel, hplace⟩ := h.carried id entry.1 entry.2 hentry
    rw [Tree.count?, hlabel, hplace, hsound.name]
    exact ⟨rfl, rfl⟩

end Assembly

theorem parse_toplevel {registry : Registry} (hcheck : registry.check = .ok ()) (source : String) :
    let t := (parse registry (tokenize source).tokens).tree
    ∃ call, t.call? t.root = some call ∧ call.name = MacroName.toplevel := by
  obtain ⟨content, last, htokens, -⟩ := tokens_tokenize source
  rw [htokens]
  exact parse_root registry _ _ _ (Registry.contains_toplevel hcheck)

/-- Every macro gets the identifier that it asks for on its visit, unless that is taken. Then it stays
with the node that has it, and each node that asks for it is reported once. -/
theorem analyze_identifiers {registry : Registry} (hcheck : registry.check = .ok ())
    (hr : registry.Coherent) (document source : String) :
    let a := analyze registry document source
    let setting : Assembly.Setting := ⟨registry, document⟩
    let made := visits setting (parse registry (tokenize source).tokens).tree
    a.Identified ∧ made.map (·.node) = a.tree.preorder a.tree.root ∧
      (∀ arrival ∈ made, arrival.node ≠ a.tree.root →
        a.tree.id? arrival.node = granted setting arrival) ∧
      (∀ arrival ∈ made, ∀ id previous, refused setting arrival = some (id, previous) →
        a.tree.id? arrival.node = none ∧ a.tree.count? arrival.node = none ∧
          ∃ title, a.index.record? id =
            some (if id = document then { previous with title } else previous)) ∧
      duplicates a.diagnostics = made.filterMap (refusal setting) := by
  intro a setting made
  obtain ⟨hgrown, -, -, -⟩ := parse_tree registry (tokenize source).tokens
  obtain ⟨rank, final, hvisited, hshape, -, htree, hindex, -, -, hdiagnostics, -, horder⟩ :=
    analyze_visits hr document source
  obtain ⟨call, hroot, -⟩ := parse_toplevel hcheck source
  obtain ⟨hstart, hsilent⟩ := registerDocument_indexed setting hgrown hroot
  have hindexed : Assembly.Indexed setting (made.map (·.node)) a.index a.tree := by
    rw [hindex, htree]
    refine ((hvisited.indexed hr hstart).mono fun x hx => ?_).nameDocument
    rwa [List.map_reverse, List.mem_reverse] at hx
  have hfirst : a.tree.root ∈ made.map (·.node) := by
    rw [horder, htree, hshape.mem_preorder_iff .refl]
    exact .refl
  have hgranted : ∀ arrival ∈ made, arrival.node ≠ a.tree.root →
      a.tree.id? arrival.node = granted setting arrival := by
    rw [htree]
    exact fun arrival harrival => hvisited.granted hr hstart (List.mem_reverse.mpr harrival)
  refine ⟨hindexed.identified horder.symm hfirst (analyze_sound registry document source), horder,
    hgranted, fun arrival harrival id previous hrefused => ?_, ?_⟩
  · obtain ⟨hother, hrecord⟩ := hvisited.refused hr (List.mem_reverse.mpr harrival) hrefused
    have hunnamed : a.tree.id? arrival.node = none := by
      rw [hgranted arrival harrival (htree ▸ hother), granted, hrefused]
    obtain ⟨title, hentries⟩ := nameDocument_entries setting final
    refine ⟨hunnamed, hindexed.uncounted _ hunnamed, title previous, ?_⟩
    obtain ⟨entry, hentry, rfl⟩ := Option.map_eq_some_iff.mp hrecord
    rw [hindex, Index.record?, hentries, hentry, Option.map_some, Option.map_some]
    split <;> rfl
  · have hsilentLexer := duplicates_formal (tokenize_formal source)
    have hsilentParser := duplicates_formal (parse_formal registry (tokenize source).tokens)
    have hrefusals := hvisited.refusals
    rw [List.reverse_reverse, hsilent] at hrefusals
    rw [duplicates] at hsilentLexer hsilentParser hrefusals ⊢
    rw [hdiagnostics, List.filter_append, List.filter_append, hsilentLexer, hsilentParser, hrefusals]
    rfl

theorem analyze_identifiers_geese :
    let source := "\\h[1][Geese]\n\n\\h[1][Geese]\n\n\\L[one]{id=geese}"
    let a := analyze .builtin "zoo" source
    let setting : Assembly.Setting := ⟨.builtin, "zoo"⟩
    let made := visits setting (parse .builtin (tokenize source).tokens).tree
    Registry.builtin.check = .ok () ∧ Registry.builtin.Coherent ∧
      a.Identified ∧ made.map (·.node) = a.tree.preorder a.tree.root ∧
      (∀ arrival ∈ made, arrival.node ≠ a.tree.root →
        a.tree.id? arrival.node = granted setting arrival) ∧
      (∀ arrival ∈ made, ∀ id previous, refused setting arrival = some (id, previous) →
        a.tree.id? arrival.node = none ∧ a.tree.count? arrival.node = none ∧
          ∃ title, a.index.record? id =
            some (if id = "zoo" then { previous with title } else previous)) ∧
      duplicates a.diagnostics = made.filterMap (refusal setting) :=
  ⟨by decide, Registry.coherent_builtin,
    analyze_identifiers (by decide) Registry.coherent_builtin _ _⟩

end Macromark
