import Macromark.Proofs.Assembly.Nesting
import Macromark.Proofs.Inflection
import Macromark.Proofs.Links

/-!
# What a link may mean

The references of a link are those that its visit has noted (`Visited.filter_groupKey`),
one for each of its words in each of the scopes around it (`analyze_targets`). In the
title of a header they are noted twice.
-/

namespace Macromark

open Assembly (under)

namespace Tree

def isMagic (registry : Registry) (t : Tree) (x : NodeId) : Bool :=
  Text.isTruthy (t.argumentText registry x "magic")

def linkWords (registry : Registry) (t : Tree) (x : NodeId) : List String :=
  let href := t.argumentText registry x "href"
  if t.isMagic registry x then Identifier.ofTitle href :: Inflection.variants (Identifier.ofTitle href)
  else [href]

/-- The identifiers that a link may mean in a scope. A link that calls its target nothing means
nothing in a scope. -/
def candidatesIn (registry : Registry) (t : Tree) (x : NodeId) (scope : Option String) :
    List String :=
  ((t.linkWords registry x).filter fun word => word != "" || scope.isNone).map (under scope)

end Tree

/-- The reference as it is noted again for a link in a title. -/
def Reference.inTitle (r : Reference) : Reference := { r with kind := .titleInTitle }

namespace Assembly

variable {setting : Setting} {s start : State} {t : Tree} {node : NodeId} {scope : Option String}
variable {base target : String} {variants scopes : List String} {arrival : Arrival}
variable {made : List Arrival} {r : Reference} {visit : Visit} {all : List Candidate}

-- ----------------------------------------------------------------------------
-- Candidates
-- ----------------------------------------------------------------------------

/-- Every target is kept once, and nothing else is. -/
theorem mem_map_distinctCandidates :
    target ∈ (distinctCandidates all).map (·.1) ↔ target ∈ all.map (·.1) := by
  have hfold : ∀ kept : List Candidate, target ∈ (all.foldl (fun kept candidate =>
      if kept.any (·.1 == candidate.1) then kept else kept ++ [candidate]) kept).map (·.1) ↔
        target ∈ kept.map (·.1) ∨ target ∈ all.map (·.1) := by
    induction all with
    | nil => simp
    | cons candidate all ih =>
      intro kept
      rw [List.foldl_cons, ih, List.map_cons, List.mem_cons]
      split
      · next hknown =>
        have hknown : candidate.1 ∈ kept.map (·.1) := by
          obtain ⟨other, hother, heq⟩ := List.any_eq_true.mp hknown
          exact List.mem_map.mpr ⟨other, hother, beq_iff_eq.mp heq⟩
        refine or_congr_right' fun hout => (or_iff_right ?_).symm
        rintro rfl
        exact hout hknown
      · rw [List.map_append, List.mem_append, List.map_singleton, List.mem_singleton, or_assoc]
  rw [distinctCandidates, hfold, List.map_nil]
  simp only [List.not_mem_nil, false_or]

/-- Every word is looked for in every scope, the empty one in none. -/
theorem mem_map_candidates (hscopes : "" ∉ scopes) (hvariants : "" ∉ variants)
    (hempty : base = "" → variants = []) :
    target ∈ (candidates scopes base variants).map (·.1) ↔ ∃ scope ∈ around scopes,
      target ∈ ((base :: variants).filter fun word => word != "" || scope.isNone).map (under scope) := by
  unfold candidates
  split
  · next hbase =>
    simp [hbase, hempty hbase, around, under]
  · next hbase =>
    have hwords : ∀ scope : Option String,
        (base :: variants).filter (fun word => word != "" || scope.isNone) = base :: variants := by
      intro scope
      refine List.filter_eq_self.mpr fun word hword => ?_
      have hne : word ≠ "" := by
        rcases List.mem_cons.mp hword with rfl | hword
        · exact hbase
        · exact fun heq => hvariants (heq ▸ hword)
      simp [hne]
    have hunder : ∀ scope ∈ around scopes, Identifier.underScope scope = under scope := by
      intro scope hscope
      refine funext fun word => underScope_eq ?_ word
      rintro rfl
      exact hscopes (by simpa [around] using hscope)
    rw [mem_map_distinctCandidates, List.map_flatMap, List.mem_flatMap]
    refine exists_congr fun scope => and_congr_right fun hscope => ?_
    rw [hwords, List.map_cons, List.map_map, hunder scope hscope]
    rfl

-- ----------------------------------------------------------------------------
-- One visit
-- ----------------------------------------------------------------------------

def crossReferences (references : List Reference) : List Reference :=
  references.filter (·.kind = .crossReference)

def linkCandidates (setting : Setting) (s : State) (node : NodeId) : List Candidate :=
  let isMagic := Text.isTruthy (text setting s node "magic")
  let base :=
    if isMagic then Identifier.ofTitle (text setting s node "href") else text setting s node "href"
  candidates (scopesAround s) base (if isMagic then Inflection.variants base else [])

def linkRows (setting : Setting) (arrival : Arrival) : List Reference :=
  let s := arrival.before
  match s.tree.href? arrival.node with
  | some position =>
    if s.tree.name? arrival.node = some MacroName.crossReference then
      (linkCandidates setting s arrival.node).map fun candidate =>
        { source := arrival.titleOf.getD (source setting s), target := candidate.1
          kind := .crossReference, site := site setting position, inflected := candidate.2 }
    else []
  | none => []

/-- All references that it notes. A link in a title is noted twice. -/
def linkNotes (setting : Setting) (arrival : Arrival) : List Reference :=
  (linkRows setting arrival).flatMap fun r =>
    if arrival.titleOf.isSome then [r, r.inTitle] else [r]

theorem mem_linkRows (hr : r ∈ linkRows setting arrival) :
    arrival.before.tree.name? arrival.node = some MacroName.crossReference ∧
      arrival.before.tree.href? arrival.node = some r.site.position ∧
      r.site.document = setting.document ∧ r.kind = .crossReference := by
  unfold linkRows at hr
  simp only at hr
  split at hr
  · next position hposition =>
    split at hr
    · next hname =>
      obtain ⟨candidate, -, rfl⟩ := List.mem_map.mp hr
      exact ⟨hname, hposition, rfl, rfl⟩
    · simp at hr
  · simp at hr

theorem mem_linkNotes (hr : r ∈ linkNotes setting arrival) :
    ∃ row ∈ linkRows setting arrival, r.site = row.site := by
  obtain ⟨row, hrow, hr⟩ := List.mem_flatMap.mp hr
  refine ⟨row, hrow, ?_⟩
  split at hr
  · simp only [List.mem_cons, List.not_mem_nil, or_false] at hr
    rcases hr with rfl | rfl <;> rfl
  · rw [List.mem_singleton.mp hr]

/-- Among the references that links compete for it is noted once. -/
theorem crossReferences_linkNotes (setting : Setting) (arrival : Arrival) :
    crossReferences (linkNotes setting arrival) = linkRows setting arrival := by
  rw [crossReferences, linkNotes, List.filter_flatMap]
  refine (List.flatMap_congr fun r hr => ?_).trans (List.flatMap_singleton' _)
  obtain ⟨-, -, -, hkind⟩ := mem_linkRows hr
  split <;> simp [hkind, Reference.inTitle]

/-- Among those of the titles it is noted if it stands in one. -/
theorem titles_linkNotes (setting : Setting) (arrival : Arrival) :
    (linkNotes setting arrival).filter (·.kind = .titleInTitle) =
      if arrival.titleOf.isSome then (linkRows setting arrival).map Reference.inTitle else [] := by
  rw [linkNotes, List.filter_flatMap]
  split
  · rw [List.map_eq_flatMap]
    refine List.flatMap_congr fun r hr => ?_
    obtain ⟨-, -, -, hkind⟩ := mem_linkRows hr
    simp [hkind, Reference.inTitle]
  · refine List.flatMap_eq_nil_iff.mpr fun r hr => ?_
    obtain ⟨-, -, -, hkind⟩ := mem_linkRows hr
    simp [hkind]

theorem visitLink_references {call : MacroCall} (hcall : s.tree.call? visit.node = some call)
    (hname : call.name = MacroName.crossReference) :
    (visitLink setting s visit.node call visit.titleOf).references =
      s.references ++ linkNotes setting ⟨visit, s⟩ := by
  have hlink : s.tree.name? visit.node = some MacroName.crossReference := by
    rw [Tree.name?, hcall, Option.map_some, hname]
  have hhref : s.tree.href? visit.node = (call.argument? "href").map (·.position) := by
    rw [Tree.href?, hcall, Option.bind_some]
  unfold linkNotes linkRows visitLink
  simp only [hlink, hhref, if_true]
  cases call.argument? "href" with
  | none => simp
  | some href =>
    simp only [refer, Option.map_some, linkCandidates, List.flatMap_map]
    rfl

/-- Links, headers and inclusions note something, where they stand. -/
theorem Notes.exists_rows {u : State} (h : Notes setting t node s u) :
    ∃ rows, u.references = s.references ++ rows ∧
      ∀ r ∈ rows, ∃ name ∈ [MacroName.header, MacroName.crossReference, MacroName.inclusion],
        t.name? node = some name ∧ r.site.position ∈ t.footprint node := by
  cases h with
  | nothing _ hreferences => exact ⟨[], by rw [hreferences, List.append_nil], by simp⟩
  | row r name hname hnames _ hposition hreferences =>
    refine ⟨[r], hreferences, fun r hr => ⟨name, ?_, hname, List.mem_singleton.mp hr ▸ hposition⟩⟩
    rcases hnames with rfl | rfl <;> simp
  | link position rows hname hhref _ hrows hreferences =>
    refine ⟨rows, hreferences, fun r hr => ⟨_, by simp, hname, ?_⟩⟩
    rw [(hrows r hr).1]
    exact Tree.mem_footprint_of_href? hname (by decide) hhref

theorem visitNode_link (hdeclared : s.tree.Declared setting.registry)
    (hroot : s.tree.name? s.tree.root ≠ some MacroName.crossReference)
    (hlink : s.tree.name? visit.node = some MacroName.crossReference) :
    (visitNode setting visit s).2.references = s.references ++ linkNotes setting ⟨visit, s⟩ := by
  obtain ⟨call, hcall, hname⟩ := Option.map_eq_some_iff.mp hlink
  obtain ⟨d, hd, -⟩ := hdeclared visit.node call hcall
  have hother : visit.node ≠ s.tree.root := fun heq => hroot (heq ▸ hlink)
  have hheader : call.name ≠ MacroName.header := by
    rw [hname]
    decide
  have hframe : SameNotes _ (visitNode setting visit s).2 := visitNode_frame hcall
  rw [if_neg hother] at hframe
  rw [hframe.1, ← visitLink_references hcall hname]
  simp only [visitCall, hd, if_neg hheader, if_pos hname]
  rw [(assignId_frame ..).1]

-- ----------------------------------------------------------------------------
-- All visits
-- ----------------------------------------------------------------------------

/-- What has come after the start is implied by the registry. -/
theorem Visited.implies (h : Visited setting start made s) (hr : setting.registry.Coherent)
    {x : NodeId} (hx : start.tree.size ≤ x) {call : MacroCall} (hcall : s.tree.call? x = some call) :
    setting.registry.Implies call.name := by
  induction h generalizing call with
  | start => simp [Tree.call?_eq_none hx] at hcall
  | @visit earlier s rank visit _ hshape hnot hnode _ ih =>
    obtain ⟨-, later, -, hstepped⟩ := visitNode_shape hr hshape hnode fun _ => hnot
    by_cases hold : x < s.tree.size
    · obtain ⟨written, hwritten, hname⟩ := hstepped.kept.call?_of_lt hold hcall
      exact hname ▸ ih hwritten
    · exact hstepped.implied x (Nat.le_of_not_lt hold) call hcall

/-- Where the target of a link is written in the end, only its own visit has noted something. -/
theorem Visited.references_at (h : Visited setting start made s) (hr : setting.registry.Coherent)
    (hauthor : AuthorOnly setting.registry) (hstart : Noted setting [] start)
    (hnone : start.references = []) {final : Tree} (hkept : s.tree.Kept final)
    (hapart : final.Apart setting.registry) {x : NodeId} {position : Position}
    (hname : final.name? x = some MacroName.crossReference)
    (hhref : final.href? x = some position) :
    s.references.filter (·.site.position = position) =
      made.reverse.flatMap fun arrival =>
        if arrival.node = x then linkNotes setting arrival else [] := by
  have hwritten : final.Written setting.registry x := ⟨_, hname, hauthor _ (by simp)⟩
  have hplace := Tree.mem_footprint_of_href? hname (by decide) hhref
  induction h with
  | start => simp [hnone]
  | @visit earlier s rank visit hvisited hshape hnot hnode _ ih =>
    obtain ⟨-, later, -, hstepped⟩ := visitNode_shape hr hshape hnode fun _ => hnot
    have hroot := (hvisited.noted hr hauthor hstart).root
    have hearlier : s.tree.Kept final := hstepped.kept.trans hkept
    rw [List.reverse_cons, List.flatMap_append, List.flatMap_singleton, ← ih hearlier]
    by_cases hx : visit.node = x
    · subst hx
      rw [hearlier.name? hnode] at hname
      rw [hearlier.href? hnode] at hhref
      rw [visitNode_link hshape.declared hroot hname, List.filter_append, if_pos rfl]
      refine congrArg (_ ++ ·) (List.filter_eq_self.mpr fun r hmem => ?_)
      obtain ⟨row, hrow, hsite⟩ := mem_linkNotes hmem
      obtain ⟨-, hposition, -⟩ := mem_linkRows hrow
      exact decide_eq_true (hsite ▸ Option.some.inj (hposition.symm.trans hhref))
    · have hnotes : Notes setting s.tree visit.node s (visitNode setting visit s).2 :=
        visitNode_notes hshape.declared hroot
      obtain ⟨rows, hreferences, hrows⟩ := hnotes.exists_rows
      rw [hreferences, List.filter_append, if_neg hx]
      refine congrArg (_ ++ ·) (List.filter_eq_nil_iff.mpr fun r hmem hposition => hx ?_)
      obtain ⟨name, hnames, hother, hfoot⟩ := hrows r hmem
      rw [of_decide_eq_true hposition, ← hearlier.footprint hnode] at hfoot
      rw [← hearlier.name? hnode] at hother
      exact hapart visit.node x position ⟨name, hother, hauthor name hnames⟩ hwritten hfoot hplace

section
variable {position : Position} (h : Visited setting start made s) (hr : setting.registry.Coherent)
variable (hauthor : AuthorOnly setting.registry) (hstart : Noted setting [] start)
variable (hnone : start.references = []) (harrival : arrival ∈ made)
variable (hname : s.tree.name? arrival.node = some MacroName.crossReference)
variable (hhref : s.tree.href? arrival.node = some position)
include h hr hauthor hstart hnone harrival hname hhref

/-- What is noted at the place of a link is what its visit has noted. -/
theorem Visited.filter_position :
    s.references.filter (·.site.position = position) = linkNotes setting arrival := by
  rw [h.references_at hr hauthor hstart hnone (.refl _) (h.noted hr hauthor hstart).apart hname
    hhref]
  have hdistinct := h.distinct
  obtain ⟨later, earlier, rfl⟩ := List.append_of_mem harrival
  rw [List.map_append, List.map_cons, List.nodup_append, List.nodup_cons] at hdistinct
  obtain ⟨-, ⟨hearlier, -⟩, hapart⟩ := hdistinct
  have hothers : ∀ arrivals : List Arrival, arrival.node ∉ arrivals.map (·.node) →
      (arrivals.flatMap fun other =>
        if other.node = arrival.node then linkNotes setting other else []) = [] := by
    intro arrivals hnot
    refine List.flatMap_eq_nil_iff.mpr fun other hother => if_neg fun heq => hnot ?_
    exact heq ▸ List.mem_map_of_mem hother
  have hlater : arrival.node ∉ later.map (·.node) := fun hmem =>
    hapart _ hmem _ List.mem_cons_self rfl
  simp only [List.reverse_append, List.reverse_cons, List.flatMap_append, List.flatMap_singleton,
    if_true]
  rw [hothers _ (by simpa using hearlier), hothers _ (by simpa using hlater), List.nil_append,
    List.append_nil]

/-- The references of one link are of one kind. -/
theorem Visited.filter_groupKey (kind : ReferenceKind) :
    s.references.filter (·.groupKey = ⟨setting.document, position, kind⟩) =
      (linkNotes setting arrival).filter (·.kind = kind) := by
  rw [← h.filter_position hr hauthor hstart hnone harrival hname hhref, List.filter_filter]
  refine List.filter_congr fun r hmem => ?_
  have hsite : r.site.position = position → r.site.document = setting.document := by
    intro hposition
    have hnoted : r ∈ linkNotes setting arrival := by
      rw [← h.filter_position hr hauthor hstart hnone harrival hname hhref, List.mem_filter]
      exact ⟨hmem, decide_eq_true hposition⟩
    obtain ⟨row, hrow, heq⟩ := mem_linkNotes hnoted
    exact heq ▸ (mem_linkRows hrow).2.2.1
  by_cases hposition : r.site.position = position
  · simp [Reference.groupKey, hposition, hsite hposition]
  · simp [Reference.groupKey, hposition]

theorem Visited.mem_linkRows_iff :
    r ∈ linkRows setting arrival ↔
      r ∈ s.references ∧ r.groupKey = ⟨setting.document, position, .crossReference⟩ := by
  rw [← crossReferences_linkNotes, crossReferences,
    ← h.filter_groupKey hr hauthor hstart hnone harrival hname hhref, List.mem_filter,
    decide_eq_true_iff]

end

theorem map_linkRows {position : Position}
    (hname : arrival.before.tree.name? arrival.node = some MacroName.crossReference)
    (hhref : arrival.before.tree.href? arrival.node = some position) :
    (linkRows setting arrival).map (·.target) =
      (linkCandidates setting arrival.before arrival.node).map (·.1) := by
  unfold linkRows
  simp only [hhref, hname, if_true, List.map_map]
  rfl

section
variable {later earlier : List Arrival}
variable (h : Visited setting (registerDocument setting (.initial t)) (later ++ arrival :: earlier) s)
variable (ht : Ready setting t)
include h ht

/-- A link means what it was written to mean. -/
theorem Visited.mem_linkCandidates (hlt : arrival.node < t.size)
    (hscopes : "" ∉ scopesAround arrival.before) (target : String) :
    target ∈ (linkCandidates setting arrival.before arrival.node).map (·.1) ↔
      ∃ scope ∈ around (scopesAround arrival.before),
        target ∈ t.candidatesIn setting.registry arrival.node scope := by
  obtain ⟨hvisited, hacyclic, hnot⟩ := h.before
  have htexts := (hvisited.written ht.coherent ht.acyclic hacyclic hlt hnot setting.registry).2
  unfold linkCandidates Tree.candidatesIn Tree.linkWords Tree.isMagic
  simp only [text, htexts]
  split
  · exact mem_map_candidates hscopes (Inflection.variants_ne_empty _) fun hbase => by
      rw [hbase]
      decide
  · exact mem_map_candidates hscopes (by simp) fun _ => rfl

theorem Visited.scopesAround_eq
    (hlink : arrival.before.tree.name? arrival.node = some MacroName.crossReference) :
    scopesAround arrival.before = ((Outline.enclosing s.headers.levelOf? [arrival.node]
      (((later ++ arrival :: earlier).reverse.map (·.node)).takeWhile (· != arrival.node))).filterMap
        (s.tree.scopeId? setting.registry t)).reverse := by
  obtain ⟨hvisited, -, -⟩ := h.before
  have hnone : headingLevel? setting arrival = none := by
    have hheader : MacroName.crossReference ≠ MacroName.header := by decide
    simp [headingLevel?, Tree.isHeading, hlink, hheader]
  rw [(hvisited.chained ht).scopesAround hnone, h.scopeId?_eq ht,
    h.enclosing_eq ht, List.filterMap_map, Function.comp_def]

end

end Assembly

open Assembly (around Nested map_linkRows registerDocument_frame registerDocument_labeled
  scopesAround)

/-- The references of a link lead to the identifiers that it may mean in the scopes around it. -/
theorem analyze_targets {registry : Registry} (hcheck : registry.check = .ok ())
    (hregistry : registry.Linkable) (document source : String) :
    let a := analyze registry document source
    let written := (parse registry (tokenize source).tokens).tree
    ∀ x, a.tree.IsLink x → ∃ position, a.tree.href? x = some position ∧
      Nested (a.scopes registry written x).reverse ∧
      ∀ target, (∃ r ∈ a.contribution.references,
          r.groupKey = ⟨document, position, .crossReference⟩ ∧ r.target = target) ↔
        ∃ scope ∈ around (a.scopes registry written x).reverse,
          target ∈ written.candidatesIn registry x scope := by
  rintro a written x ⟨hreaches, hname⟩
  have hr := hregistry.coherent
  have hready := parse_ready hcheck hr document source
  obtain ⟨rank, final, hvisited, hshape, -, htree, -, hheaders, hreferences, -, -, horder⟩ :=
    analyze_visits hr document source
  change a.tree = final.tree at htree
  rw [htree] at hname
  obtain ⟨arrival, harrival, rfl⟩ := hshape.exists_arrival (htree ▸ horder) (htree ▸ hreaches)
  have harrival := List.mem_reverse.mpr harrival
  obtain ⟨position, hposition⟩ := hshape.declared.href? hregistry hname
  obtain ⟨hkept, hsize⟩ := hvisited.kept hr harrival
  have hlink := (hkept.name? hsize).symm.trans hname
  have hhref := (hkept.href? hsize).symm.trans hposition
  have hlt : arrival.node < written.size := by
    by_contra hout
    obtain ⟨call, hcall, hcross⟩ := Option.map_eq_some_iff.mp hname
    refine hregistry.author MacroName.crossReference (by simp) (hcross ▸ hvisited.implies hr ?_ hcall)
    rw [(registerDocument_labeled _ _).size_eq]
    exact Nat.le_of_not_lt hout
  have hrows := fun r => hvisited.mem_linkRows_iff hr hregistry.author
    (parse_noted registry document source) (registerDocument_frame _ _).1 harrival hname
    hposition (r := r)
  obtain ⟨later, earlier, hsplit⟩ := List.append_of_mem harrival
  rw [hsplit] at hvisited
  have hscopes := hvisited.scopesAround_eq hready hlink
  rw [← hsplit, List.reverse_reverse, horder, ← hheaders, ← htree] at hscopes
  have hnested := hvisited.before.1.nested hready
  refine ⟨position, by rw [htree, hposition], hscopes ▸ hnested, fun target => ?_⟩
  have hcandidates := hvisited.mem_linkCandidates hready hlt hnested.ne_empty target
  rw [← map_linkRows hlink hhref, List.mem_map] at hcandidates
  change scopesAround arrival.before = (a.scopes registry written arrival.node).reverse at hscopes
  rw [hreferences, ← hscopes, ← hcandidates]
  refine exists_congr fun r => ?_
  rw [hrows, and_assoc]

end Macromark
