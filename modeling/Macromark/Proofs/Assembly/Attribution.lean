import Macromark.Proofs.Assembly.Parents
import Macromark.Proofs.Assembly.Targets

/-!
# Which macro a reference is noted for

A reference is noted when a header, a link or an inclusion is visited, where that
is written (`Reference.NotedAt`). A header notes one reference at most, to the last
header that got a name, and that is in the index (`Visited.attributed`). So the
references of headers and synonyms lead somewhere and have no competitors, and what
is reported as unresolved was written as the target of a link or of an inclusion
(`compile_unresolved`).
-/

namespace Macromark

/-- Where a reference is noted: at a header or a synonym itself, at the target of a link, or at the
target of an inclusion. -/
inductive Reference.NotedAt (t : Tree) (x : NodeId) (r : Reference) : Prop
  | header : t.name? x = some MacroName.header → r.site.position = t.position x →
      r.kind = .structuralParent ∨ r.kind = .synonym → Reference.NotedAt t x r
  | link : t.name? x = some MacroName.crossReference → t.href? x = some r.site.position →
      r.kind = .crossReference ∨ r.kind = .titleInTitle → Reference.NotedAt t x r
  | inclusion : t.name? x = some MacroName.inclusion → t.href? x = some r.site.position →
      r.kind = .structuralParent → Reference.NotedAt t x r

def ReferenceKind.ofLink : ReferenceKind → Bool
  | crossReference | titleInTitle => true
  | structuralParent | synonym => false

/-- References that do not compete with each other, or are those of links. -/
def Reference.Apart (r other : Reference) : Prop :=
  r.kind.ofLink = false → other.kind.ofLink = false → r.site.position ≠ other.site.position

namespace Reference.NotedAt

variable {registry : Registry} {t u : Tree} {x y : NodeId} {r : Reference}

theorem name (h : r.NotedAt t x) :
    ∃ name ∈ [MacroName.header, MacroName.crossReference, MacroName.inclusion],
      t.name? x = some name := by
  cases h with
  | header hname => exact ⟨_, by simp, hname⟩
  | link hname => exact ⟨_, by simp, hname⟩
  | inclusion hname => exact ⟨_, by simp, hname⟩

theorem mem_footprint (h : r.NotedAt t x) : r.site.position ∈ t.footprint x := by
  cases h with
  | header hname hposition => exact hposition ▸ Tree.position_mem_footprint hname
  | link hname hhref => exact Tree.mem_footprint_of_href? hname (by decide) hhref
  | inclusion hname hhref => exact Tree.mem_footprint_of_href? hname (by decide) hhref

theorem written (h : r.NotedAt t x) (hauthor : Assembly.AuthorOnly registry) :
    t.Written registry x := by
  obtain ⟨name, hmem, hname⟩ := h.name
  exact ⟨name, hname, hauthor name hmem⟩

/-- A reference is noted for one macro. -/
theorem unique (h : r.NotedAt t x) (h' : r.NotedAt t y) (hauthor : Assembly.AuthorOnly registry)
    (hapart : t.Apart registry) : x = y :=
  hapart x y r.site.position (h.written hauthor) (h'.written hauthor) h.mem_footprint
    h'.mem_footprint

theorem kept (h : r.NotedAt t x) (hkept : t.Kept u) (hx : x < t.size) : r.NotedAt u x := by
  cases h with
  | header hname hposition hkind =>
    exact .header ((hkept.name? hx).trans hname) (hposition.trans (hkept.position hx).symm) hkind
  | link hname hhref hkind =>
    exact .link ((hkept.name? hx).trans hname) ((hkept.href? hx).trans hhref) hkind
  | inclusion hname hhref hkind =>
    exact .inclusion ((hkept.name? hx).trans hname) ((hkept.href? hx).trans hhref) hkind

end Reference.NotedAt

namespace Assembly

variable {setting : Setting} {s u start : State} {visit : Visit} {node : NodeId} {call : MacroCall}
variable {definition : MacroDef} {level : Level} {r : Reference} {made : List Arrival} {id : String}
variable {nodes : List NodeId}

-- ----------------------------------------------------------------------------
-- Headers
-- ----------------------------------------------------------------------------

theorem assignId_lastHeader (setting : Setting) (s : State) (node : NodeId) (call : MacroCall)
    (definition : MacroDef) (scope : Option String) (numbered : Bool) :
    (assignId setting s node call definition scope numbered).2.lastHeader = s.lastHeader := by
  unfold assignId
  split
  · rfl
  · simp only
    split <;> rfl

theorem levelOf_lastHeader (setting : Setting) (s : State) (node : NodeId) :
    (levelOf setting s node).2.lastHeader = s.lastHeader := by
  unfold levelOf
  simp only
  split <;> rfl

theorem linkHeader_lastHeader (setting : Setting) (s : State) (node : NodeId) (level : Level) :
    (linkHeader setting s node level).2.lastHeader = s.lastHeader := by
  obtain ⟨reports, aborted, heq, -⟩ := linkHeader_eq setting s node level
  rw [heq]

/-- A header notes one reference at most, to the header that is the last one then. -/
inductive HeaderNotes (s : State) (node : NodeId) (u : State) : Prop
  | nothing : u.references = s.references → HeaderNotes s node u
  | one (r : Reference) : r.site.position = s.tree.position node →
      r.kind = .structuralParent ∨ r.kind = .synonym → u.lastHeader = some r.target →
      u.references = s.references ++ [r] → HeaderNotes s node u

theorem visitSynonym_headerNotes (hnode : node < s.tree.size) :
    let result := visitSynonym setting s node call definition level
    HeaderNotes s node result.2 ∧ result.2.lastHeader = s.lastHeader := by
  have hframe := assignId_frame setting s node call definition (outerScope s) false
  have hlast := assignId_lastHeader setting s node call definition (outerScope s) false
  have hlabeled := assignId_labeled setting s node call definition (outerScope s) false
  unfold visitSynonym
  generalize assignId setting s node call definition (outerScope s) false = assigned
    at hframe hlast hlabeled ⊢
  obtain ⟨given, t⟩ := assigned
  cases given with
  | none => exact ⟨.nothing hframe.1, hlast⟩
  | some id =>
    simp only at hframe hlast hlabeled ⊢
    split
    · next target htarget =>
      let row : Reference :=
        { source := id, target, kind := .synonym, site := site setting (t.tree.position node) }
      refine ⟨.one row (hlabeled.kept.position hnode) (.inr rfl) htarget ?_, hlast⟩
      exact congrArg (· ++ [row]) hframe.1
    · exact ⟨.nothing hframe.1, hlast⟩

theorem nameHeader_headerNotes {linked : HeaderTree.Entered} :
    let result := nameHeader setting s node call definition linked level
    HeaderNotes s node result.2 ∧ result.2.lastHeader = result.1.or s.lastHeader := by
  have hframe := assignId_frame setting s node call definition (outerScope s) true
  have hlast := assignId_lastHeader setting s node call definition (outerScope s) true
  unfold nameHeader
  simp only
  generalize assignId setting s node call definition (outerScope s) true = assigned
    at hframe hlast ⊢
  obtain ⟨given, t⟩ := assigned
  cases given with
  | none => exact ⟨.nothing hframe.1, hlast⟩
  | some id => exact ⟨.one _ rfl (.inl rfl) rfl (congrArg (· ++ _) hframe.1), rfl⟩

theorem HeaderNotes.framed {earlier : State} (h : HeaderNotes s node u)
    (htree : s.tree = earlier.tree) (hreferences : s.references = earlier.references) :
    HeaderNotes earlier node u := by
  cases h with
  | nothing hsame => exact .nothing (hsame.trans hreferences)
  | one r hposition hkind hlast hadded =>
    exact .one r (htree ▸ hposition) hkind hlast (hreferences ▸ hadded)

theorem visitHeader_headerNotes (hnode : node < s.tree.size) :
    let result := visitHeader setting s node call definition
    HeaderNotes s node result.2 ∧
      (result.2.lastHeader = s.lastHeader ∨ result.2.lastHeader = result.1) := by
  have hlevel := levelOf_frame setting s node
  have hlast := levelOf_lastHeader setting s node
  have htree := tree_levelOf setting s node
  rw [visitHeader_eq]
  generalize levelOf setting s node = leveled at hlevel hlast htree ⊢
  obtain ⟨level, t⟩ := leveled
  simp only at hlevel hlast htree ⊢
  split
  · have hnotes : HeaderNotes t node (visitSynonym setting t node call definition level).2 ∧ _ :=
      visitSynonym_headerNotes (htree ▸ hnode)
    exact ⟨hnotes.1.framed htree hlevel.1, .inl (hnotes.2.trans hlast)⟩
  · obtain ⟨hlinked, -⟩ := linkHeader_names setting t node level
    have hreferences := (linkHeader_frame setting t node level).1
    have hnotes : HeaderNotes (linkHeader setting t node level).2 node (nameHeader setting
        (linkHeader setting t node level).2 node call definition (t.headers.enter node level).1
        level).2 ∧ _ := nameHeader_headerNotes
    rw [linkHeader_lastHeader, hlast] at hnotes
    generalize nameHeader setting (linkHeader setting t node level).2 node call definition
      (t.headers.enter node level).1 level = result at hnotes ⊢
    obtain ⟨given, u⟩ := result
    refine ⟨hnotes.1.framed (hlinked.tree.trans htree) (hreferences.trans hlevel.1), ?_⟩
    cases given with
    | none => exact .inl hnotes.2
    | some id => exact .inr hnotes.2

-- ----------------------------------------------------------------------------
-- One visit
-- ----------------------------------------------------------------------------

/-- The references that a visit of `node` adds are noted for it, do not compete with each other if
they are no links, and lead to the last header if they are those of a header. -/
structure Adds (s u : State) (node : NodeId) (rows : List Reference) : Prop where
  references : u.references = s.references ++ rows
  notedAt : ∀ r ∈ rows, r.NotedAt s.tree node
  apart : rows.Pairwise Reference.Apart
  toLast : s.tree.name? node = some MacroName.header → ∀ r ∈ rows, u.lastHeader = some r.target

theorem Adds.nothing (hreferences : u.references = s.references) : Adds s u node [] :=
  ⟨by rw [hreferences, List.append_nil], by simp, .nil, by simp⟩

theorem HeaderNotes.exists_adds (h : HeaderNotes s node u)
    (hname : s.tree.name? node = some MacroName.header) : ∃ rows, Adds s u node rows := by
  cases h with
  | nothing hreferences => exact ⟨[], .nothing hreferences⟩
  | one r hposition hkind hlast hreferences =>
    refine ⟨[r], hreferences, fun other hother => ?_, List.pairwise_singleton _ _, ?_⟩
    · obtain rfl := List.mem_singleton.mp hother
      exact .header hname hposition hkind
    · rintro - other hother
      obtain rfl := List.mem_singleton.mp hother
      exact hlast

theorem inclusionRows_adds
    (hreferences : u.references = s.references ++ inclusionRows setting ⟨visit, s⟩) :
    Adds s u visit.node (inclusionRows setting ⟨visit, s⟩) := by
  refine ⟨hreferences, fun r hr => ?_, ?_, fun hheader r hr => ?_⟩
  · obtain ⟨hname, hhref, -, -, hkind⟩ := mem_inclusionRows hr
    exact .inclusion hname hhref hkind
  · unfold inclusionRows
    simp only
    split
    · split
      · exact List.pairwise_singleton _ _
      · exact .nil
    · exact .nil
  · obtain ⟨hname, -⟩ := mem_inclusionRows hr
    exact absurd (Option.some.inj (hheader.symm.trans hname)) (by decide)

theorem mem_linkNotes_notedAt (hr : r ∈ linkNotes setting ⟨visit, s⟩) :
    r.NotedAt s.tree visit.node ∧ r.kind.ofLink = true := by
  obtain ⟨row, hrow, hr⟩ := List.mem_flatMap.mp hr
  obtain ⟨hname, hhref, -, hkind⟩ := mem_linkRows hrow
  have hcases : r = row ∨ r = row.inTitle := by
    split at hr
    · simpa using hr
    · exact .inl (List.mem_singleton.mp hr)
  rcases hcases with rfl | rfl
  · exact ⟨.link hname hhref (.inl hkind), by rw [hkind]; rfl⟩
  · exact ⟨.link hname hhref (.inr rfl), rfl⟩

theorem linkNotes_adds
    (hreferences : u.references = s.references ++ linkNotes setting ⟨visit, s⟩) :
    Adds s u visit.node (linkNotes setting ⟨visit, s⟩) := by
  refine ⟨hreferences, fun r hr => (mem_linkNotes_notedAt hr).1, ?_, fun hheader r hr => ?_⟩
  · refine List.pairwise_of_forall_mem_list fun r hr _ _ hother => ?_
    rw [(mem_linkNotes_notedAt hr).2] at hother
    cases hother
  · obtain ⟨row, hrow, -⟩ := mem_linkNotes hr
    exact absurd (Option.some.inj (hheader.symm.trans (mem_linkRows hrow).1)) (by decide)

/-- The last header is the one of before, or has been entered just now. -/
def LastHeader (s u : State) : Prop :=
  ∀ id, u.lastHeader = some id →
    s.lastHeader = some id ∨ ∃ found, u.index.entries.get? id = some found

theorem visitCall_adds (hcall : s.tree.call? visit.node = some call)
    (hdefined : setting.registry.get? call.name = some definition)
    (hroot : visit.node ≠ s.tree.root) :
    let u := (visitCall setting s visit call).2
    (∃ rows, Adds s u visit.node rows) ∧ LastHeader s u := by
  have hname : s.tree.name? visit.node = some call.name := by
    rw [Tree.name?, hcall, Option.map_some]
  simp only [visitCall, hdefined]
  by_cases hheader : call.name = MacroName.header
  · rw [if_pos hheader]
    rw [hheader] at hname
    have hnotes :
        HeaderNotes s visit.node (visitHeader setting s visit.node call definition).2 ∧ _ :=
      visitHeader_headerNotes (Tree.lt_of_call? hcall)
    have hnaming : Naming setting visit.node s _ _ _ :=
      (visitHeader_naming hname ((Registry.name_of_get? hdefined).trans hheader) hroot call).1
    refine ⟨hnotes.1.exists_adds hname, fun id hid => ?_⟩
    rcases hnotes.2 with hsame | hgiven
    · exact .inl (hsame.symm.trans hid)
    · rw [← hgiven, hid] at hnaming
      obtain ⟨record, hentry⟩ := hnaming.get?_given
      exact .inr ⟨_, hentry⟩
  · rw [if_neg hheader]
    have hlast : ∀ t : State, t.lastHeader = s.lastHeader →
        LastHeader s (assignId setting t visit.node call definition (innerScope t) true).2 :=
      fun t ht id hid => .inl (by rw [← hid, assignId_lastHeader, ht])
    have hframe := fun t : State =>
      (assignId_frame setting t visit.node call definition (innerScope t) true).1
    by_cases hlink : call.name = MacroName.crossReference
    · rw [if_pos hlink]
      refine ⟨⟨_, linkNotes_adds ((hframe _).trans (visitLink_references hcall hlink))⟩, hlast _ ?_⟩
      unfold visitLink
      split <;> rfl
    · rw [if_neg hlink]
      by_cases hinclusion : call.name = MacroName.inclusion
      · rw [if_pos hinclusion]
        refine ⟨⟨_, inclusionRows_adds
          ((hframe _).trans (visitInclusion_references hcall hinclusion))⟩, hlast _ ?_⟩
        unfold visitInclusion
        split <;> rfl
      · rw [if_neg hinclusion]
        exact ⟨⟨[], .nothing (hframe s)⟩, hlast s rfl⟩

theorem visitNode_adds (visit : Visit) (hdeclared : s.tree.Declared setting.registry) :
    let u := (visitNode setting visit s).2
    (∃ rows, Adds s u visit.node rows) ∧ LastHeader s u := by
  intro u
  cases hcall : s.tree.call? visit.node with
  | none =>
    have hsame : u = s := by simp only [u, visitNode, hcall]
    rw [hsame]
    exact ⟨⟨[], .nothing rfl⟩, fun id hid => .inl hid⟩
  | some call =>
    obtain ⟨d, hd, -⟩ := hdeclared visit.node call hcall
    have hrest : u = _ := visitNode_rest hcall
    rw [hrest]
    by_cases hroot : visit.node = s.tree.root
    · rw [if_pos hroot]
      exact ⟨⟨[], .nothing rfl⟩, fun id hid => .inl hid⟩
    · rw [if_neg hroot]
      obtain ⟨⟨rows, hadds⟩, hlast⟩ := visitCall_adds hcall hd hroot
      exact ⟨⟨rows, hadds.references, hadds.notedAt, hadds.apart, hadds.toLast⟩, hlast⟩

-- ----------------------------------------------------------------------------
-- All visits
-- ----------------------------------------------------------------------------

/-- What is known of the references once `nodes` have been visited. -/
structure Attributed (nodes : List NodeId) (s : State) : Prop where
  notedAt : ∀ r ∈ s.references, ∃ x ∈ nodes, r.NotedAt s.tree x ∧
    (s.tree.name? x = some MacroName.header → s.index.contains r.target = true)
  apart : s.references.Pairwise Reference.Apart
  lastHeader : ∀ id, s.lastHeader = some id → s.index.contains id = true

theorem contains_iff_entry {index : Index} :
    index.contains id = true ↔ ∃ found, index.entries.get? id = some found :=
  Option.isSome_iff_exists

theorem Visited.attributed (h : Visited setting start made s) (hr : setting.registry.Coherent)
    (hauthor : AuthorOnly setting.registry) (hnoted : Noted setting [] start)
    (hstart : Attributed [] start) : Attributed (made.map (·.node)) s := by
  induction h with
  | start => exact hstart
  | @visit earlier s rank visit hvisited hshape hnot hnode _ ih =>
    obtain ⟨-, later, -, hstepped⟩ := visitNode_shape hr hshape hnode fun _ => hnot
    have happart := (hvisited.noted hr hauthor hnoted).apart
    obtain ⟨hold, hpairwise, hlast⟩ := ih
    obtain ⟨⟨rows, hadds⟩, hlater⟩ := visitNode_adds visit hshape.declared
    obtain ⟨given, named, hnaming, -, hrest, -⟩ := visitNode_naming visit hshape.declared hnode
    have hcontains : ∀ id, s.index.contains id = true →
        (visitNode setting visit s).2.index.contains id = true := by
      intro id hid
      obtain ⟨found, hfound⟩ := contains_iff_entry.mp hid
      rw [hrest]
      exact contains_iff_entry.mpr ⟨found, hnaming.entry hfound⟩
    have hnext : ∀ id, (visitNode setting visit s).2.lastHeader = some id →
        (visitNode setting visit s).2.index.contains id = true := by
      intro id hid
      rcases hlater id hid with hbefore | ⟨found, hfound⟩
      · exact hcontains id (hlast id hbefore)
      · exact contains_iff_entry.mpr ⟨found, hfound⟩
    refine ⟨fun r hmem => ?_, ?_, hnext⟩
    · rw [hadds.references, List.mem_append] at hmem
      rcases hmem with hmem | hmem
      · obtain ⟨x, hx, hnotedAt, htarget⟩ := hold r hmem
        have hlt := hshape.known x "" hx
        refine ⟨x, List.mem_cons_of_mem _ hx, hnotedAt.kept hstepped.kept hlt, fun hheader => ?_⟩
        exact hcontains _ (htarget ((hstepped.kept.name? hlt).symm.trans hheader))
      · have hnotedAt := hadds.notedAt r hmem
        refine ⟨visit.node, List.mem_cons_self, hnotedAt.kept hstepped.kept hnode, ?_⟩
        intro hheader
        exact hnext _ (hadds.toLast ((hstepped.kept.name? hnode).symm.trans hheader) r hmem)
    · rw [hadds.references, List.pairwise_append]
      refine ⟨hpairwise, hadds.apart, fun r hmem other hother _ _ heq => ?_⟩
      -- an earlier macro would have a position of this one
      obtain ⟨x, hx, hnotedAt, -⟩ := hold r hmem
      have hnew := hadds.notedAt other hother
      have hsame := happart x visit.node _ (hnotedAt.written hauthor) (hnew.written hauthor)
        hnotedAt.mem_footprint (heq ▸ hnew.mem_footprint)
      exact hnot (hsame ▸ hx)

/-- Nothing is noted before the visits, and no header has a name. -/
theorem registerDocument_attributed (setting : Setting) (t : Tree) :
    Attributed [] (registerDocument setting (.initial t)) := by
  have hreferences := (registerDocument_frame setting t).1
  have hlast : (registerDocument setting (.initial t)).lastHeader = none := by
    unfold registerDocument
    split
    · rfl
    · simp only
      split <;> rfl
  refine ⟨?_, ?_, ?_⟩
  · rw [hreferences]
    simp [State.initial]
  · rw [hreferences]
    exact .nil
  · rw [hlast]
    simp

theorem contains_nameDocument (setting : Setting) (s : State) (id : String) :
    (nameDocument setting s).index.contains id = s.index.contains id := by
  unfold nameDocument
  split
  · rfl
  · exact Index.contains_modify ..

end Assembly

open Assembly (AuthorOnly)

/-- Every reference of a document is noted for one macro of it. That of a header or of a synonym
leads to something in the index. -/
theorem analyze_attributed {registry : Registry} (hr : registry.Coherent)
    (hauthor : AuthorOnly registry) (document source : String) :
    let a := analyze registry document source
    a.tree.Apart registry ∧
    (∀ r ∈ a.contribution.references, ∃ x, a.tree.Reaches a.tree.root x ∧ r.NotedAt a.tree x ∧
      (a.tree.name? x = some MacroName.header → a.index.contains r.target = true)) ∧
    a.contribution.references.Pairwise Reference.Apart := by
  intro a
  obtain ⟨rank, final, hvisited, hshape, -, htree, hindex, -, hreferences, -, -, horder⟩ :=
    analyze_visits hr document source
  have hnoted := parse_noted registry document source
  obtain ⟨hnotedAt, hapart, -⟩ := hvisited.attributed hr hauthor hnoted
    (Assembly.registerDocument_attributed _ _)
  refine ⟨?_, fun r hmem => ?_, hreferences ▸ hapart⟩
  · rw [htree]
    exact (hvisited.noted hr hauthor hnoted).apart
  · obtain ⟨x, hx, hr, htarget⟩ := hnotedAt r (hreferences ▸ hmem)
    rw [List.map_reverse, List.mem_reverse, horder] at hx
    change x ∈ a.tree.preorder a.tree.root at hx
    rw [htree] at hx ⊢
    rw [hshape.mem_preorder_iff .refl] at hx
    refine ⟨x, hx, hr, fun hheader => ?_⟩
    rw [hindex, Assembly.contains_nameDocument]
    exact htarget hheader

namespace Selection

/-- A reference without competitors is kept if it leads somewhere. -/
theorem mem_selected_of_apart {resolves : Reference → Bool} {references : List Reference}
    {place : Nat} {r : Reference} (hapart : references.Pairwise Reference.Apart)
    (hr : references[place]? = some r) (hkind : r.kind.ofLink = false)
    (hresolves : resolves r = true) : place ∈ (select resolves references).selected := by
  refine mem_selected.mpr ⟨r, hr, winner?_of_unique (mem_members.mpr ⟨hr, rfl⟩) hresolves ?_⟩
  rintro ⟨other, place'⟩ hother - -
  obtain ⟨hfound, hkey⟩ := mem_members.mp hother
  have hposition : other.site.position = r.site.position := congrArg (·.position) hkey
  have hlink : other.kind.ofLink = false := by
    rw [show other.kind = r.kind from congrArg (·.kind) hkey, hkind]
  obtain ⟨hlt, rfl⟩ := List.getElem?_eq_some_iff.mp hr
  obtain ⟨hlt', rfl⟩ := List.getElem?_eq_some_iff.mp hfound
  rcases Nat.lt_trichotomy place place' with hbefore | rfl | hbehind
  · exact absurd hposition.symm
      (List.pairwise_iff_getElem.mp hapart _ _ hlt hlt' hbefore hkind hlink)
  · rfl
  · exact absurd hposition (List.pairwise_iff_getElem.mp hapart _ _ hlt' hlt hbehind hlink hkind)

end Selection

theorem Reference.NotedAt.ofLink {t : Tree} {x : NodeId} {r : Reference} (h : r.NotedAt t x)
    (hheader : t.name? x = some MacroName.header) : r.kind.ofLink = false := by
  cases h with
  | header _ _ hkind => rcases hkind with hkind | hkind <;> rw [hkind] <;> rfl
  | link hname => exact absurd (Option.some.inj (hheader.symm.trans hname)) (by decide)
  | inclusion hname => exact absurd (Option.some.inj (hheader.symm.trans hname)) (by decide)

namespace Analysis

variable {a : Analysis} {store : Option Store} {r : Reference}

theorem knows_of_contains {id : String} (h : a.index.contains id = true) (store : Option Store) :
    a.knows store id = true := by
  rw [knows, h, Bool.true_or]

/-- What a reference comes from is always known. -/
theorem Sound.comes (h : a.Sound a.document) (hr : r ∈ a.contribution.references)
    (store : Option Store) : (r.source == "" || a.knows store r.source) = true := by
  rcases (h.references r hr).2 with hnone | hentered
  · rw [hnone]
    rfl
  · rw [knows_of_contains hentered, Bool.or_true]

end Analysis

section
variable {registry : Registry} (hr : registry.Coherent) (hauthor : AuthorOnly registry)
variable (document source : String) (store : Option Store)
include hr hauthor

/-- The reference of a header or of a synonym leads to something in the index, and it is kept. -/
theorem analyze_header_selected {place : Nat} {r : Reference} {x : NodeId} :
    let a := analyze registry document source
    a.contribution.references[place]? = some r → r.NotedAt a.tree x →
      a.tree.name? x = some MacroName.header →
      a.index.contains r.target = true ∧ a.resolves store r = true ∧
        place ∈ (a.links store).selected := by
  intro a hplace hnoted hheader
  obtain ⟨happart, hrows, hpairwise⟩ := analyze_attributed hr hauthor document source
  have hmem := List.mem_of_getElem? hplace
  obtain ⟨y, -, hother, htarget⟩ := hrows r hmem
  obtain rfl := hnoted.unique hother hauthor happart
  have hentered := htarget hheader
  have hcomes := (analyze_sound registry document source).comes hmem store
  have hresolves : a.resolves store r = true :=
    Bool.and_eq_true_iff.mpr ⟨hcomes, Analysis.knows_of_contains hentered store⟩
  exact ⟨hentered, hresolves,
    Selection.mem_selected_of_apart hpairwise hplace (hnoted.ofLink hheader) hresolves⟩

/-- What is reported of the references was written as the target of a link or of an inclusion. -/
theorem analyze_unresolved {d : Diagnostic} :
    let a := analyze registry document source
    d ∈ (a.links store).diagnostics →
      ∃ x, a.tree.Reaches a.tree.root x ∧ a.tree.href? x = some d.position ∧
        (a.tree.name? x = some MacroName.crossReference ∨
          a.tree.name? x = some MacroName.inclusion) := by
  intro a hd
  obtain ⟨lost, hlost, hreport⟩ := List.mem_filterMap.mp hd
  obtain ⟨problem, -, rfl⟩ := Option.map_eq_some_iff.mp hreport
  obtain ⟨hmembers, hnowhere, -⟩ := Selection.mem_unresolved.mp hlost
  obtain ⟨⟨r, place⟩, hmember⟩ := List.exists_mem_of_ne_nil _ hmembers
  obtain ⟨hplace, hkey⟩ := Selection.mem_members.mp hmember
  obtain ⟨-, hrows, -⟩ := analyze_attributed hr hauthor document source
  obtain ⟨x, hreaches, hnoted, -⟩ := hrows r (List.mem_of_getElem? hplace)
  rw [show lost.key.position = r.site.position from congrArg (·.position) hkey.symm]
  cases hnoted with
  | header hname hposition hkind =>
    obtain ⟨-, hresolves, -⟩ := analyze_header_selected hr hauthor document source store hplace
      (.header hname hposition hkind) hname
    exact absurd (hresolves.symm.trans (hnowhere _ hmember)) (by decide)
  | link hname hhref => exact ⟨x, hreaches, hhref, .inl hname⟩
  | inclusion hname hhref => exact ⟨x, hreaches, hhref, .inr hname⟩

end

/-- Only links and inclusions lead nowhere. What a reference comes from is in the index, if
it is anything, and that of a header or of a synonym is kept. -/
theorem compile_unresolved (store : Option Store) (options : CompileOptions) (source : String) :
    let a := analyze .builtin options.document source
    let references := a.contribution.references
    (∀ r ∈ references, (r.source = "" ∨ a.index.contains r.source = true) ∧
      (r.source == "" || a.knows store r.source) = true) ∧
    (∀ r ∈ references, ∃ x, a.tree.Reaches a.tree.root x ∧ r.NotedAt a.tree x) ∧
    (∀ place r x, references[place]? = some r → r.NotedAt a.tree x →
      a.tree.name? x = some MacroName.header →
      a.index.contains r.target = true ∧ place ∈ (a.links store).selected) ∧
    (a.aborted = none →
      ∃ c, compile (some .builtin) store options source = .ok c ∧ c.contribution = a.contribution ∧
      ∀ d ∈ c.diagnostics, d.problem.code? = some "unresolved-reference" →
        ∃ x, a.tree.Reaches a.tree.root x ∧ a.tree.href? x = some d.position ∧
          (a.tree.name? x = some MacroName.crossReference ∨
            a.tree.name? x = some MacroName.inclusion)) := by
  intro a references
  have hr := Registry.linkable_builtin.coherent
  have hauthor := Registry.linkable_builtin.author
  have hsound := analyze_sound .builtin options.document source
  refine ⟨fun r hmem => ⟨(hsound.references r hmem).2, hsound.comes hmem store⟩,
    fun r hmem => ?_, fun place r x hplace hnoted hheader => ?_, fun hdone => ?_⟩
  · obtain ⟨-, hrows, -⟩ := analyze_attributed hr hauthor options.document source
    obtain ⟨x, hreaches, hnoted, -⟩ := hrows r hmem
    exact ⟨x, hreaches, hnoted⟩
  · obtain ⟨hentered, -, hselected⟩ :=
      analyze_header_selected hr hauthor options.document source store hplace hnoted hheader
    exact ⟨hentered, hselected⟩
  · refine ⟨_, compile_ok Registry.check_builtin store _ hdone, rfl, ?_⟩
    intro reported hreported hcode
    obtain ⟨d, hd, rfl⟩ := List.mem_map.mp hreported
    rw [Diagnostic.problem_within] at hcode
    rw [Diagnostic.position_within]
    simp only [List.mem_append] at hd
    rcases hd with hd | hd | hd
    · exact absurd hcode (hsound.diagnostics d hd).offTarget.1
    · exact analyze_unresolved hr hauthor options.document source store hd
    · have hlinked := analyze_linked Registry.linkable_builtin options.document source
      exact absurd hcode (hlinked.rendered store options.extension Registry.linkable_builtin
        options.bodyOnly d hd).1

theorem compile_unresolved_geese :
    let source := "\\h[1][Geese]\n\n\\h[1][Grey geese]\x7bsynonym=1\x7d\n\n\\x[swans]"
    let a := analyze .builtin "birds" source
    (∃ r, a.contribution.references[1]? = some r ∧ r.NotedAt a.tree 12 ∧ r.kind = .synonym ∧
      a.index.contains r.target = true ∧ 1 ∈ (a.links none).selected) ∧
    ∃ c, compile (some .builtin) none { document := "birds" } source = .ok c ∧
      ∃ d ∈ c.diagnostics, d.problem.code? = some "unresolved-reference" ∧
        ∃ x, a.tree.href? x = some d.position ∧ (a.tree.name? x = some MacroName.crossReference ∨
          a.tree.name? x = some MacroName.inclusion) := by
  intro source a
  have hfacts : a.aborted = none ∧ a.tree.name? 12 = some MacroName.header ∧
      (∃ r ∈ a.contribution.references[1]?, r.site.position = a.tree.position 12 ∧
        r.kind = .synonym) ∧
      ∃ d ∈ (a.links none).diagnostics, d.problem.code? = some "unresolved-reference" := by
    decide +kernel
  obtain ⟨hdone, hname, ⟨r, hr, hposition, hkind⟩, d, hd, hcode⟩ := hfacts
  have hnoted : r.NotedAt a.tree 12 := .header hname hposition (.inr hkind)
  obtain ⟨-, -, hheaders, hcompiled⟩ := compile_unresolved none { document := "birds" } source
  obtain ⟨c, hcompile, -, hreported⟩ := hcompiled hdone
  obtain ⟨hentered, hselected⟩ := hheaders 1 r 12 hr hnoted hname
  have hmem : d.within "birds" ∈ c.diagnostics := by
    obtain ⟨-, rfl⟩ := (compile_eq_ok_iff Registry.check_builtin).mp hcompile
    exact List.mem_map_of_mem (List.mem_append_right _ (List.mem_append_left _ hd))
  have hlost : (d.within "birds").problem.code? = some "unresolved-reference" := by
    rw [Diagnostic.problem_within, hcode]
  obtain ⟨x, -, hhref, hwritten⟩ := hreported _ hmem hlost
  exact ⟨⟨r, hr, hnoted, hkind, hentered, hselected⟩, c, hcompile, _, hmem, hlost, x, hhref,
    hwritten⟩

end Macromark
