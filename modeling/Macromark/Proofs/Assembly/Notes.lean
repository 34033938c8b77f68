import Macromark.Proofs.Assembly.Implied
import Macromark.Proofs.Assembly.Names
import Macromark.Proofs.Assembly.Tree
import Macromark.Proofs.Tree.Footprint

/-!
# What the visits note of the links

A visit of a link enters its node at the position of its target, and notes at
least one reference there (`Notes.link`). Other references stand at a header or
at an inclusion. What the author wrote has its positions for itself, so that
nothing that is noted is lost or taken for something else (`Visited.noted`).
-/

namespace Macromark

namespace Tree

variable {registry : Registry} {t u : Tree} {id : NodeId}

def name? (t : Tree) (id : NodeId) : Option String := (t.call? id).map (·.name)

def href? (t : Tree) (id : NodeId) : Option Position :=
  (t.call? id).bind fun call => (call.argument? "href").map (·.position)

theorem Kept.name? (h : t.Kept u) (hid : id < t.size) : u.name? id = t.name? id := by
  have hname : ∀ t : Tree, t.name? id = (t.frame? id).map (·.name) := by
    intro t
    rw [Tree.name?, frame?_eq]
    cases t.call? id <;> rfl
  rw [hname, hname, h.frame? hid]

theorem Kept.href? (h : t.Kept u) (hid : id < t.size) : u.href? id = t.href? id := by
  have hhref : ∀ t : Tree, t.href? id =
      (t.frame? id).bind fun call => (call.argument? "href").map (·.position) := by
    intro t
    rw [Tree.href?, frame?_eq]
    cases t.call? id with
    | none => rfl
    | some call => simp [MacroCall.argument?, List.find?_map, Function.comp_def]
  rw [hhref, hhref, h.frame? hid]

theorem mem_footprint_of_href? {name : String} {position : Position} (hname : t.name? id = some name)
    (hother : name ≠ MacroName.toplevel) (h : t.href? id = some position) :
    position ∈ t.footprint id := by
  obtain ⟨call, hcall, rfl⟩ := Option.map_eq_some_iff.mp hname
  rw [href?, hcall, Option.bind_some] at h
  obtain ⟨href, hhref, rfl⟩ := Option.map_eq_some_iff.mp h
  rw [footprint_of_call? hcall]
  exact argument_mem_footprint hother (List.mem_of_find?_eq_some hhref)

def Written (registry : Registry) (t : Tree) (id : NodeId) : Prop :=
  ∃ name, t.name? id = some name ∧ ¬ registry.Implies name

/-- What the author wrote has its positions for itself. -/
def Apart (registry : Registry) (t : Tree) : Prop :=
  ∀ a b p, t.Written registry a → t.Written registry b →
    p ∈ t.footprint a → p ∈ t.footprint b → a = b

theorem Apart.kept (h : t.Apart registry) (hkept : t.Kept u)
    (hnew : ∀ id, t.size ≤ id → ∀ call, u.call? id = some call → registry.Implies call.name) :
    u.Apart registry := by
  have hold : ∀ id, u.Written registry id → id < t.size := by
    rintro id ⟨name, hname, hwritten⟩
    by_contra hfresh
    obtain ⟨call, hcall, rfl⟩ := Option.map_eq_some_iff.mp hname
    exact hwritten (hnew id (Nat.le_of_not_lt hfresh) call hcall)
  have hback : ∀ id, u.Written registry id → t.Written registry id := by
    intro id hid
    have hname := hkept.name? (hold id hid)
    obtain ⟨name, hlater, hwritten⟩ := hid
    exact ⟨name, hname.symm.trans hlater, hwritten⟩
  intro a b p ha hb hpa hpb
  rw [hkept.footprint (hold a ha)] at hpa
  rw [hkept.footprint (hold b hb)] at hpb
  exact h a b p (hback a ha) (hback b hb) hpa hpb

end Tree

namespace Assembly

variable {setting : Setting} {s u : State} {node : NodeId} {call : MacroCall} {definition : MacroDef}
variable {visit : Visit} {nodes : List NodeId}

-- ----------------------------------------------------------------------------
-- One visit
-- ----------------------------------------------------------------------------

/-- What a visit of `node` adds to the references and to the sites of the links. -/
inductive Notes (setting : Setting) (t : Tree) (node : NodeId) (s u : State) : Prop
  | nothing : (t.name? node = some MacroName.crossReference → t.href? node = none) →
      u.references = s.references → u.linkSites = s.linkSites → Notes setting t node s u
  | row (r : Reference) (name : String) : t.name? node = some name →
      name = MacroName.header ∨ name = MacroName.inclusion → r.kind ≠ .crossReference →
      r.site.position ∈ t.footprint node → u.references = s.references ++ [r] →
      u.linkSites = s.linkSites → Notes setting t node s u
  | link (position : Position) (rows : List Reference) :
      t.name? node = some MacroName.crossReference → t.href? node = some position →
      (∃ r ∈ rows, r.groupKey = ⟨setting.document, position, .crossReference⟩) →
      (∀ r ∈ rows, r.site.position = position ∧ (r.kind = .crossReference ∨ r.kind = .titleInTitle)) →
      u.references = s.references ++ rows → u.linkSites = s.linkSites.insert position node →
      Notes setting t node s u

/-- The same references and the same sites of links. -/
def SameNotes (s u : State) : Prop := u.references = s.references ∧ u.linkSites = s.linkSites

theorem SameNotes.refl (s : State) : SameNotes s s := ⟨rfl, rfl⟩

variable {t : Tree} {earlier later : State}

theorem Notes.framed (h : Notes setting t node s u) (hearlier : SameNotes earlier s)
    (hlater : SameNotes u later) : Notes setting t node earlier later := by
  obtain ⟨hrows, hsites⟩ := hearlier
  obtain ⟨hrows', hsites'⟩ := hlater
  cases h with
  | nothing hhref hreferences hlinks =>
    exact .nothing hhref (hrows'.trans (hreferences.trans hrows)) (hsites'.trans (hlinks.trans hsites))
  | row r name hname hnames hkind hposition hreferences hlinks =>
    refine .row r name hname hnames hkind hposition ?_ (hsites'.trans (hlinks.trans hsites))
    rw [hrows', hreferences, hrows]
  | link position rows hname hhref hcross hall hreferences hlinks =>
    refine .link position rows hname hhref hcross hall ?_ ?_
    · rw [hrows', hreferences, hrows]
    · rw [hsites', hlinks, hsites]

theorem assignId_frame (setting : Setting) (s : State) (node : NodeId) (call : MacroCall)
    (definition : MacroDef) (scope : Option String) (numbered : Bool) :
    SameNotes s (assignId setting s node call definition scope numbered).2 := by
  unfold assignId
  split
  · exact ⟨rfl, rfl⟩
  · simp only
    split <;> exact ⟨rfl, rfl⟩

theorem levelOf_frame (setting : Setting) (s : State) (node : NodeId) :
    SameNotes s (levelOf setting s node).2 := by
  unfold levelOf
  simp only
  split <;> exact ⟨rfl, rfl⟩

section
variable (hnode : node < s.tree.size) (hname : s.tree.name? node = some MacroName.header)
include hname

theorem Notes.silent (hreferences : u.references = s.references)
    (hsites : u.linkSites = s.linkSites) : Notes setting s.tree node s u := by
  refine .nothing (fun hlink => ?_) hreferences hsites
  rw [hname] at hlink
  exact absurd (Option.some.inj hlink) (by decide)

/-- The one reference of a header stands where the header does. -/
theorem Notes.header (r : Reference) (hkind : r.kind ≠ .crossReference)
    (hposition : r.site.position = s.tree.position node)
    (hreferences : u.references = s.references ++ [r]) (hsites : u.linkSites = s.linkSites) :
    Notes setting s.tree node s u := by
  refine .row r MacroName.header hname (.inl rfl) hkind ?_ hreferences hsites
  obtain ⟨call, hcall, hheader⟩ := Option.map_eq_some_iff.mp hname
  rw [Tree.footprint_of_call? hcall, hposition]
  exact position_mem_footprint (hheader ▸ by decide) _ _

include hnode

theorem visitSynonym_notes (call : MacroCall) (definition : MacroDef) (level : Level) :
    Notes setting s.tree node s (visitSynonym setting s node call definition level).2 := by
  have hframe := assignId_frame setting s node call definition (outerScope s) false
  have hlabeled := assignId_labeled setting s node call definition (outerScope s) false
  unfold visitSynonym
  generalize assignId setting s node call definition (outerScope s) false = assigned
    at hframe hlabeled
  obtain ⟨id, t⟩ := assigned
  cases id with
  | none => exact .silent hname hframe.1 hframe.2
  | some id =>
    simp only at hframe hlabeled ⊢
    split
    · next target _ =>
      let row : Reference :=
        { source := id, target, kind := .synonym, site := site setting (t.tree.position node) }
      refine .header hname row (by simp [row]) (hlabeled.kept.position hnode) ?_ hframe.2
      rw [← hframe.1]
      rfl
    · exact .silent hname hframe.1 hframe.2

omit hnode in
theorem nameHeader_notes (call : MacroCall) (definition : MacroDef) (entered : HeaderTree.Entered)
    (level : Level) :
    Notes setting s.tree node s (nameHeader setting s node call definition entered level).2 := by
  have hframe := assignId_frame setting s node call definition (outerScope s) true
  unfold nameHeader
  simp only
  generalize assignId setting s node call definition (outerScope s) true = assigned at hframe ⊢
  obtain ⟨id, t⟩ := assigned
  cases id with
  | none => exact .silent hname hframe.1 hframe.2
  | some id =>
    simp only at hframe ⊢
    refine .header hname _ ?_ rfl (by rw [← hframe.1]; rfl) hframe.2
    simp

theorem visitHeader_notes (call : MacroCall) (definition : MacroDef) :
    Notes setting s.tree node s (visitHeader setting s node call definition).2 := by
  have hlevel := levelOf_frame setting s node
  have htree := tree_levelOf setting s node
  unfold visitHeader
  generalize levelOf setting s node = leveled at hlevel htree ⊢
  obtain ⟨level, t⟩ := leveled
  simp only at hlevel htree ⊢
  rw [← htree] at hnode hname ⊢
  split
  · exact (visitSynonym_notes hnode hname call definition level).framed hlevel (.refl _)
  · obtain ⟨reports, aborted, hlinked, -⟩ := linkHeader_eq setting t node level
    rw [hlinked]
    refine (nameHeader_notes (s := { t with
        headers := (t.headers.enter node level).2, diagnostics := t.diagnostics ++ reports, aborted })
      hname call definition _ level).framed hlevel (.refl _)
end

theorem distinctCandidates_ne_nil {candidates : List Candidate} (h : candidates ≠ []) :
    distinctCandidates candidates ≠ [] := by
  have hkept : ∀ (rest kept : List Candidate), kept ≠ [] →
      rest.foldl (fun kept candidate =>
        if kept.any (·.1 == candidate.1) then kept else kept ++ [candidate]) kept ≠ [] := by
    intro rest
    induction rest with
    | nil => exact fun kept hne => hne
    | cons candidate rest ih =>
      intro kept hne
      refine ih _ ?_
      simp only
      split
      · exact hne
      · simp
  obtain ⟨first, rest, rfl⟩ := List.exists_cons_of_ne_nil h
  exact hkept rest [first] (by simp)

/-- A link may mean something, even if that has no name. -/
theorem candidates_ne_nil (scopes : List String) (base : String) (variants : List String) :
    candidates scopes base variants ≠ [] := by
  unfold candidates
  split
  · simp
  · exact distinctCandidates_ne_nil (by simp)

theorem kind_candidateReferences {source : String} {inTitle : Bool} {place : Site}
    {candidate : Candidate} {r : Reference}
    (h : r ∈ candidateReferences source inTitle place candidate) :
    r.kind = .crossReference ∨ r.kind = .titleInTitle := by
  unfold candidateReferences at h
  split at h
  · simp only [List.mem_cons, List.not_mem_nil, or_false] at h
    rcases h with rfl | rfl
    · exact .inl rfl
    · exact .inr rfl
  · obtain rfl := List.mem_singleton.mp h
    exact .inl rfl

theorem crossReference_mem_candidateReferences (source : String) (inTitle : Bool) (place : Site)
    (candidate : Candidate) :
    ∃ r ∈ candidateReferences source inTitle place candidate,
      r.groupKey = ⟨place.document, place.position, .crossReference⟩ := by
  unfold candidateReferences
  simp only
  split <;> exact ⟨_, List.mem_cons_self, rfl⟩

section
variable (hcall : s.tree.call? node = some call)
include hcall

theorem visitLink_notes (hname : call.name = MacroName.crossReference) (titleOf : Option String) :
    Notes setting s.tree node s (visitLink setting s node call titleOf) := by
  have hname : s.tree.name? node = some MacroName.crossReference := by
    rw [Tree.name?, hcall, Option.map_some, hname]
  unfold visitLink
  split
  · next hnone =>
    refine .nothing (fun _ => ?_) rfl rfl
    rw [Tree.href?, hcall, Option.bind_some, hnone, Option.map_none]
  · next href hhref =>
    refine .link href.position _ hname ?_ ?_ ?_ rfl rfl
    · rw [Tree.href?, hcall, Option.bind_some, hhref, Option.map_some]
    · obtain ⟨candidate, hcandidate⟩ := List.exists_mem_of_ne_nil _ (candidates_ne_nil _ _ _)
      obtain ⟨r, hr, hkey⟩ := crossReference_mem_candidateReferences _ _ _ candidate
      exact ⟨r, List.mem_flatMap.mpr ⟨candidate, hcandidate, hr⟩, hkey⟩
    · intro r hr
      obtain ⟨candidate, -, hr⟩ := List.mem_flatMap.mp hr
      rw [(mem_candidateReferences hr).2]
      exact ⟨rfl, kind_candidateReferences hr⟩

theorem visitInclusion_notes (hname : call.name = MacroName.inclusion) :
    Notes setting s.tree node s (visitInclusion setting s node call) := by
  have hname : s.tree.name? node = some MacroName.inclusion := by
    rw [Tree.name?, hcall, Option.map_some, hname]
  unfold visitInclusion
  split
  · refine .nothing (fun hlink => ?_) rfl rfl
    rw [hname] at hlink
    exact absurd (Option.some.inj hlink) (by decide)
  · next href hhref =>
    refine .row _ MacroName.inclusion hname (.inr rfl) (by simp) ?_ rfl rfl
    refine Tree.mem_footprint_of_href? hname (by decide) ?_
    rw [Tree.href?, hcall, Option.bind_some, hhref, Option.map_some]
    rfl

end

theorem visitCall_notes (hcall : s.tree.call? visit.node = some call)
    (hdefined : ∃ d, setting.registry.get? call.name = some d) :
    Notes setting s.tree visit.node s (visitCall setting s visit call).2 := by
  obtain ⟨d, hd⟩ := hdefined
  have hname : s.tree.name? visit.node = some call.name := by rw [Tree.name?, hcall, Option.map_some]
  simp only [visitCall, hd]
  split
  · next hheader => exact visitHeader_notes (Tree.lt_of_call? hcall) (hheader ▸ hname) call d
  · refine Notes.framed ?_ (.refl _) (assignId_frame ..)
    split
    · next hlink => exact visitLink_notes hcall hlink visit.titleOf
    · next hlink =>
      split
      · next hinclusion => exact visitInclusion_notes hcall hinclusion
      · exact .nothing (fun h => absurd (Option.some.inj (hname.symm.trans h)) hlink) rfl rfl

/-- Once a macro has been named and noted, its visit notes nothing more. -/
theorem visitNode_frame (hcall : s.tree.call? visit.node = some call) :
    SameNotes (if visit.node = s.tree.root then ((none : Option String), s)
      else visitCall setting s visit call).2 (visitNode setting visit s).2 := by
  rw [visitNode_rest hcall]
  exact ⟨rfl, rfl⟩

theorem visitNode_notes (hdeclared : s.tree.Declared setting.registry)
    (hroot : s.tree.name? s.tree.root ≠ some MacroName.crossReference) :
    Notes setting s.tree visit.node s (visitNode setting visit s).2 := by
  cases hcall : s.tree.call? visit.node with
  | none =>
    have hsame : SameNotes s (visitNode setting visit s).2 := by
      simp only [visitNode, hcall]
      exact .refl s
    refine .nothing (fun h => ?_) hsame.1 hsame.2
    simp [Tree.name?, hcall] at h
  | some call =>
    obtain ⟨d, hd, -⟩ := hdeclared visit.node call hcall
    refine Notes.framed ?_ (.refl s) (visitNode_frame hcall)
    split
    · next heq => exact .nothing (fun h => absurd (heq ▸ h) hroot) rfl rfl
    · exact visitCall_notes hcall ⟨d, hd⟩

-- ----------------------------------------------------------------------------
-- What is found after a visit
-- ----------------------------------------------------------------------------

namespace Notes

variable (h : Notes setting t node s u) {position : Position} {id : NodeId} {r : Reference}
include h

theorem mem_references (hr : r ∈ s.references) : r ∈ u.references := by
  cases h with
  | nothing _ hreferences => exact hreferences ▸ hr
  | row _ _ _ _ _ _ hreferences => exact hreferences ▸ List.mem_append_left _ hr
  | link _ _ _ _ _ _ hreferences => exact hreferences ▸ List.mem_append_left _ hr

theorem noted (hname : t.name? node = some MacroName.crossReference)
    (hhref : t.href? node = some position) : u.linkSites.get? position = some node ∧
      ∃ r ∈ u.references, r.groupKey = ⟨setting.document, position, .crossReference⟩ := by
  cases h with
  | nothing hnone => simp [hnone hname] at hhref
  | row r name hother hnames =>
    rw [hname] at hother
    obtain rfl := Option.some.inj hother
    exact absurd hnames (by decide)
  | link place rows _ hplace hcross _ hreferences hsites =>
    obtain rfl := Option.some.inj (hplace.symm.trans hhref)
    obtain ⟨r, hr, hkey⟩ := hcross
    refine ⟨?_, r, hreferences ▸ List.mem_append_right _ hr, hkey⟩
    rw [hsites, OrderedMap.get?_insert, if_pos rfl]

theorem site_kept (hother : t.name? node = some MacroName.crossReference →
    t.href? node ≠ some position) (hsite : s.linkSites.get? position = some id) :
    u.linkSites.get? position = some id := by
  cases h with
  | nothing _ _ hsites => exact hsites ▸ hsite
  | row _ _ _ _ _ _ _ hsites => exact hsites ▸ hsite
  | link place _ hname hplace _ _ _ hsites =>
    have hne : place ≠ position := fun heq => hother hname (heq ▸ hplace)
    rw [hsites, OrderedMap.get?_insert, if_neg hne, hsite]

theorem of_site (hsite : u.linkSites.get? position = some id) :
    s.linkSites.get? position = some id ∨ id = node ∧
      t.name? node = some MacroName.crossReference ∧ t.href? node = some position := by
  cases h with
  | nothing _ _ hsites => exact .inl (hsites ▸ hsite)
  | row _ _ _ _ _ _ _ hsites => exact .inl (hsites ▸ hsite)
  | link place _ hname hplace _ _ _ hsites =>
    rw [hsites, OrderedMap.get?_insert] at hsite
    split at hsite
    · next heq => exact .inr ⟨(Option.some.inj hsite).symm, hname, heq ▸ hplace⟩
    · exact .inl hsite

theorem of_mem (hr : r ∈ u.references) :
    r ∈ s.references ∨ (r.kind = .crossReference ∨ r.kind = .titleInTitle) ∨
      ∃ name, t.name? node = some name ∧
        (name = MacroName.header ∨ name = MacroName.inclusion) ∧
        r.site.position ∈ t.footprint node := by
  cases h with
  | nothing _ hreferences => exact .inl (hreferences ▸ hr)
  | row new name hname hnames _ hposition hreferences =>
    rw [hreferences, List.mem_append, List.mem_singleton] at hr
    rcases hr with hr | rfl
    · exact .inl hr
    · exact .inr (.inr ⟨name, hname, hnames, hposition⟩)
  | link place rows _ _ _ hall hreferences =>
    rw [hreferences, List.mem_append] at hr
    exact hr.imp_right fun hr => .inl (hall r hr).2

end Notes

-- ----------------------------------------------------------------------------
-- All visits
-- ----------------------------------------------------------------------------

/-- Headers, links and inclusions are written by the author only. -/
def AuthorOnly (registry : Registry) : Prop :=
  ∀ name ∈ [MacroName.header, MacroName.crossReference, MacroName.inclusion], ¬ registry.Implies name

/-- What is known of the references and of the sites of links once `nodes` have been visited. -/
structure Noted (setting : Setting) (nodes : List NodeId) (s : State) : Prop where
  apart : s.tree.Apart setting.registry
  root : s.tree.name? s.tree.root ≠ some MacroName.crossReference
  links : ∀ id ∈ nodes, s.tree.name? id = some MacroName.crossReference →
    ∀ position, s.tree.href? id = some position → s.linkSites.get? position = some id ∧
      ∃ r ∈ s.references, r.groupKey = ⟨setting.document, position, .crossReference⟩
  sites : ∀ position id, s.linkSites.get? position = some id →
    id ∈ nodes ∧ s.tree.name? id = some MacroName.crossReference ∧ s.tree.href? id = some position
  /-- What is no reference of a link stands at a header or at an inclusion. -/
  rows : ∀ r ∈ s.references, (r.kind = .crossReference ∨ r.kind = .titleInTitle) ∨
    ∃ id ∈ nodes, ∃ name, s.tree.name? id = some name ∧
      (name = MacroName.header ∨ name = MacroName.inclusion) ∧
      r.site.position ∈ s.tree.footprint id

theorem Noted.next (h : Noted setting nodes s) (hauthor : AuthorOnly setting.registry)
    (hnot : node ∉ nodes) (hnotes : Notes setting s.tree node s u) :
    Noted setting (node :: nodes) { u with tree := s.tree } := by
  have hwritten : ∀ id, s.tree.name? id = some MacroName.crossReference →
      s.tree.Written setting.registry id :=
    fun id hname => ⟨_, hname, hauthor _ (by simp)⟩
  refine ⟨h.apart, h.root, ?_, ?_, ?_⟩
  · intro id hid hname position hhref
    rcases List.mem_cons.mp hid with rfl | hid
    · exact hnotes.noted hname hhref
    · obtain ⟨hsite, r, hr, hkey⟩ := h.links id hid hname position hhref
      refine ⟨hnotes.site_kept ?_ hsite, r, hnotes.mem_references hr, hkey⟩
      -- the two links would have a position in common
      intro hlink hplace
      have heq := h.apart id node position (hwritten id hname) (hwritten node hlink)
        (Tree.mem_footprint_of_href? hname (by decide) hhref)
        (Tree.mem_footprint_of_href? hlink (by decide) hplace)
      exact hnot (heq ▸ hid)
  · intro position id hsite
    rcases hnotes.of_site hsite with hold | ⟨rfl, hname, hhref⟩
    · exact (h.sites position id hold).imp_left (List.mem_cons_of_mem _)
    · exact ⟨List.mem_cons_self, hname, hhref⟩
  · intro r hr
    rcases hnotes.of_mem hr with hold | hkind | hrow
    · refine (h.rows r hold).imp_right ?_
      rintro ⟨id, hid, hrest⟩
      exact ⟨id, List.mem_cons_of_mem _ hid, hrest⟩
    · exact .inl hkind
    · exact .inr ⟨node, List.mem_cons_self, hrow⟩

theorem Noted.kept (h : Noted setting nodes { u with tree := t }) (hkept : t.Kept u.tree)
    (hnew : ∀ id, t.size ≤ id → ∀ call, u.tree.call? id = some call →
      setting.registry.Implies call.name)
    (hnodes : ∀ id ∈ nodes, id < t.size) (hroot : t.root < t.size) : Noted setting nodes u := by
  obtain ⟨hapart, htop, hlinks, hsites, hrows⟩ := h
  refine ⟨hapart.kept hkept hnew, ?_, ?_, ?_, ?_⟩
  · rw [hkept.root_eq, hkept.name? hroot]
    exact htop
  · intro id hid hname position hhref
    rw [hkept.name? (hnodes id hid)] at hname
    rw [hkept.href? (hnodes id hid)] at hhref
    exact hlinks id hid hname position hhref
  · intro position id hsite
    obtain ⟨hid, hname, hhref⟩ := hsites position id hsite
    rw [hkept.name? (hnodes id hid), hkept.href? (hnodes id hid)]
    exact ⟨hid, hname, hhref⟩
  · intro r hr
    refine (hrows r hr).imp_right ?_
    rintro ⟨id, hid, name, hname, hnames, hposition⟩
    refine ⟨id, hid, name, ?_, hnames, ?_⟩
    · rw [hkept.name? (hnodes id hid), hname]
    · rw [hkept.footprint (hnodes id hid)]
      exact hposition

theorem Visited.noted {start : State} {made : List Arrival} (h : Visited setting start made s)
    (hr : setting.registry.Coherent) (hauthor : AuthorOnly setting.registry)
    (hstart : Noted setting [] start) : Noted setting (made.map (·.node)) s := by
  induction h with
  | start => exact hstart
  | @visit earlier s rank visit _ hshape hnot hnode _ ih =>
    obtain ⟨-, later, -, hstepped⟩ := visitNode_shape hr hshape hnode fun _ => hnot
    have hnotes : Notes setting s.tree visit.node s (visitNode setting visit s).2 :=
      visitNode_notes hshape.declared ih.root
    refine (ih.next hauthor hnot hnotes).kept hstepped.kept hstepped.implied ?_ hshape.root_lt
    intro id hid
    rcases List.mem_cons.mp hid with rfl | hid
    · exact hnode
    · exact hshape.known id "" hid

-- ----------------------------------------------------------------------------
-- The document as a whole
-- ----------------------------------------------------------------------------

theorem registerDocument_frame (setting : Setting) (t : Tree) :
    SameNotes (.initial t) (registerDocument setting (.initial t)) := by
  unfold registerDocument
  split
  · exact ⟨rfl, rfl⟩
  · simp only
    split <;> exact ⟨rfl, rfl⟩

theorem registerDocument_noted (setting : Setting) {t : Tree} (hlt : t.root < t.size)
    (happart : t.Apart setting.registry) (hroot : t.name? t.root ≠ some MacroName.crossReference) :
    Noted setting [] (registerDocument setting (.initial t)) := by
  have hlabeled := registerDocument_labeled setting t
  obtain ⟨hreferences, hsites⟩ := registerDocument_frame setting t
  refine ⟨happart.kept hlabeled.kept ?_, ?_, by simp, ?_, ?_⟩
  · intro id hfresh call hcall
    have hold := Tree.lt_of_call? hcall
    rw [hlabeled.size_eq] at hold
    exact absurd hold (Nat.not_lt.mpr hfresh)
  · rw [hlabeled.kept.root_eq, hlabeled.kept.name? hlt]
    exact hroot
  · intro position id hsite
    rw [hsites] at hsite
    simp [State.initial] at hsite
  · intro r hr
    rw [hreferences] at hr
    simp [State.initial] at hr

end Assembly

open Assembly (AuthorOnly Noted)

/-- The root of what the author wrote can only be the document. -/
theorem name_of_root {registry : Registry} {source name : String} :
    let t := (parse registry (tokenize source).tokens).tree
    t.name? t.root = some name → name = MacroName.toplevel := by
  intro t hname
  obtain ⟨-, -, -, htop⟩ := parse_tree registry (tokenize source).tokens
  obtain ⟨call, hcall, rfl⟩ := Option.map_eq_some_iff.mp hname
  have hhead := htop call hcall
  change some (TokenKind.macroName MacroName.toplevel) = _ at hhead
  exact (TokenKind.macroName.inj (Option.some.inj hhead)).symm

theorem parse_noted (registry : Registry) (document source : String) :
    Noted ⟨registry, document⟩ [] (Assembly.registerDocument ⟨registry, document⟩
      (.initial (parse registry (tokenize source).tokens).tree)) := by
  obtain ⟨-, hrooted, -, -⟩ := parse_tree registry (tokenize source).tokens
  refine Assembly.registerDocument_noted ⟨registry, document⟩ hrooted.root_lt
    (fun a b p _ _ ha hb => footprint_unique registry source ha hb) fun hname => ?_
  exact absurd (name_of_root hname) (by decide)

/-- What an analysis has noted of what it has visited, and nothing is left out. -/
theorem analyze_noted {registry : Registry} (hr : registry.Coherent)
    (hauthor : AuthorOnly registry) (document source : String) :
    let a := analyze registry document source
    ∃ nodes s, Noted ⟨registry, document⟩ nodes s ∧ s.tree.Declared registry ∧
      a.tree = s.tree ∧ a.contribution.references = s.references ∧ a.linkSites = s.linkSites ∧
      ∀ id, s.tree.Reaches s.tree.root id → id ∈ nodes := by
  obtain ⟨hgrown, hrooted, -, -⟩ := parse_tree registry (tokenize source).tokens
  obtain ⟨made, rank, final, hvisited, hassemble, hshape, -, hreached⟩ :=
    assemble_visited hr document hgrown hrooted
  refine ⟨_, final, hvisited.noted hr hauthor (parse_noted registry document source), hshape.declared,
    ?_, ?_, ?_, hreached⟩
  · exact congrArg (·.tree) hassemble
  · exact congrArg (·.contribution.references) hassemble
  · exact congrArg (·.linkSites) hassemble

end Macromark
