import Macromark.Proofs.Assembly.Inclusions
import Macromark.Proofs.Outline.Contents

/-!
# What a header stands under

When a header is visited, it is linked under another one, and a reference to it is
noted that comes from the identifier of that one. The headers above never get
another identifier later, so that the references tell the parents of all headers
in the finished document (`Visited.raised`, `analyze_raised`). Where the header
above has no identifier, the reference comes from nothing.
-/

namespace Macromark

theorem Tree.position_mem_footprint {t : Tree} {x : NodeId} (h : t.name? x = some MacroName.header) :
    t.position x ∈ t.footprint x := by
  obtain ⟨call, hcall, hname⟩ := Option.map_eq_some_iff.mp h
  rw [footprint_of_call? hcall]
  exact Macromark.position_mem_footprint (hname ▸ by decide) _ _

namespace HeaderTree

def node? (h : HeaderTree) (id : HeaderId) : Option NodeId := (h.get? id).bind (·.node)

variable {h : HeaderTree} {parent : Nat} {level : Level}

theorem node?_eq (h : HeaderTree) (id : HeaderId) : h.node? id = (h.outline[id]?).bind (·.1) := by
  simp [node?, get?, outline, Option.bind_map]

theorem lt_of_node? {id : HeaderId} {x : NodeId} (hnode : h.node? id = some x) :
    id < h.nodes.size := by
  obtain ⟨entry, hentry, -⟩ := Option.bind_eq_some_iff.mp hnode
  exact (Array.getElem?_eq_some_iff.mp hentry).1

theorem node?_enter {outer : List HeaderId} (hclose : h.close level h.chain = parent :: outer)
    (hinside : parent < h.nodes.size) (node : NodeId) (id : Nat) :
    (h.enter node level).2.node? id = if id = h.nodes.size then some node else h.node? id := by
  unfold node?
  rw [get?_enter hclose hinside]
  split
  · rfl
  · split
    · cases h.get? id <;> rfl
    · rfl

end HeaderTree

namespace Assembly

variable {setting : Setting} {s u start : State} {t : Tree} {visit : Visit} {node : NodeId}
variable {call : MacroCall} {definition : MacroDef} {level : Level} {r : Reference}
variable {made : List Arrival} {arrival : Arrival} {header parent : HeaderId}

def structural (references : List Reference) : List Reference :=
  references.filter (·.kind = .structuralParent)

theorem structural_append (first second : List Reference) :
    structural (first ++ second) = structural first ++ structural second :=
  List.filter_append ..

/-- The reference to the header `id`, from what it stands under. -/
def headerRow (setting : Setting) (position : Position) (source id : String) : Reference :=
  { source, target := id, kind := .structuralParent, site := site setting position }

-- ----------------------------------------------------------------------------
-- One visit
-- ----------------------------------------------------------------------------

theorem parentId_congr (h : u.headerIds = s.headerIds) (parent : HeaderId) :
    parentId setting u parent = parentId setting s parent := by
  rw [parentId, parentId, h]

theorem structural_visitSynonym :
    structural (visitSynonym setting s node call definition level).2.references =
      structural s.references := by
  have hframe := assignId_frame setting s node call definition (outerScope s) false
  unfold visitSynonym
  generalize assignId setting s node call definition (outerScope s) false = assigned at hframe ⊢
  obtain ⟨id, t⟩ := assigned
  rw [← hframe.1]
  cases id with
  | none => rfl
  | some id =>
    simp only
    split
    · simp [refer, structural]
    · rfl

theorem nameHeader_references {linked : HeaderTree.Entered} :
    let result := nameHeader setting s node call definition linked level
    result.2.references = s.references ++ result.1.toList.map
      (headerRow setting (s.tree.position node) (parentId setting result.2 linked.parent)) := by
  have hframe := assignId_frame setting s node call definition (outerScope s) true
  unfold nameHeader
  simp only
  generalize assignId setting s node call definition (outerScope s) true = assigned at hframe ⊢
  obtain ⟨id, t⟩ := assigned
  rw [← hframe.1]
  cases id with
  | none => simp
  | some id => rfl

theorem structural_headerRows (position : Position) (source : String) (ids : List String) :
    structural (ids.map (headerRow setting position source)) =
      ids.map (headerRow setting position source) := by
  refine List.filter_eq_self.mpr fun r hr => ?_
  obtain ⟨id, -, rfl⟩ := List.mem_map.mp hr
  rfl

theorem visitHeader_references :
    let result := visitHeader setting s node call definition
    structural result.2.references = structural s.references ++
      if Text.isTruthy (text setting s node "synonym") then [] else
        result.1.toList.map (headerRow setting (s.tree.position node)
          (parentId setting result.2 (s.headers.enter node (levelOf setting s node).1).1.parent)) := by
  obtain ⟨-, hscopes⟩ := levelOf_names setting s node
  have hlevel := levelOf_frame setting s node
  have htree := tree_levelOf setting s node
  rw [visitHeader_eq]
  generalize levelOf setting s node = leveled at hscopes hlevel htree ⊢
  obtain ⟨level, t⟩ := leveled
  simp only at hscopes hlevel htree ⊢
  have htext : text setting s node "synonym" = text setting t node "synonym" := by
    unfold text
    rw [htree]
  rw [← hlevel.1, ← hscopes.headers, htext, ← htree]
  split
  · rw [structural_visitSynonym, List.append_nil]
  · obtain ⟨hnames, -⟩ := linkHeader_names setting t node level
    rw [nameHeader_references, structural_append, (linkHeader_frame setting t node level).1,
      hnames.tree, structural_headerRows]

theorem structural_visitLink {titleOf : Option String} :
    structural (visitLink setting s node call titleOf).references = structural s.references := by
  unfold visitLink
  split
  · rfl
  · simp only [refer, structural_append]
    refine List.append_right_eq_self.mpr (List.filter_eq_nil_iff.mpr fun r hr => ?_)
    obtain ⟨candidate, -, hr⟩ := List.mem_flatMap.mp hr
    rcases kind_candidateReferences hr with hkind | hkind <;> simp [hkind]

theorem Naming.eq_granted {given : Option String} (visit : Visit)
    (h : Naming setting visit.node s (requestedId setting s visit.node) given u) :
    given = granted setting ⟨visit, s⟩ := by
  generalize hasked : requestedId setting s visit.node = asked at h
  cases h with
  | nameless => simp [granted, Assembly.refused, hasked]
  | refused hprevious => simp [granted, Assembly.refused, hasked, hprevious]
  | entered hfree => simp [granted, Assembly.refused, hasked, hfree]

/-- The references to what stands in something that a visit notes, by the identifiers that it leaves
to the headers. -/
def parentRows (setting : Setting) (arrival : Arrival) (u : State) : List Reference :=
  let s := arrival.before
  match headingLevel? setting arrival with
  | some level =>
    (granted setting arrival).toList.map (headerRow setting (s.tree.position arrival.node)
      (parentId setting u (s.headers.enter arrival.node level).1.parent))
  | none => inclusionRows setting arrival

theorem inclusionRows_eq_nil (h : s.tree.name? visit.node ≠ some MacroName.inclusion) :
    inclusionRows setting ⟨visit, s⟩ = [] :=
  List.eq_nil_iff_forall_not_mem.mpr fun _ hr => h (mem_inclusionRows hr).1

theorem structural_visitHeader (hname : s.tree.name? visit.node = some MacroName.header)
    (hdefinition : definition.name = MacroName.header) (hroot : visit.node ≠ s.tree.root)
    (hasked : requestedId setting s visit.node =
      (localId setting s visit.node call definition).map
        (Identifier.underScope (scopeAt setting s visit.node))) :
    let u := (visitHeader setting s visit.node call definition).2
    structural u.references = structural s.references ++ parentRows setting ⟨visit, s⟩ u := by
  have hrows : structural (visitHeader setting s visit.node call definition).2.references = _ :=
    visitHeader_references
  have hnaming : Naming setting visit.node s _ _ _ :=
    (visitHeader_naming hname hdefinition hroot call).1
  have hheading : s.tree.isHeading setting.registry visit.node =
      !Text.isTruthy (text setting s visit.node "synonym") := by
    simp [Tree.isHeading, hname, text]
  rw [← hasked] at hnaming
  generalize visitHeader setting s visit.node call definition = result at hrows hnaming ⊢
  rw [hnaming.eq_granted visit] at hrows
  simp only [hrows]
  cases hsynonym : Text.isTruthy (text setting s visit.node "synonym") with
  | true =>
    have hlevel : headingLevel? setting ⟨visit, s⟩ = none := by
      simp [headingLevel?, hheading, hsynonym]
    have hnone : inclusionRows setting ⟨visit, s⟩ = [] :=
      inclusionRows_eq_nil (by rw [hname]; decide)
    simp only [parentRows, hlevel, hnone, if_true]
  | false =>
    have hlevel : headingLevel? setting ⟨visit, s⟩ = some (levelOf setting s visit.node).1 := by
      simp [headingLevel?, hroot, hheading, hsynonym]
    simp only [parentRows, hlevel, Bool.false_eq_true, if_false]

theorem structural_visitCall (hcall : s.tree.call? visit.node = some call)
    (hdefined : setting.registry.get? call.name = some definition)
    (hroot : visit.node ≠ s.tree.root) :
    let u := (visitCall setting s visit call).2
    structural u.references = structural s.references ++ parentRows setting ⟨visit, s⟩ u := by
  have hname : s.tree.name? visit.node = some call.name := by rw [Tree.name?, hcall, Option.map_some]
  have hasked : requestedId setting s visit.node =
      (localId setting s visit.node call definition).map
        (Identifier.underScope (scopeAt setting s visit.node)) := by
    simp [requestedId, hroot, hcall, hdefined, Option.map_eq_bind]
  simp only [visitCall, hdefined]
  by_cases hheader : call.name = MacroName.header
  · rw [if_pos hheader]
    exact structural_visitHeader (hheader ▸ hname) ((Registry.name_of_get? hdefined).trans hheader)
      hroot hasked
  · rw [if_neg hheader]
    have hlevel : headingLevel? setting ⟨visit, s⟩ = none := by
      simp [headingLevel?, Tree.isHeading, hname, hheader]
    simp only [parentRows, hlevel]
    rw [(assignId_frame ..).1]
    by_cases hlink : call.name = MacroName.crossReference
    · rw [if_pos hlink, structural_visitLink, inclusionRows_eq_nil, List.append_nil]
      rw [hname, hlink]
      decide
    · rw [if_neg hlink]
      by_cases hinclusion : call.name = MacroName.inclusion
      · rw [if_pos hinclusion, visitInclusion_references hcall hinclusion, structural_append]
        refine congrArg _ (List.filter_eq_self.mpr fun r hr => ?_)
        simpa using (mem_inclusionRows hr).2.2.2.2
      · rw [if_neg hinclusion, inclusionRows_eq_nil (by simpa [hname] using hinclusion),
          List.append_nil]

theorem parentRows_congr {v : State} (h : v.headerIds = u.headerIds) (arrival : Arrival) :
    parentRows setting arrival v = parentRows setting arrival u := by
  simp only [parentRows, parentId_congr h]

theorem structural_visitNode (hdeclared : s.tree.Declared setting.registry)
    (hroot : ∀ name, s.tree.name? s.tree.root = some name → name = MacroName.toplevel) :
    let u := (visitNode setting visit s).2
    structural u.references = structural s.references ++ parentRows setting ⟨visit, s⟩ u := by
  intro u
  cases hcall : s.tree.call? visit.node with
  | none =>
    have hname : s.tree.name? visit.node = none := by rw [Tree.name?, hcall, Option.map_none]
    have hlevel : headingLevel? setting ⟨visit, s⟩ = none := by
      simp [headingLevel?, Tree.isHeading, hname]
    have hsame : u.references = s.references := by simp only [u, visitNode, hcall]
    rw [hsame, parentRows, hlevel, inclusionRows_eq_nil (by simp [hname]), List.append_nil]
  | some call =>
    obtain ⟨d, hd, -⟩ := hdeclared visit.node call hcall
    have hrest : u = { (if visit.node = s.tree.root then ((none : Option String), s)
      else visitCall setting s visit call).2 with tree := u.tree } := visitNode_rest hcall
    by_cases htop : visit.node = s.tree.root
    · have hlevel : headingLevel? setting ⟨visit, s⟩ = none := by simp [headingLevel?, htop]
      have hname : s.tree.name? visit.node ≠ some MacroName.inclusion := fun hname =>
        absurd (hroot _ (htop ▸ hname)) (by decide)
      rw [if_pos htop] at hrest
      rw [parentRows, hlevel, inclusionRows_eq_nil hname, List.append_nil, hrest]
    · rw [if_neg htop] at hrest
      have hrows : structural (visitCall setting s visit call).2.references = _ :=
        structural_visitCall hcall hd htop
      rw [hrest, hrows]
      exact congrArg _ (parentRows_congr rfl _)

-- ----------------------------------------------------------------------------
-- All visits
-- ----------------------------------------------------------------------------

def Raises (setting : Setting) (s : State) (header : HeaderId) (r : Reference) : Prop :=
  ∃ x parent, s.headers.node? header = some x ∧ s.headers.parent? header = some parent ∧
    s.tree.id? x = some r.target ∧
    r = headerRow setting (s.tree.position x) (parentId setting s parent) r.target

/-- What is known of the headers that have been visited. -/
structure Raised (setting : Setting) (made : List Arrival) (s : State) : Prop where
  headers : ∀ header x, header ≠ HeaderTree.root → s.headers.node? header = some x →
    x ∈ made.map (·.node) ∧ s.headerIds.get? header = s.tree.id? x
  fresh : ∀ header, s.headers.nodes.size ≤ header → s.headerIds.get? header = none
  rows : ∀ r, r ∈ structural s.references ↔
    (∃ arrival ∈ made, r ∈ inclusionRows setting arrival) ∨ ∃ header, Raises setting s header r

theorem Visited.stacked (h : Visited setting (registerDocument setting (.initial t)) made s)
    (ht : t.Rooted) : s.headers.Stacked := by
  rw [h.headers_eq ht]
  exact (HeaderTree.stacked_new _).enterAll (headings_pos _ _)

theorem Raises.congr (hnode : u.headers.node? header = s.headers.node? header)
    (hparent : u.headers.parent? header = s.headers.parent? header)
    (hseen : ∀ x, s.headers.node? header = some x → s.headers.parent? header ≠ none →
      u.tree.id? x = s.tree.id? x ∧ u.tree.position x = s.tree.position x)
    (habove : ∀ parent, s.headers.parent? header = some parent →
      parentId setting u parent = parentId setting s parent) :
    Raises setting u header r ↔ Raises setting s header r := by
  unfold Raises
  rw [hnode, hparent]
  refine exists_congr fun x => exists_congr fun parent => and_congr_right fun hx =>
    and_congr_right fun hp => ?_
  obtain ⟨hid, hposition⟩ := hseen x hx (by simp [hp])
  rw [hid, hposition, habove parent hp]

theorem registerDocument_raised (setting : Setting) (hrooted : t.Rooted) :
    Raised setting [] (registerDocument setting (.initial t)) := by
  obtain ⟨hheaders, -⟩ := registerDocument_headers setting hrooted
  have hids : (registerDocument setting (.initial t)).headerIds = [] := by
    unfold registerDocument
    split
    · rfl
    · simp only
      split <;> rfl
  have hnone : ∀ header ≠ HeaderTree.root, (HeaderTree.new (some t.root)).get? header = none :=
    fun header hne => Array.getElem?_eq_none (Nat.pos_of_ne_zero hne)
  refine ⟨fun header x hne hnode => ?_, fun header _ => by simp [hids], fun r => ?_⟩
  · rw [hheaders, HeaderTree.node?, hnone header hne] at hnode
    cases hnode
  · have hstart : (State.initial t).references = [] := rfl
    rw [(registerDocument_frame _ _).1, hstart]
    simp only [structural, List.filter_nil, List.not_mem_nil, false_and, exists_false, false_or,
      false_iff]
    rintro ⟨header, x, parent, -, hparent, -⟩
    have hne : header ≠ HeaderTree.root := by
      rintro rfl
      rw [hheaders] at hparent
      cases hparent
    rw [hheaders, HeaderTree.parent?, hnone header hne] at hparent
    cases hparent

section
variable {earlier : List Arrival} (h : Raised setting earlier s) (hs : s.headers.Stacked)
variable (hseen : ∀ x ∈ earlier.map (·.node),
  u.tree.id? x = s.tree.id? x ∧ u.tree.position x = s.tree.position x)
include h hs hseen

theorem Raised.aside (hheaders : u.headers = s.headers) (hids : u.headerIds = s.headerIds)
    (hrows : structural u.references = structural s.references ++ inclusionRows setting arrival) :
    Raised setting (arrival :: earlier) u := by
  refine ⟨fun header x hne hnode => ?_, fun header hheader => ?_, fun r => ?_⟩
  · rw [hheaders] at hnode
    obtain ⟨hmade, hid⟩ := h.headers header x hne hnode
    exact ⟨List.mem_cons_of_mem _ hmade, by rw [hids, hid, (hseen x hmade).1]⟩
  · rw [hids]
    exact h.fresh header (hheaders ▸ hheader)
  · have hraises : ∀ header, Raises setting u header r ↔ Raises setting s header r := by
      refine fun header => Raises.congr (by rw [hheaders]) (by rw [hheaders])
        (fun x hx hparent => ?_) fun parent _ => parentId_congr hids parent
      refine hseen x (h.headers header x ?_ hx).1
      rintro rfl
      exact hparent hs.root.1
    simp only [hrows, List.mem_append, h.rows, hraises, List.exists_mem_cons_iff]
    exact or_right_comm.trans (or_congr_left or_comm)

end

-- ----------------------------------------------------------------------------
-- A header that is opened
-- ----------------------------------------------------------------------------

section
variable {earlier : List Arrival} {arrival : Arrival} {level : Level} {given : Option String}
variable (hs : s.headers.Stacked) (hlevel : 0 < level)
  (hopened : Opened setting arrival.node level given s u)
include hs hlevel hopened

theorem Opened.node?_eq (header : HeaderId) : u.headers.node? header =
    if header = s.headers.nodes.size then some arrival.node else s.headers.node? header := by
  obtain ⟨parent, outer, hclose, -, hinside, -⟩ := hs.close hlevel
  rw [hopened.headers, HeaderTree.node?_enter hclose hinside]

theorem Opened.parent?_eq (header : HeaderId) : u.headers.parent? header =
    if header = s.headers.nodes.size then some (s.headers.enter arrival.node level).1.parent
    else s.headers.parent? header := by
  obtain ⟨parent, outer, hclose, -, hinside, -⟩ := hs.close hlevel
  rw [hopened.headers, HeaderTree.parent?_enter hclose hinside]
  simp [HeaderTree.enter, hclose]

/-- The row of the new header. -/
theorem Opened.raises_iff (hid : u.tree.id? arrival.node = given)
    (hposition : u.tree.position arrival.node = s.tree.position arrival.node) :
    Raises setting u s.headers.nodes.size r ↔
      r ∈ given.toList.map (headerRow setting (s.tree.position arrival.node)
        (parentId setting u (s.headers.enter arrival.node level).1.parent)) := by
  rw [Raises, hopened.node?_eq hs hlevel, hopened.parent?_eq hs hlevel, if_pos rfl, if_pos rfl,
    List.mem_map]
  constructor
  · rintro ⟨x, above, hx, habove, htarget, hr⟩
    obtain rfl := Option.some.inj hx
    obtain rfl := Option.some.inj habove
    rw [hid] at htarget
    exact ⟨r.target, by simp [htarget], by rw [← hposition]; exact hr.symm⟩
  · rintro ⟨id, hmem, rfl⟩
    rw [Option.mem_toList] at hmem
    exact ⟨_, _, rfl, rfl, hid.trans hmem, by rw [hposition]; rfl⟩

variable (h : Raised setting earlier s)
  (hseen : ∀ x ∈ earlier.map (·.node),
    u.tree.id? x = s.tree.id? x ∧ u.tree.position x = s.tree.position x)
include h hseen

theorem Raised.raises_of_ne {header : HeaderId} (hne : header ≠ s.headers.nodes.size) :
    Raises setting u header r ↔ Raises setting s header r := by
  refine Raises.congr (by rw [hopened.node?_eq hs hlevel, if_neg hne])
    (by rw [hopened.parent?_eq hs hlevel, if_neg hne]) (fun x hx hparent => ?_) fun above habove => ?_
  · refine hseen x (h.headers header x ?_ hx).1
    rintro rfl
    exact hparent hs.root.1
  · have hlt := Nat.lt_trans (hs.nearest _ _ habove).1 (HeaderTree.lt_of_parent? habove)
    have hkept : u.headerIds.get? above = s.headerIds.get? above := by
      rw [hopened.headerIds, if_neg fun hnew => Nat.ne_of_lt hlt hnew.1]
    rw [parentId, parentId, hkept]

theorem Raised.exists_raises_iff : (∃ header, Raises setting u header r) ↔
    (∃ header, Raises setting s header r) ∨ Raises setting u s.headers.nodes.size r := by
  constructor
  · rintro ⟨header, hraises⟩
    by_cases heq : header = s.headers.nodes.size
    · exact .inr (heq ▸ hraises)
    · exact .inl ⟨header, (h.raises_of_ne hs hlevel hopened hseen heq).mp hraises⟩
  · rintro (⟨header, hraises⟩ | hraises)
    · have hlt : header < s.headers.nodes.size := by
        obtain ⟨x, above, -, habove, -⟩ := hraises
        exact HeaderTree.lt_of_parent? habove
      exact ⟨header, (h.raises_of_ne hs hlevel hopened hseen (Nat.ne_of_lt hlt)).mpr hraises⟩
    · exact ⟨_, hraises⟩

variable (hid : u.tree.id? arrival.node = given)
include hid

theorem Raised.headers_opened {header : HeaderId} {x : NodeId} (hne : header ≠ HeaderTree.root)
    (hnode : u.headers.node? header = some x) :
    x ∈ (arrival :: earlier).map (·.node) ∧ u.headerIds.get? header = u.tree.id? x := by
  rw [hopened.node?_eq hs hlevel] at hnode
  rw [hopened.headerIds]
  split at hnode
  · next heq =>
    obtain rfl := Option.some.inj hnode
    refine ⟨List.mem_cons_self, ?_⟩
    rw [hid, h.fresh header (Nat.le_of_eq heq.symm)]
    cases given <;> simp [heq]
  · next hother =>
    obtain ⟨hmade, hold⟩ := h.headers header x hne hnode
    refine ⟨List.mem_cons_of_mem _ hmade, ?_⟩
    rw [if_neg fun hnew => hother hnew.1, hold, (hseen x hmade).1]

theorem Raised.opened (hposition : u.tree.position arrival.node = s.tree.position arrival.node)
    (hnone : inclusionRows setting arrival = [])
    (hrows : structural u.references = structural s.references ++
      given.toList.map (headerRow setting (s.tree.position arrival.node)
        (parentId setting u (s.headers.enter arrival.node level).1.parent))) :
    Raised setting (arrival :: earlier) u := by
  refine ⟨fun header x hne hnode => h.headers_opened hs hlevel hopened hseen hid hne hnode,
    fun header hheader => ?_, fun r => ?_⟩
  · rw [hopened.headers, HeaderTree.size_enter] at hheader
    rw [hopened.headerIds, if_neg fun hnew => Nat.not_succ_le_self _ (hnew.1 ▸ hheader)]
    exact h.fresh header (Nat.le_of_succ_le hheader)
  · rw [hrows, List.mem_append, h.rows, ← hopened.raises_iff hs hlevel hid hposition,
      h.exists_raises_iff hs hlevel hopened hseen]
    simp only [List.exists_mem_cons_iff, hnone, List.not_mem_nil, false_or, or_assoc]

end

theorem Visited.raised (h : Visited setting (registerDocument setting (.initial t)) made s)
    (ht : Ready setting t) (hrooted : t.Rooted)
    (hstart : Parented setting [] (registerDocument setting (.initial t))) :
    Raised setting made s := by
  induction h with
  | start => exact registerDocument_raised setting hrooted
  | @visit earlier s rank visit hvisited hshape hnot hnode _ ih =>
    obtain ⟨given, named, hnaming, hopening, hrest, hadorned⟩ :=
      visitNode_naming visit hshape.declared hnode
    obtain ⟨-, later, -, hstepped⟩ := visitNode_shape ht.coherent hshape hnode fun _ => hnot
    have hparented := hvisited.parented ht.coherent hstart
    have hrows : structural (visitNode setting visit s).2.references =
        structural s.references ++ parentRows setting ⟨visit, s⟩ (visitNode setting visit s).2 :=
      structural_visitNode hshape.declared hparented.root
    have hs := hvisited.stacked hrooted
    generalize (visitNode setting visit s).2 = u at hrest hadorned hstepped hrows ⊢
    have hseen : ∀ x ∈ earlier.map (·.node),
        u.tree.id? x = s.tree.id? x ∧ u.tree.position x = s.tree.position x := by
      intro x hx
      have hne : x ≠ visit.node := fun heq => hnot (heq ▸ hx)
      obtain ⟨arrival, harrival, rfl⟩ := List.mem_map.mp hx
      obtain ⟨hkept, hlt⟩ := hvisited.kept ht.coherent harrival
      refine ⟨?_, hstepped.kept.position (Nat.lt_of_lt_of_le hlt hkept.size_le)⟩
      rw [Tree.id?, hadorned.labels, ← Tree.id?, Tree.id?_eq, Tree.id?_eq, hnaming.others hne]
    have hopened := hopening.tree u.tree
    rw [← hrest] at hopened
    cases hopened with
    | aside hother hsame =>
      have hlevel : headingLevel? setting ⟨visit, s⟩ = none := by
        rcases hother with hroot | hheading
        · simp [headingLevel?, hroot]
        · simp [headingLevel?, hheading]
      rw [parentRows, hlevel] at hrows
      exact ih.aside hs hseen hsame.headers hsame.headerIds hrows
    | opened hroot hheading hopened =>
      have hlevel : headingLevel? setting ⟨visit, s⟩ = some (levelOf setting s visit.node).1 := by
        simp [headingLevel?, hroot, hheading]
      have hunnamed :=
        (hvisited.indexed ht.coherent ht.indexed).waiting visit.node hnot hroot
      have hgiven : u.tree.id? visit.node = given := by
        rw [Tree.id?, hadorned.labels, ← Tree.id?, hnaming.id?_eq hunnamed]
      have hheader : s.tree.name? visit.node = some MacroName.header := by
        simp only [Tree.isHeading, Bool.and_eq_true, beq_iff_eq] at hheading
        exact hheading.1
      rw [parentRows, hlevel, ← hnaming.eq_granted visit] at hrows
      exact ih.opened hs (levelOf_pos _ _ _) hopened hseen hgiven
        (hstepped.kept.position hnode)
        (inclusionRows_eq_nil (by rw [hheader]; decide)) hrows

-- ----------------------------------------------------------------------------
-- Finished headers
-- ----------------------------------------------------------------------------

theorem Chained.exists_arrival (h : Chained setting t made s) (hne : header ≠ HeaderTree.root)
    (hlt : header < s.headers.nodes.size) :
    ∃ arrival ∈ made, s.headers.node? header = some arrival.node ∧
      ∃ level, headingLevel? setting arrival = some level := by
  obtain ⟨i, rfl⟩ := Nat.exists_eq_succ_of_ne_zero hne
  rw [← HeaderTree.length_outline, h.outline, List.length_cons, Nat.succ_lt_succ_iff] at hlt
  have hentry := List.getElem?_eq_getElem hlt
  obtain ⟨arrival, harrival, heq⟩ := List.mem_filterMap.mp (List.mem_of_getElem? hentry)
  obtain ⟨level, hlevel, heq⟩ := Option.map_eq_some_iff.mp heq
  refine ⟨arrival, List.mem_reverse.mp harrival, ?_, level, hlevel⟩
  rw [HeaderTree.node?_eq, h.outline, Nat.succ_eq_add_one, List.getElem?_cons_succ, hentry, ← heq]
  rfl

theorem Chained.exists_header (h : Chained setting t made s) (harrival : arrival ∈ made)
    (hlevel : headingLevel? setting arrival = some level) :
    ∃ header, header ≠ HeaderTree.root ∧ s.headers.node? header = some arrival.node := by
  have hmem : (some arrival.node, level) ∈ made.reverse.filterMap fun arrival =>
      (headingLevel? setting arrival).map fun level => (some arrival.node, level) :=
    List.mem_filterMap.mpr ⟨arrival, List.mem_reverse.mpr harrival, by rw [hlevel, Option.map_some]⟩
  obtain ⟨i, hi⟩ := List.mem_iff_getElem?.mp hmem
  have hentry : s.headers.outline[i + 1]? = some (some arrival.node, level) := by
    rw [h.outline, List.getElem?_cons_succ, hi]
  exact ⟨i + 1, Nat.succ_ne_zero i, by rw [HeaderTree.node?_eq, hentry]; rfl⟩

/-- Nothing has been linked twice, and the document is no header. -/
theorem Chained.node?_injective (h : Chained setting t made s) (hdistinct : (made.map (·.node)).Nodup)
    (hroot : ∀ arrival ∈ made, arrival.before.tree.root = t.root) {x : NodeId} {other : HeaderId}
    (hheader : s.headers.node? header = some x) (hother : s.headers.node? other = some x) :
    header = other := by
  have hnodup : (s.headers.outline.map (·.1)).Nodup := by
    rw [h.outline, List.map_cons, List.nodup_cons]
    constructor
    · intro hmem
      obtain ⟨entry, hentry, heq⟩ := List.mem_map.mp hmem
      obtain ⟨arrival, harrival, hheading⟩ := List.mem_filterMap.mp hentry
      obtain ⟨level, hlevel, rfl⟩ := Option.map_eq_some_iff.mp hheading
      have hsame : arrival.node = arrival.before.tree.root :=
        (Option.some.inj heq).trans (hroot arrival (List.mem_reverse.mp harrival)).symm
      simp [headingLevel?, hsame] at hlevel
    · have hnodes : made.reverse.Pairwise fun a b => a.node ≠ b.node := by
        rw [List.pairwise_reverse]
        exact (List.pairwise_map.mp hdistinct).imp Ne.symm
      refine List.pairwise_map.mpr (List.pairwise_filterMap.mpr (hnodes.imp ?_))
      intro a b hne entry hentry entry' hentry' heq
      obtain ⟨level, -, rfl⟩ := Option.map_eq_some_iff.mp hentry
      obtain ⟨level', -, rfl⟩ := Option.map_eq_some_iff.mp hentry'
      exact hne (Option.some.inj heq)
  have hat : ∀ {id}, s.headers.node? id = some x →
      (s.headers.outline.map (·.1))[id]? = some (some x) := by
    intro id hid
    rw [HeaderTree.node?_eq] at hid
    obtain ⟨entry, hentry, hx⟩ := Option.bind_eq_some_iff.mp hid
    rw [List.getElem?_map, hentry, Option.map_some, hx]
  have hlt := (List.getElem?_eq_some_iff.mp (hat hheader)).1
  exact (List.getElem?_inj hlt hnodup).mp ((hat hheader).trans (hat hother).symm)

section
variable (h : Visited setting (registerDocument setting (.initial t)) made s) (ht : Ready setting t)
include h ht

/-- What has an identifier was written by the author. -/
theorem Visited.named_of_id? {id : String} (harrival : arrival ∈ made)
    (hroot : arrival.node ≠ s.tree.root) (hid : s.tree.id? arrival.node = some id) :
    arrival.node < t.size ∧ id ≠ "" := by
  rw [h.granted ht.coherent ht.indexed harrival hroot] at hid
  have hasked := requestedId_of_granted hid
  obtain ⟨later, earlier, rfl⟩ := List.append_of_mem harrival
  obtain ⟨_, _, _, _, rfl, hname⟩ := requestedId_eq hasked
  exact ⟨h.before.1.lt_of_requestedId ht.coherent hasked, underScope_ne_empty hname _⟩

theorem Visited.header_of_node? {x : NodeId} (hne : header ≠ HeaderTree.root)
    (hnode : s.headers.node? header = some x) :
    x ∈ made.map (·.node) ∧ x ≠ s.tree.root ∧ s.tree.name? x = some MacroName.header := by
  obtain ⟨arrival, harrival, hlinked, level, hlevel⟩ :=
    (h.chained ht).exists_arrival hne (HeaderTree.lt_of_node? hnode)
  obtain rfl := Option.some.inj (hlinked.symm.trans hnode)
  obtain ⟨hkept, hsize⟩ := h.kept ht.coherent harrival
  unfold headingLevel? at hlevel
  split at hlevel
  · cases hlevel
  · next hroot =>
    split at hlevel
    · next hheading =>
      simp only [Tree.isHeading, Bool.and_eq_true, beq_iff_eq] at hheading
      exact ⟨List.mem_map_of_mem harrival, hkept.root_eq ▸ hroot,
        (hkept.name? hsize).trans hheading.1⟩
    · cases hlevel

theorem Visited.exists_header_of_id? {x : NodeId} {id : String} (hx : x ∈ made.map (·.node))
    (hname : s.tree.name? x = some MacroName.header) (hroot : x ≠ s.tree.root)
    (hsynonym : t.isSynonym setting.registry x = false) (hid : s.tree.id? x = some id) :
    ∃ header, header ≠ HeaderTree.root ∧ s.headers.node? header = some x := by
  obtain ⟨arrival, harrival, rfl⟩ := List.mem_map.mp hx
  obtain ⟨hkept, hsize⟩ := h.kept ht.coherent harrival
  obtain ⟨hlt, -⟩ := h.named_of_id? ht harrival hroot hid
  rw [hkept.name? hsize] at hname
  have hbefore : arrival.before.tree.isSynonym setting.registry arrival.node = false := by
    obtain ⟨later, earlier, rfl⟩ := List.append_of_mem harrival
    obtain ⟨hvisited, hacyclic, hnot⟩ := h.before
    rwa [hvisited.isSynonym ht.coherent ht.acyclic hacyclic hlt hnot]
  have hheading : arrival.before.tree.isHeading setting.registry arrival.node = true := by
    simpa [Tree.isHeading, Tree.isSynonym, hname] using hbefore
  have hlevel : headingLevel? setting arrival =
      some (levelOf setting arrival.before arrival.node).1 := by
    rw [headingLevel?, if_neg (hkept.root_eq ▸ hroot), if_pos hheading]
  exact (h.chained ht).exists_header harrival hlevel

theorem Visited.node?_injective {x : NodeId} {other : HeaderId}
    (hheader : s.headers.node? header = some x) (hother : s.headers.node? other = some x) :
    header = other := by
  refine (h.chained ht).node?_injective h.distinct (fun arrival harrival => ?_) hheader hother
  have hkept := (registerDocument_labeled setting t).kept
  rw [← (h.kept ht.coherent harrival).1.root_eq, h.root_eq ht.coherent, hkept.root_eq]

/-- What stands above a header is told by the finished document. -/
theorem Visited.parentId_eq (hrooted : t.Rooted)
    (hstart : Parented setting [] (registerDocument setting (.initial t)))
    (hname : setting.document ≠ "") (htop : s.tree.id? s.tree.root = some setting.document)
    (hparent : parent < s.headers.nodes.size) :
    parentId setting s parent = ((s.headers.node? parent).bind s.tree.id?).getD "" := by
  have hchained := h.chained ht
  unfold parentId
  by_cases hroot : parent = HeaderTree.root
  · have hnode : s.headers.node? parent = some t.root := by
      rw [HeaderTree.node?_eq, hchained.outline, hroot]
      rfl
    have hkept := (registerDocument_labeled setting t).kept
    rw [h.root_eq ht.coherent, hkept.root_eq] at htop
    rw [if_pos hroot, hnode, Option.bind_some, htop, toplevelId, if_neg hname]
  · rw [if_neg hroot]
    obtain ⟨arrival, -, hnode, -⟩ := hchained.exists_arrival hroot hparent
    rw [hnode, Option.bind_some, ((h.raised ht hrooted hstart).headers _ _ hroot hnode).2]

end

end Assembly

open Assembly (Indexed Raises headerRow parse_parented structural)

def Analysis.headerId? (a : Analysis) (header : HeaderId) : Option String :=
  (a.headers.node? header).bind a.tree.id?

/-- What a document tells of its headers, if `t` was written. -/
structure Analysis.Headed (registry : Registry) (t : Tree) (a : Analysis) : Prop where
  stacked : a.headers.Stacked
  root : a.headers.node? HeaderTree.root = some a.tree.root
  document : a.tree.id? a.tree.root = some a.document
  linked : ∀ x id, a.tree.Reaches a.tree.root x → a.tree.name? x = some MacroName.header →
    t.isSynonym registry x = false → a.tree.id? x = some id →
      ∃ header, header ≠ HeaderTree.root ∧ a.headers.node? header = some x
  /-- A header with an identifier was written by the author and is entered. -/
  entered : ∀ header id, header ≠ HeaderTree.root → a.headerId? header = some id →
    id ≠ "" ∧ ∃ x < t.size, x ≠ a.tree.root ∧ a.tree.name? x = some MacroName.header ∧
      a.headers.node? header = some x ∧ a.tree.id? x = some id ∧
        ∃ record, a.index.entries.get? id = some (x, record)
  once : ∀ header other id, a.headerId? header = some id → a.headerId? other = some id →
    header = other

section
variable {registry : Registry} {t : Tree} {a : Analysis} (h : a.Headed registry t)
include h

theorem Analysis.Headed.headerId?_root : a.headerId? HeaderTree.root = some a.document := by
  rw [headerId?, h.root, Option.bind_some, h.document]

theorem Analysis.Headed.ne_empty {header : HeaderId} {id : String} (hname : a.document ≠ "")
    (hid : a.headerId? header = some id) : id ≠ "" := by
  by_cases hroot : header = HeaderTree.root
  · rw [hroot, h.headerId?_root] at hid
    exact Option.some.inj hid ▸ hname
  · exact (h.entered header id hroot hid).1

section
variable {header : HeaderId} {above : List HeaderId} (habove : a.headers.Above header above)
include habove

/-- No two headers above each other have the same identifier. -/
theorem Analysis.Headed.nodup_names {id : String} {names : List String} {rest : List (Option String)}
    (hid : a.headerId? header = some id) (hsplit : above.map a.headerId? = names.map some ++ rest) :
    (id :: names).Nodup := by
  have hheaders : (header :: above).Nodup := by
    refine (habove.pairwise h.stacked).imp ?_
    rintro lower _ hlt rfl
    exact UInt64.lt_irrefl _ hlt
  have hids : ((header :: above).filterMap a.headerId?).Nodup :=
    hheaders.filterMap fun one other id hone hother => h.once _ _ _ hone hother
  have hall : (header :: above).filterMap a.headerId? =
      id :: names ++ rest.filterMap fun name? => name? := by
    have hmap := congrArg (List.filterMap fun name? => name?) hsplit
    rw [List.filterMap_map] at hmap
    simpa [hid, Function.comp_def] using hmap
  rw [hall] at hids
  exact (List.nodup_append.mp hids).1

/-- The uppermost of them is that of the document. -/
theorem Analysis.Headed.getLast?_names (hne : header ≠ HeaderTree.root) :
    (above.map a.headerId?).getLast? = some (some a.document) := by
  have hlast := habove.getLast?
  cases habove with
  | document => exact absurd rfl hne
  | under =>
    rw [List.getLast?_cons_cons] at hlast
    rw [List.getLast?_map, hlast, Option.map_some, h.headerId?_root]

end
end

section
variable {registry : Registry} (hr : registry.Coherent) (hcheck : registry.check = .ok ())
variable (document source : String)
include hr hcheck

theorem analyze_indexed :
    let a := analyze registry document source
    Indexed ⟨registry, document⟩ (a.tree.preorder a.tree.root) a.index a.tree := by
  intro a
  have hready := parse_ready hcheck hr document source
  obtain ⟨rank, final, hvisited, -, -, htree, hindex, -, -, -, -, horder⟩ :=
    analyze_visits hr document source
  rw [← horder, hindex, htree]
  refine ((hvisited.indexed hr hready.indexed).mono fun x hx => ?_).nameDocument
  rwa [List.map_reverse, List.mem_reverse] at hx

omit hcheck in
/-- An inclusion notes nothing at the place of a header, unless what it includes has no name. -/
theorem analyze_inclusionRows_at {x : NodeId} {id : String} {arrival : Assembly.Arrival}
    {r : Reference} :
    let a := analyze registry document source
    let t := (parse registry (tokenize source).tokens).tree
    x < t.size → a.tree.name? x = some MacroName.header →
    arrival ∈ Assembly.visits ⟨registry, document⟩ t →
    r ∈ Assembly.inclusionRows ⟨registry, document⟩ arrival →
    r.site.position = a.tree.position x ∨ r.target = id →
      ∃ y, a.tree.IsInclusion y ∧
        (t.inclusionTarget registry y = "" ∨ t.inclusionTarget registry y = id) := by
  intro a t hlt hheader harrival hrow hmeets
  obtain ⟨-, hinclusion, hhref, htarget⟩ := analyze_inclusionRows hr document source harrival hrow
  refine ⟨_, hinclusion, ?_⟩
  rcases hmeets with hposition | hsame
  · by_contra hneither
    obtain ⟨hwritten, -⟩ := not_or.mp hneither
    obtain rfl := analyze_footprint_unique hr document source
      (Tree.href?_of_inclusionTarget hwritten).1 hlt (hinclusion.mem_footprint hhref)
      (hposition ▸ Tree.position_mem_footprint hheader)
    exact absurd (hinclusion.name.symm.trans hheader) (by decide)
  · exact .inr (htarget.symm.trans hsame)

variable (hname : document ≠ "")
include hname

theorem analyze_headed :
    (analyze registry document source).Headed registry
      (parse registry (tokenize source).tokens).tree := by
  obtain ⟨-, hrooted, -, -⟩ := parse_tree registry (tokenize source).tokens
  have hready := parse_ready hcheck hr document source
  have hindexed := analyze_indexed hr hcheck document source
  obtain ⟨record, hentry⟩ := analyze_document hr document source hcheck hname
  have htop := congrArg Prod.fst (hindexed.carried _ _ _ hentry).1
  obtain ⟨rank, final, hvisited, hshape, hkept, htree, -, hheaders, -, -, -, horder⟩ :=
    analyze_visits hr document source
  have hown := (analyze_sound registry document source).name
  generalize analyze registry document source = a at *
  have hmade : ∀ x, x ∈ (Assembly.visits ⟨registry, document⟩
      (parse registry (tokenize source).tokens).tree).reverse.map (·.node) ↔
        a.tree.Reaches a.tree.root x := by
    intro x
    rw [List.map_reverse, List.mem_reverse, horder, htree, hshape.mem_preorder_iff .refl]
  refine ⟨?_, ?_, hown ▸ htop, fun x id hreaches hheader hsynonym hid => ?_,
    fun header id hne hid => ?_, fun header other id hid hid' => ?_⟩
  · rw [hheaders]
    exact hvisited.stacked hrooted
  · rw [hheaders, HeaderTree.node?_eq, (hvisited.chained hready).outline, htree, hkept.root_eq]
    rfl
  · have hroot : x ≠ a.tree.root := by
      rintro rfl
      rw [htree, hkept.root_eq, hkept.name? hrooted.root_lt] at hheader
      exact absurd (name_of_root hheader) (by decide)
    rw [hheaders]
    exact hvisited.exists_header_of_id? hready ((hmade x).mpr hreaches) (htree ▸ hheader)
      (htree ▸ hroot) hsynonym (htree ▸ hid)
  · obtain ⟨x, hnode, hid⟩ := Option.bind_eq_some_iff.mp hid
    obtain ⟨hmem, hroot, hheader⟩ := hvisited.header_of_node? hready hne (hheaders ▸ hnode)
    obtain ⟨arrival, harrival, rfl⟩ := List.mem_map.mp hmem
    obtain ⟨hlt, hnonempty⟩ := hvisited.named_of_id? hready harrival hroot (htree ▸ hid)
    exact ⟨hnonempty, _, hlt, htree ▸ hroot, htree ▸ hheader, hnode, hid, hindexed.entered _ _ hid⟩
  · obtain ⟨x, hx, hid⟩ := Option.bind_eq_some_iff.mp hid
    obtain ⟨y, hy, hid'⟩ := Option.bind_eq_some_iff.mp hid'
    obtain ⟨record, hentry⟩ := hindexed.entered x id hid
    obtain ⟨record', hentry'⟩ := hindexed.entered y id hid'
    obtain rfl : x = y := (Prod.mk.inj (Option.some.inj (hentry.symm.trans hentry'))).1
    rw [hheaders] at hx hy
    exact hvisited.node?_injective hready hx hy

/-- Two headers with identifiers differ in these and in their places. -/
theorem analyze_headers_apart {header other : HeaderId} {x y : NodeId} {id id' : String} :
    let a := analyze registry document source
    header ≠ HeaderTree.root → other ≠ HeaderTree.root →
    a.headers.node? header = some x → a.tree.id? x = some id →
    a.headers.node? other = some y → a.tree.id? y = some id' →
    a.tree.position y = a.tree.position x ∨ id' = id → other = header := by
  intro a hne hne' hnode hid hnode' hid' hmeets
  have hheaded := analyze_headed hr hcheck document source hname
  have hgiven : a.headerId? header = some id := by
    rw [Analysis.headerId?, hnode, Option.bind_some, hid]
  have hgiven' : a.headerId? other = some id' := by
    rw [Analysis.headerId?, hnode', Option.bind_some, hid']
  rcases hmeets with hposition | rfl
  · obtain ⟨-, _, hlt, -, hheader, hlinked, -⟩ := hheaded.entered header id hne hgiven
    obtain rfl := Option.some.inj (hlinked.symm.trans hnode)
    obtain ⟨-, _, hlt', -, hheader', hlinked', -⟩ := hheaded.entered other id' hne' hgiven'
    obtain rfl := Option.some.inj (hlinked'.symm.trans hnode')
    obtain rfl := analyze_footprint_unique hr document source hlt' hlt
      (Tree.position_mem_footprint hheader') (hposition ▸ Tree.position_mem_footprint hheader)
    exact hheaded.once _ _ _ hgiven' (hgiven.trans (hid.symm.trans hid'))
  · exact hheaded.once _ _ _ hgiven' hgiven

/-- A header has a reference from what stands above it, and stands alone with it, but for inclusions
of nothing or of the header. -/
theorem analyze_raised {header parent : HeaderId} {id : String} :
    let a := analyze registry document source
    let t := (parse registry (tokenize source).tokens).tree
    a.headers.parent? header = some parent → a.headerId? header = some id →
      ∃ r ∈ a.contribution.references, r.kind = .structuralParent ∧ r.target = id ∧
        r.source = (a.headerId? parent).getD "" ∧
        ∀ other ∈ a.contribution.references, other.kind = .structuralParent →
          other.groupKey = r.groupKey ∨ other.target = id →
            other = r ∨ ∃ x, a.tree.IsInclusion x ∧
              (t.inclusionTarget registry x = "" ∨ t.inclusionTarget registry x = id) := by
  intro a t hparent hid
  obtain ⟨-, hrooted, -, -⟩ := parse_tree registry (tokenize source).tokens
  have hready := parse_ready hcheck hr document source
  have hstart := parse_parented registry document source
  have hheaded := analyze_headed hr hcheck document source hname
  obtain ⟨rank, final, hvisited, hshape, hkept, htree, -, hheaders, hreferences, -, -, horder⟩ :=
    analyze_visits hr document source
  have hraised := hvisited.raised hready hrooted hstart
  have hne := hheaded.stacked.ne_root hparent
  obtain ⟨-, x, hlt, -, hheader, hnode, hgiven, -⟩ := hheaded.entered header id hne hid
  have hraises : Raises ⟨registry, document⟩ final header (headerRow ⟨registry, document⟩
      (final.tree.position x) (Assembly.parentId ⟨registry, document⟩ final parent) id) :=
    ⟨x, parent, hheaders ▸ hnode, hheaders ▸ hparent, htree ▸ hgiven, rfl⟩
  have hrow := (hraised.rows _).mpr (.inr ⟨header, hraises⟩)
  refine ⟨_, hreferences ▸ (List.mem_filter.mp hrow).1, rfl, rfl, ?_,
    fun other hother hkind hmeets => ?_⟩
  · have hlt := Nat.lt_trans (hheaded.stacked.nearest _ _ hparent).1
      (HeaderTree.lt_of_parent? hparent)
    have htop := hheaded.document.trans
      (congrArg some (analyze_sound registry document source).name)
    have heq := hvisited.parentId_eq hready hrooted hstart hname (htree ▸ htop) (hheaders ▸ hlt)
    rwa [← hheaders, ← htree] at heq
  · have hrow := (hraised.rows other).mp
      (List.mem_filter.mpr ⟨hreferences ▸ hother, by simpa using hkind⟩)
    have hplace : other.groupKey = (headerRow ⟨registry, document⟩ (final.tree.position x)
        (Assembly.parentId ⟨registry, document⟩ final parent) id).groupKey →
        other.site.position = a.tree.position x := fun hkey => htree ▸ congrArg (·.position) hkey
    rcases hrow with ⟨arrival, harrival, hrow⟩ |
      ⟨header', x', parent', hnode', hparent', hgiven', hother⟩
    · exact .inr (analyze_inclusionRows_at hr document source hlt hheader
        (List.mem_reverse.mp harrival) hrow (hmeets.imp_left hplace))
    · rw [← hheaders] at hnode' hparent'
      rw [← htree] at hgiven'
      have hposition : other.site.position = a.tree.position x' := by
        rw [hother, htree]
        rfl
      have hsame : header' = header :=
        analyze_headers_apart hr hcheck document source hname hne (hheaded.stacked.ne_root hparent')
          hnode hgiven hnode' hgiven' (hmeets.imp_left fun hkey => hposition ▸ hplace hkey)
      obtain rfl := hsame
      obtain rfl := Option.some.inj (hnode'.symm.trans hnode)
      obtain rfl := Option.some.inj (hparent'.symm.trans hparent)
      obtain htarget := Option.some.inj (hgiven'.symm.trans hgiven)
      exact .inl (htarget ▸ hother)

end

end Macromark
