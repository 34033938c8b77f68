import Macromark.Proofs.Assembly.Omitted
import Macromark.Proofs.Assembly.Titles

/-!
# What stands in a document

A document stands above its headers and above the documents that it includes, and
the visits note a reference to each of them. The one of an inclusion leads to what
was written in it (`inclusionRows`), the one of a header to what has been entered
for the header (`Heads`), and there are no others (`Visited.parented`). What the
author wrote has its positions for itself, so that none of them gives way to a
different one (`analyze_parents`).
-/

namespace Macromark

namespace Tree

/-- What an inclusion includes. -/
def inclusionTarget (registry : Registry) (t : Tree) (x : NodeId) : String :=
  Text.trim (t.argumentText registry x "href")

structure IsInclusion (t : Tree) (x : NodeId) : Prop where
  reaches : t.Reaches t.root x
  name : t.name? x = some MacroName.inclusion

theorem href?_of_inclusionTarget {registry : Registry} {t : Tree} {x : NodeId}
    (h : t.inclusionTarget registry x ≠ "") : x < t.size ∧ ∃ position, t.href? x = some position := by
  unfold inclusionTarget argumentText at h
  have hempty : Text.trim "" = "" := by decide
  cases hcall : t.call? x with
  | none => simp [hcall, hempty] at h
  | some call =>
    refine ⟨lt_of_call? hcall, ?_⟩
    cases hargument : call.argument? "href" with
    | none => simp [hcall, MacroCall.children, hargument, hempty] at h
    | some argument => exact ⟨argument.position, by simp [href?, hcall, hargument]⟩

theorem IsInclusion.mem_footprint {t : Tree} {x : NodeId} {position : Position}
    (h : t.IsInclusion x) (hhref : t.href? x = some position) : position ∈ t.footprint x :=
  mem_footprint_of_href? h.name (by decide) hhref

end Tree

namespace Assembly

variable {setting : Setting} {s u start : State} {t : Tree} {visit : Visit} {node : NodeId}
variable {call : MacroCall} {definition : MacroDef} {level : Level} {r : Reference}
variable {made earlier later : List Arrival} {arrival : Arrival} {position : Position}

/-- The reference that the visit of an inclusion notes. -/
def inclusionRows (setting : Setting) (arrival : Arrival) : List Reference :=
  let s := arrival.before
  match s.tree.href? arrival.node with
  | some position =>
    if s.tree.name? arrival.node = some MacroName.inclusion then
      [{ source := source setting s
         target := s.tree.inclusionTarget setting.registry arrival.node
         kind := .structuralParent, site := site setting position }]
    else []
  | none => []

theorem mem_inclusionRows (hr : r ∈ inclusionRows setting arrival) :
    arrival.before.tree.name? arrival.node = some MacroName.inclusion ∧
      arrival.before.tree.href? arrival.node = some r.site.position ∧
      r.target = arrival.before.tree.inclusionTarget setting.registry arrival.node ∧
      r.site.document = setting.document ∧ r.kind = .structuralParent := by
  unfold inclusionRows at hr
  simp only at hr
  split at hr
  · next position hposition =>
    split at hr
    · next hname =>
      obtain rfl := List.mem_singleton.mp hr
      exact ⟨hname, hposition, rfl, rfl, rfl⟩
    · simp at hr
  · simp at hr

theorem exists_mem_inclusionRows (setting : Setting)
    (hname : arrival.before.tree.name? arrival.node = some MacroName.inclusion)
    (hhref : arrival.before.tree.href? arrival.node = some position) :
    ∃ r ∈ inclusionRows setting arrival,
      r.groupKey = ⟨setting.document, position, .structuralParent⟩ := by
  unfold inclusionRows
  simp only [hhref, hname, if_true]
  exact ⟨_, List.mem_cons_self, rfl⟩

/-- A reference that the header `x` has noted for itself. -/
structure Heads (t : Tree) (index : Index) (x : NodeId) (r : Reference) : Prop where
  header : t.name? x = some MacroName.header
  position : r.site.position ∈ t.footprint x
  entry : ∃ record, index.entries.get? r.target = some (x, record)

-- ----------------------------------------------------------------------------
-- Headers
-- ----------------------------------------------------------------------------

theorem Naming.get?_given {asked : Option String} {id : String}
    (h : Naming setting node s asked (some id) u) :
    ∃ record, u.index.entries.get? id = some (node, record) := by
  cases h with
  | @entered _ _ _ record _ _ _ _ hentries => exact ⟨record, by rw [hentries, if_pos rfl]⟩

theorem visitSynonym_parents (hkind : r.kind = .structuralParent)
    (hr : r ∈ (visitSynonym setting s node call definition level).2.references) :
    r ∈ s.references := by
  have hframe := assignId_frame setting s node call definition (outerScope s) false
  unfold visitSynonym at hr
  generalize assignId setting s node call definition (outerScope s) false = assigned at hframe hr
  obtain ⟨id, t⟩ := assigned
  rw [← hframe.1]
  cases id with
  | none => exact hr
  | some id =>
    simp only at hr
    split at hr
    · rcases List.mem_append.mp hr with hr | hr
      · exact hr
      · obtain rfl := List.mem_singleton.mp hr
        cases hkind
    · exact hr

theorem nameHeader_parents {linked : HeaderTree.Entered} :
    let result := nameHeader setting s node call definition linked level
    r ∈ result.2.references →
      r ∈ s.references ∨ r.site.position = s.tree.position node ∧ result.1 = some r.target := by
  have hframe := assignId_frame setting s node call definition (outerScope s) true
  unfold nameHeader
  simp only
  generalize assignId setting s node call definition (outerScope s) true = assigned at hframe ⊢
  obtain ⟨id, t⟩ := assigned
  rw [← hframe.1]
  intro hr
  cases id with
  | none => exact .inl hr
  | some id =>
    refine (List.mem_append.mp hr).imp_right fun hr => ?_
    obtain rfl := List.mem_singleton.mp hr
    exact ⟨rfl, rfl⟩

theorem linkHeader_frame (setting : Setting) (s : State) (node : NodeId) (level : Level) :
    SameNotes s (linkHeader setting s node level).2 := by
  obtain ⟨reports, aborted, heq, -⟩ := linkHeader_eq setting s node level
  rw [heq]
  exact ⟨rfl, rfl⟩

theorem visitHeader_parents (hkind : r.kind = .structuralParent) :
    let result := visitHeader setting s node call definition
    r ∈ result.2.references →
      r ∈ s.references ∨ r.site.position = s.tree.position node ∧ result.1 = some r.target := by
  have hlevel := levelOf_frame setting s node
  have htree := tree_levelOf setting s node
  rw [visitHeader_eq]
  generalize levelOf setting s node = leveled at hlevel htree ⊢
  obtain ⟨level, t⟩ := leveled
  simp only at hlevel htree ⊢
  rw [← hlevel.1]
  split
  · exact fun hr => .inl (visitSynonym_parents hkind hr)
  · intro hr
    have hlinked := (linkHeader_names setting t node level).1.tree
    rw [← (linkHeader_frame setting t node level).1, ← htree, ← hlinked]
    exact nameHeader_parents hr

-- ----------------------------------------------------------------------------
-- One visit
-- ----------------------------------------------------------------------------

section
variable (hcall : s.tree.call? visit.node = some call)
include hcall

theorem visitInclusion_references (hname : call.name = MacroName.inclusion) :
    (visitInclusion setting s visit.node call).references =
      s.references ++ inclusionRows setting ⟨visit, s⟩ := by
  have hname : s.tree.name? visit.node = some MacroName.inclusion := by
    rw [Tree.name?, hcall, Option.map_some, hname]
  have hhref : s.tree.href? visit.node = (call.argument? "href").map (·.position) := by
    rw [Tree.href?, hcall, Option.bind_some]
  unfold inclusionRows visitInclusion
  simp only [hname, hhref, if_true]
  cases call.argument? "href" with
  | none => simp
  | some href => rfl

variable (hdefined : setting.registry.get? call.name = some definition)
include hdefined

theorem mem_visitCall_of_inclusionRows (hr : r ∈ inclusionRows setting ⟨visit, s⟩) :
    r ∈ (visitCall setting s visit call).2.references := by
  obtain ⟨hname, -⟩ := mem_inclusionRows hr
  have hname : call.name = MacroName.inclusion := by
    rw [Tree.name?, hcall, Option.map_some] at hname
    exact Option.some.inj hname
  have hother : call.name ≠ MacroName.header ∧ call.name ≠ MacroName.crossReference := by
    rw [hname]
    decide
  simp only [visitCall, hdefined, if_neg hother.1, if_neg hother.2, if_pos hname]
  rw [(assignId_frame ..).1, visitInclusion_references hcall hname]
  exact List.mem_append_right _ hr

theorem visitCall_parents (hroot : visit.node ≠ s.tree.root) (hkind : r.kind = .structuralParent)
    (hr : r ∈ (visitCall setting s visit call).2.references) :
    r ∈ s.references ∨ r ∈ inclusionRows setting ⟨visit, s⟩ ∨
      Heads s.tree (visitCall setting s visit call).2.index visit.node r := by
  have hname : s.tree.name? visit.node = some call.name := by rw [Tree.name?, hcall, Option.map_some]
  simp only [visitCall, hdefined] at hr ⊢
  split at hr
  · next hheader =>
    rw [if_pos hheader]
    have hname := hheader ▸ hname
    refine (visitHeader_parents hkind hr).imp_right ?_
    rintro ⟨hposition, hgiven⟩
    have hnaming : Naming setting visit.node s _ _ _ :=
      (visitHeader_naming hname ((Registry.name_of_get? hdefined).trans hheader) hroot call).1
    refine .inr ⟨hname, ?_, ?_⟩
    · rw [Tree.footprint_of_call? hcall, hposition]
      exact position_mem_footprint (hheader ▸ by decide) _ _
    · rw [hgiven] at hnaming
      exact hnaming.get?_given
  · rw [(assignId_frame ..).1] at hr
    split at hr
    · next hlink =>
      unfold visitLink at hr
      split at hr
      · exact .inl hr
      · refine (List.mem_append.mp hr).imp_right fun hr => ?_
        obtain ⟨candidate, -, hr⟩ := List.mem_flatMap.mp hr
        rcases kind_candidateReferences hr with hother | hother <;>
          exact absurd (hkind.symm.trans hother) (by decide)
    · split at hr
      · next hinclusion =>
        rw [visitInclusion_references hcall hinclusion] at hr
        exact (List.mem_append.mp hr).imp_right .inl
      · exact .inl hr

end

theorem mem_visitNode_of_inclusionRows (hdeclared : s.tree.Declared setting.registry)
    (hroot : ∀ name, s.tree.name? s.tree.root = some name → name = MacroName.toplevel)
    (hr : r ∈ inclusionRows setting ⟨visit, s⟩) :
    r ∈ (visitNode setting visit s).2.references := by
  obtain ⟨hname, -⟩ := mem_inclusionRows hr
  have hother : visit.node ≠ s.tree.root := fun heq =>
    absurd (hroot _ (heq ▸ hname)) (by decide)
  obtain ⟨call, hcall, -⟩ := Option.map_eq_some_iff.mp hname
  obtain ⟨d, hd, -⟩ := hdeclared visit.node call hcall
  rw [visitNode_rest hcall, if_neg hother]
  exact mem_visitCall_of_inclusionRows hcall hd hr

theorem visitNode_parents (hdeclared : s.tree.Declared setting.registry)
    (hkind : r.kind = .structuralParent) (hr : r ∈ (visitNode setting visit s).2.references) :
    r ∈ s.references ∨ r ∈ inclusionRows setting ⟨visit, s⟩ ∨
      Heads s.tree (visitNode setting visit s).2.index visit.node r := by
  cases hcall : s.tree.call? visit.node with
  | none =>
    simp only [visitNode, hcall] at hr
    exact .inl hr
  | some call =>
    obtain ⟨d, hd, -⟩ := hdeclared visit.node call hcall
    rw [visitNode_rest hcall] at hr ⊢
    simp only at hr ⊢
    split at hr
    · exact .inl hr
    · next hother =>
      rw [if_neg hother]
      exact visitCall_parents hcall hd hother hkind hr

-- ----------------------------------------------------------------------------
-- All visits
-- ----------------------------------------------------------------------------

/-- What is known of the headers and the inclusions that have been visited. -/
structure Parented (setting : Setting) (made : List Arrival) (s : State) : Prop where
  root : ∀ name, s.tree.name? s.tree.root = some name → name = MacroName.toplevel
  rows : ∀ arrival ∈ made, ∀ r ∈ inclusionRows setting arrival, r ∈ s.references
  origin : ∀ r ∈ s.references, r.kind = .structuralParent →
    (∃ arrival ∈ made, r ∈ inclusionRows setting arrival) ∨
      ∃ x < s.tree.size, Heads s.tree s.index x r

theorem Heads.kept {x : NodeId} (h : Heads s.tree s.index x r) (hkept : s.tree.Kept u.tree)
    (hx : x < s.tree.size) (hentries : ∀ id found, s.index.entries.get? id = some found →
      u.index.entries.get? id = some found) : Heads u.tree u.index x r := by
  obtain ⟨record, hentry⟩ := h.entry
  refine ⟨?_, ?_, record, hentries _ _ hentry⟩
  · rw [hkept.name? hx, h.header]
  · rw [hkept.footprint hx]
    exact h.position

theorem Visited.parented (h : Visited setting start made s) (hr : setting.registry.Coherent)
    (hstart : Parented setting [] start) : Parented setting made s := by
  induction h with
  | start => exact hstart
  | @visit earlier s rank visit _ hshape hnot hnode _ ih =>
    obtain ⟨-, later, -, hstepped⟩ := visitNode_shape hr hshape hnode fun _ => hnot
    obtain ⟨hroot, hrows, horigin⟩ := ih
    have hnotes : Notes setting s.tree visit.node s (visitNode setting visit s).2 :=
      visitNode_notes hshape.declared fun hname => absurd (hroot _ hname) (by decide)
    obtain ⟨given, named, hnaming, -, hrest, -⟩ := visitNode_naming visit hshape.declared hnode
    have hentries : ∀ id found, s.index.entries.get? id = some found →
        (visitNode setting visit s).2.index.entries.get? id = some found := by
      rw [hrest]
      exact fun id found hfound => hnaming.entry hfound
    refine ⟨?_, fun arrival harrival r hr => ?_, fun r hr hkind => ?_⟩
    · rw [hstepped.kept.root_eq, hstepped.kept.name? hshape.root_lt]
      exact hroot
    · rcases List.mem_cons.mp harrival with rfl | harrival
      · exact mem_visitNode_of_inclusionRows hshape.declared hroot hr
      · exact hnotes.mem_references (hrows arrival harrival r hr)
    · rcases visitNode_parents hshape.declared hkind hr with hold | hnew | hheads
      · refine (horigin r hold hkind).imp ?_ ?_
        · rintro ⟨arrival, harrival, hr⟩
          exact ⟨arrival, List.mem_cons_of_mem _ harrival, hr⟩
        · rintro ⟨x, hx, hheads⟩
          exact ⟨x, Nat.lt_of_lt_of_le hx hstepped.kept.size_le,
            hheads.kept hstepped.kept hx hentries⟩
      · exact .inl ⟨_, List.mem_cons_self, hnew⟩
      · refine .inr ⟨visit.node, Nat.lt_of_lt_of_le hnode hstepped.kept.size_le, ?_, ?_, hheads.entry⟩
        · rw [hstepped.kept.name? hnode, hheads.header]
        · rw [hstepped.kept.footprint hnode]
          exact hheads.position

/-- An inclusion leads where it was written to lead, and nowhere if it was not written. -/
theorem Visited.inclusionTarget
    (h : Visited setting (registerDocument setting (.initial t)) (later ++ arrival :: earlier) s)
    (hr : setting.registry.Coherent) (ht : t.Acyclic) (hroot : t.root < t.size) :
    arrival.before.tree.inclusionTarget setting.registry arrival.node =
      t.inclusionTarget setting.registry arrival.node := by
  obtain ⟨hvisited, hacyclic, hnot⟩ := h.before
  unfold Tree.inclusionTarget
  by_cases hlt : arrival.node < t.size
  · rw [(hvisited.written hr ht hacyclic hlt hnot setting.registry).2]
  · rw [hvisited.argumentText_new hr hroot hacyclic (Nat.le_of_not_lt hlt) (by decide)]

theorem parse_parented (registry : Registry) (document source : String) :
    Parented ⟨registry, document⟩ [] (registerDocument ⟨registry, document⟩
      (.initial (parse registry (tokenize source).tokens).tree)) := by
  obtain ⟨-, hrooted, -, -⟩ := parse_tree registry (tokenize source).tokens
  have hkept := (registerDocument_labeled ⟨registry, document⟩
    (parse registry (tokenize source).tokens).tree).kept
  refine ⟨fun name hname => ?_, by simp, fun r hr => ?_⟩
  · rw [hkept.root_eq, hkept.name? hrooted.root_lt] at hname
    exact name_of_root hname
  · rw [(registerDocument_frame _ _).1] at hr
    simp [State.initial] at hr

end Assembly

/-- What a reference to something in the document stands for: for an inclusion, or for a header that
is entered under its target. -/
inductive Analysis.StandsFor (a : Analysis) (registry : Registry) (t : Tree) (r : Reference) : Prop
  | inclusion (x : NodeId) : a.tree.IsInclusion x → a.tree.href? x = some r.site.position →
      r.target = t.inclusionTarget registry x → Analysis.StandsFor a registry t r
  | header (x : NodeId) : x < t.size → x ≠ t.root → a.tree.name? x = some MacroName.header →
      r.site.position ∈ a.tree.footprint x →
      (∃ record, a.index.entries.get? r.target = some (x, record)) → Analysis.StandsFor a registry t r

open Assembly (exists_mem_inclusionRows inclusionRows mem_inclusionRows nameDocument_entries
  parse_parented registerDocument_titled visits)

section
variable {registry : Registry} (hr : registry.Coherent) (document source : String)
include hr

theorem analyze_inclusionRows {arrival : Assembly.Arrival} {r : Reference} :
    let a := analyze registry document source
    let t := (parse registry (tokenize source).tokens).tree
    arrival ∈ visits ⟨registry, document⟩ t → r ∈ inclusionRows ⟨registry, document⟩ arrival →
      r ∈ a.contribution.references ∧ a.tree.IsInclusion arrival.node ∧
        a.tree.href? arrival.node = some r.site.position ∧
        r.target = t.inclusionTarget registry arrival.node := by
  intro a t hmade hrow
  obtain ⟨-, hrooted, -, -⟩ := parse_tree registry (tokenize source).tokens
  have ht := (analyze_settlesTo hr document source).before
  obtain ⟨rank, final, hvisited, hshape, -, htree, -, -, hreferences, -, -, horder⟩ :=
    analyze_visits hr document source
  have harrival := List.mem_reverse.mpr hmade
  have hnoted := (hvisited.parented hr (parse_parented registry document source)).rows _ harrival r hrow
  obtain ⟨hname, hhref, htarget, -⟩ := mem_inclusionRows hrow
  obtain ⟨hkept, hsize⟩ := hvisited.kept hr harrival
  have hnode := List.mem_map_of_mem (f := (·.node)) hmade
  rw [horder, htree, hshape.mem_preorder_iff .refl] at hnode
  refine ⟨by rwa [hreferences], ⟨by rwa [htree], ?_⟩, ?_, ?_⟩
  · rw [htree, hkept.name? hsize, hname]
  · rw [htree, hkept.href? hsize, hhref]
  · obtain ⟨later, earlier, hsplit⟩ := List.append_of_mem harrival
    rw [hsplit] at hvisited
    rw [htarget]
    exact hvisited.inclusionTarget hr ht hrooted.root_lt

/-- Every inclusion of a document has a reference to what it was written to include. -/
theorem analyze_inclusion {x : NodeId} {position : Position} :
    let a := analyze registry document source
    let t := (parse registry (tokenize source).tokens).tree
    a.tree.IsInclusion x → a.tree.href? x = some position →
      ∃ r ∈ a.contribution.references, r.groupKey = ⟨document, position, .structuralParent⟩ ∧
        r.target = t.inclusionTarget registry x := by
  rintro a t ⟨hreaches, hname⟩ hhref
  obtain ⟨rank, final, hvisited, hshape, -, htree, -, -, -, -, -, horder⟩ :=
    analyze_visits hr document source
  change a.tree = final.tree at htree
  rw [htree] at hreaches hname hhref
  obtain ⟨arrival, hmade, rfl⟩ := hshape.exists_arrival (htree ▸ horder) hreaches
  obtain ⟨hkept, hsize⟩ := hvisited.kept hr (List.mem_reverse.mpr hmade)
  rw [hkept.name? hsize] at hname
  rw [hkept.href? hsize] at hhref
  obtain ⟨r, hrow, hkey⟩ := exists_mem_inclusionRows ⟨registry, document⟩ hname hhref
  obtain ⟨hmem, -, -, htarget⟩ := analyze_inclusionRows hr document source hmade hrow
  exact ⟨r, hmem, hkey, htarget⟩

/-- Every inclusion of a document has a reference at its target. -/
theorem analyze_included {id : NodeId} {position : Position} :
    let a := analyze registry document source
    a.tree.Reaches a.tree.root id → a.tree.name? id = some MacroName.inclusion →
      a.tree.href? id = some position →
      ∃ r ∈ a.contribution.references, r.groupKey = ⟨document, position, .structuralParent⟩ := by
  intro a hid hname hhref
  obtain ⟨r, hmem, hkey, -⟩ := analyze_inclusion hr document source ⟨hid, hname⟩ hhref
  exact ⟨r, hmem, hkey⟩

theorem analyze_inclusionTarget (hshow : registry.Showing) {x : NodeId} :
    let a := analyze registry document source
    let t := (parse registry (tokenize source).tokens).tree
    a.tree.IsInclusion x → t.InArgument x "href" (Passage.Tight registry) →
      a.tree.inclusionTarget registry x = t.inclusionTarget registry x := by
  rintro a t ⟨hreaches, hname⟩ htight
  obtain ⟨-, hrooted, -, -⟩ := parse_tree registry (tokenize source).tokens
  have hsettles := analyze_settlesTo hr document source
  obtain ⟨rank, final, hvisited, hshape, -, htree, -⟩ := analyze_visits hr document source
  change a.tree = final.tree at htree
  unfold Tree.inclusionTarget
  by_cases hlt : x < t.size
  · have hother : x ≠ a.tree.root := by
      rintro rfl
      rw [hsettles.kept.root_eq, hsettles.kept.name? hsettles.root_lt] at hname
      exact absurd (name_of_root hname) (by decide)
    have hkept := hsettles.filter_argumentText hshow hlt hother hreaches
      (htight.mono fun _ _ _ h => h.stable)
    rw [List.filter_true, List.filter_true, String.toList_inj] at hkept
    rw [hkept]
  · rw [htree, hvisited.argumentText_new hr hrooted.root_lt hshape.acyclic (Nat.le_of_not_lt hlt)
      (by decide)]

/-- What the author wrote has its positions for itself in the finished document. -/
theorem analyze_footprint_unique {x y : NodeId} {position : Position} :
    let a := analyze registry document source
    let t := (parse registry (tokenize source).tokens).tree
    x < t.size → y < t.size → position ∈ a.tree.footprint x → position ∈ a.tree.footprint y →
      x = y := by
  intro a t hx hy hpx hpy
  have hkept : t.Kept a.tree := (analyze_settlesTo hr document source).kept
  rw [hkept.footprint hx] at hpx
  rw [hkept.footprint hy] at hpy
  exact footprint_unique registry source hpx hpy

variable (hcheck : registry.check = .ok ())
include hcheck

/-- A document with a name is entered under it. -/
theorem analyze_document (hname : document ≠ "") :
    let a := analyze registry document source
    ∃ record, a.index.entries.get? document = some (a.tree.root, record) := by
  obtain ⟨hgrown, -, -, -⟩ := parse_tree registry (tokenize source).tokens
  obtain ⟨rank, final, hvisited, -, hkept, htree, hindex, -⟩ := analyze_visits hr document source
  obtain ⟨call, hcall, -⟩ := parse_toplevel hcheck source
  have ht := (analyze_settlesTo hr document source).before
  have htitled := (hvisited.titled hr ht
    (registerDocument_titled ⟨registry, document⟩ hgrown hcall)).nameDocument
  simp only [hindex, htree, hkept.root_eq]
  exact htitled.document document (if_neg hname)

theorem analyze_standsFor {r : Reference} (hkind : r.kind = .structuralParent) :
    let a := analyze registry document source
    r ∈ a.contribution.references →
      a.StandsFor registry (parse registry (tokenize source).tokens).tree r := by
  intro a hmem
  obtain ⟨hgrown, hrooted, -, -⟩ := parse_tree registry (tokenize source).tokens
  obtain ⟨rank, final, hvisited, hshape, hkept, htree, hindex, -, hreferences, -, -⟩ :=
    analyze_visits hr document source
  obtain ⟨call, hcall, -⟩ := parse_toplevel hcheck source
  have ht := (analyze_settlesTo hr document source).before
  have htitled := hvisited.titled hr ht (registerDocument_titled ⟨registry, document⟩ hgrown hcall)
  obtain ⟨-, -, horigin⟩ := hvisited.parented hr (parse_parented registry document source)
  rcases horigin r (hreferences ▸ hmem) hkind with ⟨arrival, harrival, hrow⟩ | ⟨x, -, hheads⟩
  · obtain ⟨-, hinclusion, hhref, htarget⟩ :=
      analyze_inclusionRows hr document source (List.mem_reverse.mp harrival) hrow
    exact .inclusion _ hinclusion hhref htarget
  · obtain ⟨hname, hposition, record, hentry⟩ := hheads
    have hother : x ≠ (parse registry (tokenize source).tokens).tree.root := by
      rintro rfl
      rw [hkept.name? hrooted.root_lt] at hname
      exact absurd (name_of_root hname) (by decide)
    rw [← htree] at hname hposition
    refine .header x (htitled.visited _ x record hentry hother).2.1 hother hname hposition ?_
    obtain ⟨title, hentries⟩ := nameDocument_entries ⟨registry, document⟩ final
    rw [hindex, hentries, hentry, Option.map_some]
    split <;> exact ⟨_, rfl⟩

/-- A reference to what stands in a document comes from an inclusion, or leads to a macro that is
entered below the document. That of an inclusion leads where the inclusion was written to lead, and
nothing else that leads somewhere stands in its place. -/
theorem analyze_parents :
    let a := analyze registry document source
    let t := (parse registry (tokenize source).tokens).tree
    (∀ r ∈ a.contribution.references, r.kind = .structuralParent →
      (∃ x, a.tree.IsInclusion x ∧ r.target = t.inclusionTarget registry x) ∨
        ∃ x, x ≠ a.tree.root ∧ ∃ record, a.index.entries.get? r.target = some (x, record)) ∧
    ∀ x, a.tree.IsInclusion x → t.inclusionTarget registry x ≠ "" →
      ∃ r ∈ a.contribution.references, r.kind = .structuralParent ∧
        r.target = t.inclusionTarget registry x ∧
        ∀ other ∈ a.contribution.references, other.groupKey = r.groupKey →
          other.target = r.target ∨ other.target = "" := by
  intro a t
  have hkept : t.Kept a.tree := (analyze_settlesTo hr document source).kept
  refine ⟨fun r hmem hkind => ?_, fun x hx hwritten => ?_⟩
  · cases analyze_standsFor hr document source hcheck hkind hmem with
    | inclusion x hinclusion _ htarget => exact .inl ⟨x, hinclusion, htarget⟩
    | header x _ hother _ _ hentry => exact .inr ⟨x, hkept.root_eq ▸ hother, hentry⟩
  · obtain ⟨hlt, position, hhref⟩ := Tree.href?_of_inclusionTarget hwritten
    rw [← hkept.href? hlt] at hhref
    obtain ⟨r, hmem, hkey, htarget⟩ := analyze_inclusion hr document source hx hhref
    have hplace := hx.mem_footprint hhref
    refine ⟨r, hmem, congrArg (·.kind) hkey, htarget, fun other hother hsame => ?_⟩
    have hposition : other.site.position = position := congrArg (·.position) (hsame.trans hkey)
    have hkind : other.kind = .structuralParent := congrArg (·.kind) (hsame.trans hkey)
    -- what else stands in this place is no other inclusion and no header, or was not written
    cases analyze_standsFor hr document source hcheck hkind hother with
    | inclusion y hinclusion hhref' htarget' =>
      by_cases hy : t.inclusionTarget registry y = ""
      · exact .inr (htarget'.trans hy)
      · obtain rfl := analyze_footprint_unique hr document source
          (Tree.href?_of_inclusionTarget hy).1 hlt (hinclusion.mem_footprint (hposition ▸ hhref')) hplace
        exact .inl (htarget'.trans htarget.symm)
    | header y hy _ hname hplace' _ =>
      obtain rfl := analyze_footprint_unique hr document source hy hlt (hposition ▸ hplace') hplace
      exact absurd (hname.symm.trans hx.name) (by decide)

end

end Macromark
