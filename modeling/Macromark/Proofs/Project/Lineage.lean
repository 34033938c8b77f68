import Macromark.Proofs.Assembly.Parents
import Macromark.Proofs.Project.Ancestors
import Macromark.Proofs.Project.Reachability

/-!
# The ancestors of a header

If each identifier is defined once and each inclusion names a document of the
project, the store keeps the reference to a header that its document has noted
(`Orderly.parent?_finished`). The walk up the references then goes through the
headers above it, but only up to one without an identifier: the reference to what
stands under that comes from nothing (`compile_ancestors`). So it never finds the
document (`ancestors_end_at_nameless`).
-/

namespace Macromark

namespace Project

variable {p q : Project} {d : Document} {options : CompileOptions} {out : CompiledProject}
variable {store : Store} {id : String} {header parent : HeaderId} {above : List HeaderId}

def InclusionsNamed (p : Project) : Prop :=
  ∀ d ∈ p.documents, ∀ x, (p.analysis d).tree.IsInclusion x → p.writtenTarget d x ∈ p.names

/-- Nothing in the project is mistaken for something else, and no other documents have rows. -/
structure Orderly (p : Project) : Prop where
  keyed : p.Keyed
  coherent : p.registry.Coherent
  check : p.registry.check = .ok ()
  names : "" ∉ p.names
  ground : p.ground.rows = []
  one : p.OneDefinition
  included : p.InclusionsNamed

-- ----------------------------------------------------------------------------
-- One step
-- ----------------------------------------------------------------------------

/-- Only the documents of the project have rows. -/
theorem Orderly.rowsIn_eq (h : p.Orderly) : p.finished.rowsIn p.names = p.finished.rows := by
  rw [h.keyed.rowsIn_finished, h.keyed.rows_finished, h.ground, List.nil_append]

section
variable (h : p.Orderly) (hd : d ∈ p.documents)
include h hd

theorem Orderly.name_ne_empty : d.name ≠ "" := fun heq => h.names (heq ▸ List.mem_map_of_mem hd)

theorem Orderly.headed :
    (p.analysis d).Headed p.registry (parse p.registry (tokenize d.source).tokens).tree :=
  analyze_headed h.coherent h.check d.name d.source (h.name_ne_empty hd)

/-- No document is named like something that another one enters. -/
theorem Orderly.not_mem_names {x : NodeId} {record : IdRecord} (hroot : x ≠ (p.analysis d).tree.root)
    (hentry : (p.analysis d).index.entries.get? id = some (x, record)) : id ∉ p.names := by
  intro hmem
  obtain ⟨e, he, rfl⟩ := List.mem_map.mp hmem
  obtain ⟨named, hnamed⟩ := analysis_document h.coherent h.check (h.name_ne_empty he)
  obtain rfl := h.one d hd e he _ (contains_of_entry hentry) (contains_of_entry hnamed)
  exact hroot (Prod.mk.inj (Option.some.inj (hentry.symm.trans hnamed))).1

section
variable (hparent : (p.analysis d).headers.parent? header = some parent)
variable (hid : (p.analysis d).headerId? header = some id)
include hparent hid

theorem Orderly.exists_entry : ∃ x record, x ≠ (p.analysis d).tree.root ∧
    (p.analysis d).index.entries.get? id = some (x, record) := by
  have hheaded := h.headed hd
  obtain ⟨-, x, -, hroot, -, -, -, record, hentry⟩ :=
    hheaded.entered header id (hheaded.stacked.ne_root hparent) hid
  exact ⟨x, record, hroot, hentry⟩

/-- The document notes one reference to a header. -/
theorem Orderly.exists_reference :
    ∃ r ∈ (p.analysis d).contribution.references, r.kind = .structuralParent ∧ r.target = id ∧
      r.source = ((p.analysis d).headerId? parent).getD "" ∧
      ∀ other ∈ (p.analysis d).contribution.references, other.kind = .structuralParent →
        other.groupKey = r.groupKey ∨ other.target = id → other = r := by
  obtain ⟨x, record, hroot, hentry⟩ := h.exists_entry hd hparent hid
  obtain ⟨r, hown, hkind, htarget, hsource, hmeets⟩ :=
    analyze_raised h.coherent h.check d.name d.source (h.name_ne_empty hd) hparent hid
  refine ⟨r, hown, hkind, htarget, hsource, fun other hother hkind hmeet => ?_⟩
  rcases hmeets other hother hkind hmeet with heq | ⟨y, hinclusion,
    (hempty : p.writtenTarget d y = "") | (hself : p.writtenTarget d y = id)⟩
  · exact heq
  · exact absurd (hempty ▸ h.included d hd y hinclusion) h.names
  · exact absurd (hself ▸ h.included d hd y hinclusion) (h.not_mem_names hd hroot hentry)

/-- The store keeps the reference to a header, and no other one leads to it. -/
theorem Orderly.row_of_header :
    ∃ row ∈ p.finished.rows, row.reference.kind = .structuralParent ∧ row.reference.target = id ∧
      row.reference.source = ((p.analysis d).headerId? parent).getD "" ∧
      ∀ other ∈ p.finished.rows, other.reference.kind = .structuralParent →
        other.reference.target = id → other = row := by
  obtain ⟨x, record, hroot, hentry⟩ := h.exists_entry hd hparent hid
  have hforeign := h.not_mem_names hd hroot hentry
  obtain ⟨r, hown, hkind, htarget, hsource, halone⟩ := h.exists_reference hd hparent hid
  have hknown : p.finished.knows r.target [] = true := by
    obtain ⟨held, hheld, -⟩ := h.keyed.settles_finished hd (contains_of_entry hentry)
    exact (Store.knows_iff ..).mpr ⟨held, htarget ▸ hheld, List.not_mem_nil⟩
  obtain ⟨row, hrows, hrow⟩ := h.keyed.rows_of_known hd hown hknown
  have hkept : row ∈ p.finished.rows.filter (·.reference.groupKey = r.groupKey) :=
    hrows ▸ List.mem_singleton_self row
  obtain ⟨hmem, hkey⟩ := List.mem_filter.mp hkept
  have hkey : row.reference.groupKey = r.groupKey := of_decide_eq_true hkey
  have heq := halone _ hrow ((congrArg (·.kind) hkey).trans hkind) (.inl hkey)
  refine ⟨row, hmem, heq ▸ hkind, heq ▸ htarget, heq ▸ hsource,
    fun other hother hkind htarget => ?_⟩
  obtain ⟨a, ha, hnoted⟩ := List.mem_flatMap.mp
    (h.keyed.known_of_mem_rowsIn (h.rowsIn_eq.symm ▸ hother)).1
  obtain ⟨e, he, rfl, -⟩ := mem_analyses ha
  rcases (analyze_parents h.coherent e.name e.source h.check).1 _ hnoted hkind with
    ⟨y, hinclusion, (hwritten : _ = p.writtenTarget e y)⟩ | ⟨y, -, record', hentry'⟩
  · exact absurd ((hwritten.symm.trans htarget) ▸ h.included e he y hinclusion) hforeign
  · rw [htarget] at hentry'
    obtain rfl := h.one e he d hd _ (contains_of_entry hentry') (contains_of_entry hentry)
    have hsame := halone _ hnoted hkind (.inr htarget)
    have hother : other ∈ p.finished.rows.filter (·.reference.groupKey = r.groupKey) :=
      List.mem_filter.mpr ⟨hother, decide_eq_true (congrArg Reference.groupKey hsame)⟩
    rw [hrows] at hother
    exact List.mem_singleton.mp hother

/-- The store says of a header what it stands under, if that has an identifier. -/
theorem Orderly.parent?_finished :
    parent? p.finished id = (p.analysis d).headerId? parent := by
  obtain ⟨row, hrow, hkind, htarget, hsource, halone⟩ :=
    h.row_of_header hd hparent hid
  cases hup : (p.analysis d).headerId? parent with
  | none =>
    rw [hup, Option.getD_none] at hsource
    rw [parent?_eq, List.find?_eq_none.mpr, Option.map_none]
    intro other hother hraises
    obtain ⟨hkind', htarget', hnonempty⟩ := of_decide_eq_true hraises
    exact hnonempty (halone other hother hkind' htarget' ▸ hsource)
  | some upper =>
    have hupper : upper ≠ "" := (h.headed hd).ne_empty (h.name_ne_empty hd) hup
    rw [hup, Option.getD_some] at hsource
    refine (parent?_eq_some_iff h.keyed.keyed_finished.ascending).mpr
      ⟨row, hrow, ⟨hkind, htarget, hsource ▸ hupper⟩, hsource, fun other hother hraises => ?_⟩
    exact Nat.le_of_eq (congrArg _ (halone other hother hraises.1 hraises.2.1).symm)

end

-- ----------------------------------------------------------------------------
-- The way up
-- ----------------------------------------------------------------------------

/-- The store leads from one identifier above a header to the next, up to where one is missing. -/
theorem Orderly.isChain_names
    (habove : (p.analysis d).headers.Above header above)
    (hid : (p.analysis d).headerId? header = some id) {names : List String}
    {rest : List (Option String)}
    (hsplit : above.map (p.analysis d).headerId? = names.map some ++ rest) :
    ((id :: names).IsChain fun below upper => parent? p.finished below = some upper) ∧
      (rest.head? = some none →
        parent? p.finished ((id :: names).getLast (List.cons_ne_nil _ _)) = none) := by
  induction habove generalizing id names with
  | document =>
    obtain ⟨hnone, rfl⟩ := List.append_eq_nil_iff.mp hsplit.symm
    obtain rfl := List.map_eq_nil_iff.mp hnone
    exact ⟨.singleton _, fun hrest => by cases hrest⟩
  | under hparent _ ih =>
    have hstep := h.parent?_finished hd hparent hid
    cases names with
    | nil =>
      refine ⟨.singleton _, fun hrest => ?_⟩
      rw [List.map_nil, List.nil_append] at hsplit
      rw [← hsplit] at hrest
      exact hstep.trans (Option.some.inj hrest)
    | cons name names =>
      obtain ⟨hname, hsplit⟩ := List.cons.inj hsplit
      obtain ⟨hchain, hend⟩ := ih hname hsplit
      exact ⟨hchain.cons_cons (hstep.trans hname), hend⟩

end

/-- Where no identifier is defined twice and each inclusion names a document, the ancestors of a
header are at first the identifiers of the headers above it and the name of its document. That is so
only if all headers above it have identifiers; else the walk ends at the first one that has none. -/
theorem compile_ancestors (h : p.Reachable) (hr : p.registry.Coherent) (hnames : "" ∉ p.names)
    (hground : p.ground.rows = []) (hcompile : p.compile options = .ok (out, q))
    (hnone : ∀ y ∈ out.allDiagnostics, y.problem.isDuplicateId = false)
    (hincluded : p.InclusionsNamed) :
    ∀ d ∈ p.documents, ∀ x id,
      let a := p.analysis d
      a.tree.Reaches a.tree.root x → a.tree.name? x = some MacroName.header →
        (parse p.registry (tokenize d.source).tokens).tree.isSynonym p.registry x = false →
        a.tree.id? x = some id → ∃ header, a.headers.node? header = some x ∧
          let above := (a.headers.ancestors header).map a.headerId?
          above.getLast? = some (some d.name) ∧
          (∀ names, above = names.map some → names <+: ancestors q.store id) ∧
          ∀ names rest, above = names.map some ++ none :: rest → ancestors q.store id = names := by
  intro d hd x id a hreaches hheader hsynonym hid
  obtain ⟨hkeyed, hsound⟩ := h.sound
  have hcheck := (hkeyed.ready_of_compile hcompile).1
  obtain ⟨rfl, rfl⟩ := hkeyed.eq_of_compile hcompile
  have horderly : p.Orderly :=
    ⟨hkeyed, hr, hcheck, hnames, hground, hkeyed.oneDefinition hsound hnone, hincluded⟩
  have hheaded := horderly.headed hd
  obtain ⟨header, hne, hnode⟩ := hheaded.linked x id hreaches hheader hsynonym hid
  have hlt := HeaderTree.lt_of_node? hnode
  obtain ⟨above, habove⟩ := hheaded.stacked.exists_above hlt
  have hids : a.headerId? header = some id := by
    rw [Analysis.headerId?, hnode, Option.bind_some, hid]
  refine ⟨header, hnode, ?_⟩
  rw [habove.ancestors hheaded.stacked hlt]
  have hrows := hkeyed.keyed_finished.ascending
  have hway := @Orderly.isChain_names p d id header above horderly hd habove hids
  refine ⟨hheaded.getLast?_names habove hne, fun names hsplit => ?_, fun names rest hsplit => ?_⟩
  · have hsplit : above.map a.headerId? = names.map some ++ [] := by rw [hsplit, List.append_nil]
    exact prefix_ancestors hrows ((isChain_parents_iff hrows).mp (hway hsplit).1)
      (hheaded.nodup_names habove hids hsplit)
  · obtain ⟨hchain, hend⟩ := hway hsplit
    refine (Ascent.eq_ancestors hrows ⟨hheaded.nodup_names habove hids hsplit,
      (isChain_parents_iff hrows).mp hchain, fun parent hparent => ?_⟩).symm
    rw [← parent?_eq_some_iff hrows, hend rfl] at hparent
    cases hparent

/-- One document includes the other one, in which a header stands under another. -/
def nests : Project :=
  { registry := .builtin, store := .empty
    documents := [⟨"index", "\\h[1][Birds]\n\n\\Include[ponds]"⟩,
      ⟨"ponds", "\\h[1][Geese]\n\n\\h[2][Brent]"⟩] }

theorem nests_reachable : nests.Reachable := reachable_of_nodup .empty .builtin none (by decide)

theorem compile_ancestors_nests :
    let ponds : Document := ⟨"ponds", "\\h[1][Geese]\n\n\\h[2][Brent]"⟩
    ∃ out q, nests.compile {} = .ok (out, q) ∧ "" ∉ nests.names ∧ nests.ground.rows = [] ∧
      (∀ y ∈ out.allDiagnostics, y.problem.isDuplicateId = false) ∧ nests.InclusionsNamed ∧
      (nests.analysis ponds).tree.id? 12 = some "brent" ∧
      ["geese", "ponds"] <+: ancestors q.store "brent" := by
  intro ponds
  have hcompile := nests_reachable.sound.1.compile_ok Registry.check_builtin (by decide +kernel) {}
  have hnone : ∀ y ∈ (nests.output {}).allDiagnostics, y.problem.isDuplicateId = false := by
    decide +kernel
  have hincluded : nests.InclusionsNamed := by
    intro d hd x hinclusion
    obtain ⟨hmem, hname⟩ := (isInclusion_iff Registry.coherent_builtin).mp hinclusion
    have hall : ∀ d ∈ nests.documents,
        ∀ x ∈ (nests.analysis d).tree.preorder (nests.analysis d).tree.root,
        (nests.analysis d).tree.name? x = some MacroName.inclusion →
          nests.writtenTarget d x ∈ nests.names := by decide +kernel
    exact hall d hd x hmem hname
  obtain ⟨hchild, hname, hsynonym, hid⟩ :
      12 ∈ (nests.analysis ponds).tree.below (nests.analysis ponds).tree.root ∧
        (nests.analysis ponds).tree.name? 12 = some MacroName.header ∧
        (parse .builtin (tokenize ponds.source).tokens).tree.isSynonym .builtin 12 = false ∧
        (nests.analysis ponds).tree.id? 12 = some "brent" := by decide +kernel
  obtain ⟨header, hnode, -, hnamed, -⟩ := compile_ancestors nests_reachable Registry.coherent_builtin
    (by decide) (by decide +kernel) hcompile hnone hincluded ponds (by decide) 12 "brent"
    (.single hchild) hname hsynonym hid
  refine ⟨_, _, hcompile, by decide, by decide +kernel, hnone, hincluded, hid, hnamed _ ?_⟩
  have habove : ∀ header < (nests.analysis ponds).headers.nodes.size,
      (nests.analysis ponds).headers.node? header = some 12 →
        ((nests.analysis ponds).headers.ancestors header).map (nests.analysis ponds).headerId? =
          ["geese", "ponds"].map some := by decide +kernel
  exact habove header (HeaderTree.lt_of_node? hnode) hnode

/-- A header that has no identifier, and one under it. -/
def nameless : Project :=
  { registry := .builtin, store := .empty
    documents := [⟨"zoo", "\\h[1][!!!]\n\n\\h[2][Brent]"⟩] }

theorem nameless_reachable : nameless.Reachable :=
  reachable_of_nodup .empty .builtin none (by decide)

/-- The walk from the lower header does not find the document. -/
theorem ancestors_end_at_nameless : ¬ ∀ (p : Project) options out q, p.Reachable →
    p.registry.Coherent → "" ∉ p.names → p.ground.rows = [] → p.compile options = .ok (out, q) →
    (∀ y ∈ out.allDiagnostics, y.problem.isDuplicateId = false) → p.InclusionsNamed →
    ∀ d ∈ p.documents, ∀ header x id, (p.analysis d).headers.node? header = some x →
      (p.analysis d).tree.name? x = some MacroName.header → (p.analysis d).tree.id? x = some id →
        ((p.analysis d).headers.ancestors header).filterMap (p.analysis d).headerId? <+:
          ancestors q.store id := by
  intro hall
  let zoo : Document := ⟨"zoo", "\\h[1][!!!]\n\n\\h[2][Brent]"⟩
  have hcompile := nameless_reachable.sound.1.compile_ok Registry.check_builtin (by decide +kernel) {}
  have hincluded : nameless.InclusionsNamed := by
    intro d hd x hinclusion
    obtain ⟨hmem, hname⟩ := (isInclusion_iff Registry.coherent_builtin).mp hinclusion
    have hnone : ∀ d ∈ nameless.documents,
        ∀ x ∈ (nameless.analysis d).tree.preorder (nameless.analysis d).tree.root,
          (nameless.analysis d).tree.name? x ≠ some MacroName.inclusion := by decide +kernel
    exact absurd hname (hnone d hd x hmem)
  obtain ⟨hnode, hname, hid, habove⟩ :
      (nameless.analysis zoo).headers.node? 2 = some 12 ∧
        (nameless.analysis zoo).tree.name? 12 = some MacroName.header ∧
        (nameless.analysis zoo).tree.id? 12 = some "brent" ∧
        ((nameless.analysis zoo).headers.ancestors 2).filterMap (nameless.analysis zoo).headerId? =
          ["zoo"] := by decide +kernel
  have hprefix := hall nameless {} _ _ nameless_reachable Registry.coherent_builtin (by decide)
    (by decide +kernel) hcompile (by decide +kernel) hincluded zoo List.mem_cons_self 2 12 "brent"
    hnode hname hid
  have hwalk : ancestors nameless.finished "brent" = [] := by decide +kernel
  rw [habove, hwalk] at hprefix
  exact absurd hprefix (by decide)

end Project
end Macromark
