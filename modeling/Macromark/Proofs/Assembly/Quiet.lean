import Macromark.Proofs.Assembly.Identifiers

/-!
# Quiet macros

A macro to which the author gives nothing but content, and which is no header
and leads nowhere, is visited without a trace: the visit arranges its arguments
and does nothing else (`visitNode_quiet`). So a document without a name that
consists of such macros defines nothing and refers to nothing (`analyze_quiet`).
-/

namespace Macromark

structure MacroCall.Quiet (call : MacroCall) : Prop where
  implied : call.Implied
  header : call.name ≠ MacroName.header
  link : call.name ≠ MacroName.crossReference
  inclusion : call.name ≠ MacroName.inclusion

theorem MacroCall.Quiet.congr {call other : MacroCall} (h : call.Quiet)
    (hname : call.name = other.name)
    (harguments : call.arguments.map ({ · with children := [] }) =
      other.arguments.map ({ · with children := [] })) : other.Quiet := by
  refine ⟨fun argument hargument hsupplied => ?_, hname ▸ h.header, hname ▸ h.link,
    hname ▸ h.inclusion⟩
  have hmem := List.mem_map_of_mem (f := fun a : Argument => { a with children := [] }) hargument
  rw [← harguments] at hmem
  obtain ⟨written, hwritten, heq⟩ := List.mem_map.mp hmem
  injection heq with hsame _ _ hgiven
  exact hsame ▸ h.implied written hwritten (hgiven.trans hsupplied)

namespace Assembly

variable {setting : Setting} {s start : State} {visit : Visit} {call : MacroCall}
variable {made : List Arrival}

theorem localId_quiet (h : call.Quiet) (node : NodeId) (definition : MacroDef) :
    localId setting s node call definition = none := by
  have hid : call.supplies "id" = false := h.implied.supplies (by decide)
  have htitle : call.supplies "title" = false := h.implied.supplies (by decide)
  simp [localId, hid, htitle]

theorem visitCall_quiet (h : call.Quiet) : visitCall setting s visit call = (none, s) := by
  unfold visitCall
  cases setting.registry.get? call.name with
  | none => rfl
  | some definition =>
    simp only [h.header, h.link, h.inclusion, if_false, assignId, localId_quiet h]

/-- The visit of a quiet macro, or of the root, changes the tree alone, and gives nothing a name. -/
theorem visitNode_quiet (hnode : visit.node < s.tree.size)
    (h : visit.node ≠ s.tree.root → ∀ call, s.tree.call? visit.node = some call → call.Quiet) :
    (visitNode setting visit s).2 = { s with tree := (visitNode setting visit s).2.tree } ∧
      ∀ x, (visitNode setting visit s).2.tree.label x = s.tree.label x := by
  unfold visitNode
  cases hcall : s.tree.call? visit.node with
  | none => exact ⟨rfl, fun _ => rfl⟩
  | some call =>
    have hcalled : (if visit.node = s.tree.root then ((none : Option String), s)
        else visitCall setting s visit call) = (none, s) := by
      split
      · rfl
      · next hroot => exact visitCall_quiet (h hroot call hcall)
    have htree := arrange_tree setting s visit.node call (visit.node = s.tree.root)
    have hlabels := (arrange_adorned setting s hnode call (visit.node = s.tree.root)).labels
    simp only [hcalled, hcall]
    split <;> exact ⟨htree, hlabels⟩

theorem Visited.quiet (h : Visited setting start made s) (hr : setting.registry.Coherent)
    (hquiet : ∀ arrival ∈ made, arrival.node ≠ s.tree.root →
      ∀ call, s.tree.call? arrival.node = some call → call.Quiet) :
    s = { start with tree := s.tree } ∧ ∀ x, s.tree.label x = start.tree.label x := by
  induction h with
  | start => exact ⟨rfl, fun _ => rfl⟩
  | @visit earlier s rank visit _ hshape hnot hnode _ ih =>
    obtain ⟨-, later, -, hstepped⟩ := visitNode_shape hr hshape hnode fun _ => hnot
    have hkept := hstepped.kept
    -- a macro is as quiet before the visit as after it
    have hbefore : ∀ arrival ∈ (⟨visit, s⟩ :: earlier : List Arrival), arrival.node ≠ s.tree.root →
        ∀ call, s.tree.call? arrival.node = some call → call.Quiet := by
      intro arrival harrival hroot call hcall
      obtain ⟨after, hafter, hname, -, harguments⟩ := hkept.call? hcall
      exact (hquiet arrival harrival (hkept.root_eq ▸ hroot) after hafter).congr hname harguments
    obtain ⟨hsame, hlabels⟩ := ih fun arrival harrival =>
      hbefore arrival (List.mem_cons_of_mem _ harrival)
    obtain ⟨hvisit, hlabels'⟩ := visitNode_quiet hnode
      (hbefore ⟨visit, s⟩ List.mem_cons_self)
    refine ⟨hvisit.trans ?_, fun x => (hlabels' x).trans (hlabels x)⟩
    exact congrArg (fun t : State => { t with tree := (visitNode setting visit s).2.tree }) hsame

end Assembly

open Assembly (registerDocument nameDocument toplevelId)

/-- A document without a name whose macros are all quiet. -/
theorem analyze_quiet {registry : Registry} (hr : registry.Coherent) (source : String) :
    let a := analyze registry "" source
    (∀ x call, a.tree.Reaches a.tree.root x → x ≠ a.tree.root → a.tree.call? x = some call →
      call.Quiet) →
    a.index = .empty ∧ a.contribution.references = [] ∧
      a.diagnostics = (tokenize source).diagnostics ++
        (parse registry (tokenize source).tokens).diagnostics ∧
      a.aborted = none ∧ ∀ x, a.tree.id? x = none := by
  intro a hquiet
  obtain ⟨hgrown, -, -, -⟩ := parse_tree registry (tokenize source).tokens
  obtain ⟨rank, final, hvisited, hshape, -, htree, hindex, -, hreferences, hdiagnostics, haborted, horder⟩ :=
    analyze_visits hr "" source
  have hunnamed : registerDocument ⟨registry, ""⟩
      (.initial (parse registry (tokenize source).tokens).tree) =
        .initial (parse registry (tokenize source).tokens).tree := rfl
  rw [hunnamed] at hvisited
  obtain ⟨hsame, hlabels⟩ := hvisited.quiet hr fun arrival harrival hroot call hcall => by
    have hmem : arrival.node ∈ a.tree.preorder a.tree.root := by
      rw [← horder]
      exact List.mem_map_of_mem (List.mem_reverse.mp harrival)
    rw [htree, hshape.mem_preorder_iff .refl] at hmem
    rw [← htree] at hmem hroot hcall
    exact hquiet arrival.node call hmem hroot hcall
  have hname : nameDocument ⟨registry, ""⟩ final = final := rfl
  rw [hname] at hindex
  refine ⟨?_, ?_, ?_, ?_, fun x => ?_⟩
  · rw [hindex, hsame]
    rfl
  · rw [hreferences, hsame]
    rfl
  · rw [hdiagnostics, hsame]
    exact List.append_nil _
  · rw [haborted, hsame]
    rfl
  · rw [htree, Tree.id?, hlabels]
    exact congrArg Prod.fst (hgrown.label x)

end Macromark
