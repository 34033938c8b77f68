import Macromark.Proofs.Assembly.Targets

/-!
# Links in titles

A visit carries along whether its node stands in the title of a header, and every
visit that follows from one is made (`Agenda.Run.exists_arrival`). What a macro holds after its
visit it holds in the end (`Visited.call?_eq`), so that the visits agree with the
finished tree about what stands in a title (`Tree.Titling`). It is there that the
references of a link are noted once more (`analyze_titling`).
-/

namespace Macromark

/-- `inTitle` tells whether a node stands in the title of a header, at any depth. -/
structure Tree.Titling (t : Tree) (inTitle : NodeId → Bool) : Prop where
  root : inTitle t.root = false
  below : ∀ owner call, t.Reaches t.root owner → t.call? owner = some call →
    ∀ argument ∈ call.arguments, ∀ child ∈ argument.children,
      inTitle child =
        (inTitle owner || (call.name == MacroName.header && argument.name == "title"))

def Analysis.group (a : Analysis) (key : GroupKey) : List Reference :=
  a.contribution.references.filter (·.groupKey = key)

namespace Assembly

variable {setting : Setting} {s start : State} {visit : Visit} {call : MacroCall}
variable {made : List Arrival} {arrival : Arrival} {x : NodeId}

-- ----------------------------------------------------------------------------
-- What follows from a visit
-- ----------------------------------------------------------------------------

/-- If nothing waits any more, what waited has been visited, and what followed from a visit too. -/
theorem Agenda.Run.exists_arrival {a b : Agenda} (h : Agenda.Run setting a made b)
    (hdone : b.waiting = []) :
    (∀ visit ∈ a.waiting, ∃ arrival ∈ made, arrival.toVisit = visit) ∧
      ∀ arrival ∈ made, ∀ visit ∈ (visitNode setting arrival.toVisit arrival.before).1,
        ∃ next ∈ made, next.toVisit = visit := by
  induction h with
  | done agenda => simp [hdone]
  | @visit first rest s made last _ ih =>
    obtain ⟨hwaiting, hbelow⟩ := ih hdone
    have hwaiting : ∀ visit ∈ (visitNode setting first s).1 ++ rest,
        ∃ arrival ∈ made, arrival.toVisit = visit := hwaiting
    refine ⟨fun visit hvisit => ?_, fun arrival harrival visit hvisit => ?_⟩
    · rcases List.mem_cons.mp hvisit with rfl | hvisit
      · exact ⟨_, List.mem_cons_self, rfl⟩
      · obtain ⟨arrival, harrival, rfl⟩ := hwaiting visit (List.mem_append_right _ hvisit)
        exact ⟨arrival, List.mem_cons_of_mem _ harrival, rfl⟩
    · have hmade : ∃ next ∈ made, next.toVisit = visit := by
        rcases List.mem_cons.mp harrival with rfl | harrival
        · exact hwaiting visit (List.mem_append_left _ hvisit)
        · exact hbelow arrival harrival visit hvisit
      obtain ⟨next, hnext, heq⟩ := hmade
      exact ⟨next, List.mem_cons_of_mem _ hnext, heq⟩

/-- A visit goes on with what its macro holds then. -/
theorem visitNode_below {before : MacroCall} (hbefore : s.tree.call? visit.node = some before)
    (hcall : (visitNode setting visit s).2.tree.call? visit.node = some call) :
    (visitNode setting visit s).1 = visitsBelow visit call
      (if visit.node = s.tree.root then ((none : Option String), s)
        else visitCall setting s visit before).1 := by
  simp only [visitNode, hbefore] at hcall ⊢
  generalize (if visit.node = s.tree.root then ((none : Option String), s)
    else visitCall setting s visit before) = called at hcall ⊢
  obtain ⟨headerId, t⟩ := called
  simp only at hcall ⊢
  cases hnamed : t.tree.call? visit.node with
  | none => simp [hnamed] at hcall
  | some named =>
    simp only [hnamed] at hcall ⊢
    generalize arrange setting t visit.node named _ = u at hcall ⊢
    cases hafter : u.tree.call? visit.node with
    | none => simp [hafter] at hcall
    | some after =>
      simp only [hafter, Option.some.injEq] at hcall ⊢
      rw [hcall]

/-- What is no macro stays none, and nothing follows from its visit. -/
theorem visitNode_of_none (hnone : s.tree.call? visit.node = none) :
    visitNode setting visit s = ([], s) := by
  simp [visitNode, hnone]

theorem visitNode_call?_of_ne (hdeclared : s.tree.Declared setting.registry)
    (hnode : visit.node < s.tree.size) (hx : x < s.tree.size) (hne : x ≠ visit.node) :
    (visitNode setting visit s).2.tree.call? x = s.tree.call? x := by
  obtain ⟨given, named, hnaming, -, -, hadorned⟩ := visitNode_naming visit hdeclared hnode
  rw [hadorned.calls x (hnaming.labeled.size_eq ▸ hx) hne, hnaming.others hne]

theorem Visited.call?_eq (h : Visited setting start made s) (hr : setting.registry.Coherent)
    (harrival : arrival ∈ made) : s.tree.call? arrival.node =
      (visitNode setting arrival.toVisit arrival.before).2.tree.call? arrival.node := by
  induction h with
  | start => simp at harrival
  | @visit earlier s rank visit hvisited hshape hnot hnode _ ih =>
    rcases List.mem_cons.mp harrival with rfl | harrival
    · rfl
    · obtain ⟨hkept, hlt⟩ := hvisited.kept hr harrival
      have hne : arrival.node ≠ visit.node := fun heq =>
        hnot (heq ▸ List.mem_map_of_mem harrival)
      rw [visitNode_call?_of_ne hshape.declared hnode (Nat.lt_of_lt_of_le hlt hkept.size_le) hne,
        ih harrival]

-- ----------------------------------------------------------------------------
-- What stands in a title
-- ----------------------------------------------------------------------------

def inTitle (made : List Arrival) (x : NodeId) : Bool :=
  made.any fun arrival => arrival.node == x && arrival.titleOf.isSome

theorem Visited.inTitle_eq (h : Visited setting start made s) (harrival : arrival ∈ made) :
    inTitle made arrival.node = arrival.titleOf.isSome := by
  rw [Bool.eq_iff_iff, inTitle, List.any_eq_true]
  constructor
  · rintro ⟨other, hother, htitle⟩
    rw [Bool.and_eq_true, beq_iff_eq] at htitle
    exact List.inj_on_of_nodup_map h.distinct hother harrival htitle.1 ▸ htitle.2
  · intro htitle
    exact ⟨arrival, harrival, by rw [beq_self_eq_true, htitle, Bool.true_and]⟩

/-- A node stands in a title if it is in that of a header, or if what it stands in does. -/
theorem Visited.inTitle_below {waiting : List Visit} {argument : Argument} {child : NodeId}
    (h : Visited setting start made s) (hr : setting.registry.Coherent)
    (hrun : Agenda.Run setting ⟨waiting, start⟩ made.reverse ⟨[], s⟩) (harrival : arrival ∈ made)
    (hcall : s.tree.call? arrival.node = some call) (hargument : argument ∈ call.arguments)
    (hchild : child ∈ argument.children) :
    inTitle made child = (inTitle made arrival.node ||
      (call.name == MacroName.header && argument.name == "title")) := by
  rw [h.call?_eq hr harrival] at hcall
  obtain ⟨headerId, hbelow⟩ : ∃ headerId,
      (visitNode setting arrival.toVisit arrival.before).1 = visitsBelow arrival.toVisit call headerId := by
    cases hbefore : arrival.before.tree.call? arrival.node with
    | none => simp [visitNode_of_none hbefore, hbefore] at hcall
    | some before => exact ⟨_, visitNode_below hbefore hcall⟩
  let titleOf :=
    if call.name = MacroName.header ∧ argument.name = "title" then some (headerId.getD "")
    else arrival.titleOf
  have hfollows : ⟨child, titleOf⟩ ∈ (visitNode setting arrival.toVisit arrival.before).1 := by
    rw [hbelow]
    exact List.mem_flatMap.mpr ⟨argument, hargument, List.mem_map_of_mem hchild⟩
  obtain ⟨next, hnext, heq⟩ :=
    (hrun.exists_arrival rfl).2 arrival (List.mem_reverse.mpr harrival) _ hfollows
  have htitle := h.inTitle_eq (List.mem_reverse.mp hnext)
  rw [heq] at htitle
  rw [htitle, h.inTitle_eq harrival]
  by_cases hheader : call.name = MacroName.header ∧ argument.name = "title"
  · simp [titleOf, hheader]
  · have hother : (call.name == MacroName.header && argument.name == "title") = false := by
      simpa using hheader
    simp [titleOf, hheader, hother]

end Assembly

open Assembly (Setting crossReferences crossReferences_linkNotes depthBound inTitle registerDocument
  registerDocument_frame titles_linkNotes visitAll visits visits_visited)

/-- The references of a link are noted once more if it stands in a title, and with it all that they
say but their kind. -/
theorem analyze_titling {registry : Registry} (hregistry : registry.Linkable)
    (document source : String) :
    let a := analyze registry document source
    ∃ inTitle, a.tree.Titling inTitle ∧
      ∀ x position, a.tree.IsLink x → a.tree.href? x = some position →
        a.group ⟨document, position, .titleInTitle⟩ =
          if inTitle x then (a.group ⟨document, position, .crossReference⟩).map Reference.inTitle
          else [] := by
  intro a
  let setting : Setting := ⟨registry, document⟩
  let written := (parse registry (tokenize source).tokens).tree
  let final := visitAll setting (depthBound written) ⟨written.root, none⟩
    (registerDocument setting (.initial written))
  have hr : setting.registry.Coherent := hregistry.coherent
  obtain ⟨hgrown, hrooted, -, -⟩ := parse_tree registry (tokenize source).tokens
  obtain ⟨rank, hvisited, hrun, hshape, hkept, horder⟩ := visits_visited setting hr hgrown hrooted
  have hassemble := assemble_eq registry document hrooted
  have htree : a.tree = final.tree := congrArg (·.tree) hassemble
  have hreferences : a.contribution.references = final.references :=
    congrArg (·.contribution.references) hassemble
  have hmade : ∀ x, final.tree.Reaches final.tree.root x →
      ∃ arrival ∈ (visits setting written).reverse, arrival.node = x := by
    intro x hx
    obtain ⟨arrival, harrival, hnode⟩ := hshape.exists_arrival horder hx
    exact ⟨arrival, List.mem_reverse.mpr harrival, hnode⟩
  rw [← List.reverse_reverse (visits setting written)] at hrun
  simp only [Analysis.group, Tree.IsLink, htree, hreferences]
  generalize (visits setting written).reverse = made at hvisited hrun hmade
  refine ⟨inTitle made, ⟨?_, fun owner call howner hcall argument hargument child hchild => ?_⟩,
    fun x position hx hhref => ?_⟩
  · -- the first visit is that of the root
    obtain ⟨first, hfirst, heq⟩ := (hrun.exists_arrival rfl).1 _ List.mem_cons_self
    have htitle := hvisited.inTitle_eq (List.mem_reverse.mp hfirst)
    rw [heq] at htitle
    rwa [hkept.root_eq]
  · obtain ⟨arrival, harrival, rfl⟩ := hmade owner howner
    exact hvisited.inTitle_below hr hrun harrival hcall hargument hchild
  · obtain ⟨arrival, harrival, rfl⟩ := hmade x hx.1
    have hgroup := hvisited.filter_groupKey hr hregistry.author
      (parse_noted registry document source) (registerDocument_frame _ _).1 harrival hx.2 hhref
    rw [hgroup, hgroup, titles_linkNotes, ← crossReferences, crossReferences_linkNotes,
      hvisited.inTitle_eq harrival]

end Macromark
