import Macromark.Proofs.Assembly.Akin
import Macromark.Proofs.Text.Trimming

/-!
# Containers that the author writes

A row that is put into its container is gathered as if the author had written
the container around it (`Enclosed.akin`), unless that container would be put
into another one with what stands beside the row: rows are gathered once, from
left to right, and a container that is made then is not gathered again
(`implied_row_stands_alone`).
-/

namespace Macromark
namespace Passage

variable {α : Type} {registry : Registry} {fresh : α} {owner container : String} {d : MacroDef}
variable {p q explicit : Passage α} {ps front run back : List (Passage α)}

/-- What stands on either side does not ask for `container`, blank texts aside. -/
def Aside (registry : Registry) (owner container : String) (front back : List (Passage α)) : Prop :=
  asked registry owner front.reverse ≠ some container ∧ asked registry owner back ≠ some container

structure Run (registry : Registry) (owner container : String) (front run back : List (Passage α)) :
    Prop where
  ends : ∃ first middle last, run = first :: (middle ++ [last]) ∧
    first.container? registry owner = some container ∧ last.container? registry owner = some container
  row : ∀ p ∈ run, p.container? registry owner = some container ∨ p.isBlank = true
  maximal : Aside registry owner container front back

/-- A macro with nothing but its content. -/
def callWith (fresh : α) (d : MacroDef) (name : String) (synthetic : Bool)
    (content : List (Passage α)) : Passage α :=
  .call fresh name synthetic (impliedSlots fresh d.argumentNames (some content))

-- ----------------------------------------------------------------------------
-- A row among others
-- ----------------------------------------------------------------------------

theorem asked_solid (ps : List (Passage α)) :
    asked registry owner (ps.filter (!·.isBlank)) = asked registry owner ps := by
  simp [asked, List.find?_filter]

section Map

variable {β : Type} {f : Passage α → Passage β} (hblank : ∀ p, (f p).isBlank = p.isBlank)
  (hcontainer : ∀ p, (f p).container? registry owner = p.container? registry owner)
include hblank hcontainer

theorem asked_map (ps : List (Passage α)) :
    asked registry owner (ps.map f) = asked registry owner ps := by
  induction ps with
  | nil => rfl
  | cons p ps ih =>
    simp only [asked] at ih ⊢
    rw [List.map_cons, List.find?_cons, List.find?_cons, hblank]
    cases p.isBlank with
    | true => exact ih
    | false => simp [hcontainer]

theorem Aside.map (h : Aside registry owner container front back) :
    Aside registry owner container (front.map f) (back.map f) := by
  simpa only [Aside, ← List.map_reverse, asked_map hblank hcontainer] using h

/-- A row is one whatever else is done to the passages. -/
theorem Run.map (h : Run registry owner container front run back) :
    Run registry owner container (front.map f) (run.map f) (back.map f) := by
  refine ⟨?_, fun p hp => ?_, h.maximal.map hblank hcontainer⟩
  · obtain ⟨first, middle, last, rfl, hfirst, hlast⟩ := h.ends
    exact ⟨f first, middle.map f, f last, by simp, by rwa [hcontainer], by rwa [hcontainer]⟩
  · obtain ⟨q, hq, rfl⟩ := List.mem_map.mp hp
    rw [hcontainer, hblank]
    exact h.row q hq

end Map

theorem Aside.solid (h : Aside registry owner container front back) :
    Aside registry owner container (front.filter (!·.isBlank)) (back.filter (!·.isBlank)) := by
  simpa [Aside, ← List.filter_reverse, asked_solid] using h

namespace Run

theorem asked_front (h : Run registry owner container front run back) (ps : List (Passage α)) :
    asked registry owner (run ++ ps) = some container := by
  have hrow := h.row
  obtain ⟨first, middle, last, rfl, hfirst, -⟩ := h.ends
  exact asked_append (asked_of_row hrow List.mem_cons_self (isBlank_of_container? hfirst))

theorem asked_back (h : Run registry owner container front run back) :
    asked registry owner run.reverse = some container := by
  have hrow := h.row
  obtain ⟨first, middle, last, rfl, -, hlast⟩ := h.ends
  exact asked_of_row (p := last) (fun p hp => hrow p (List.mem_reverse.mp hp)) (by simp)
    (isBlank_of_container? hlast)

/-- A row is one without its blank texts. -/
theorem solid (h : Run registry owner container front run back) :
    Run registry owner container (front.filter (!·.isBlank)) (run.filter (!·.isBlank))
      (back.filter (!·.isBlank)) := by
  refine ⟨?_, fun p hp => h.row p (List.mem_of_mem_filter hp), h.maximal.solid⟩
  obtain ⟨first, middle, last, rfl, hfirst, hlast⟩ := h.ends
  refine ⟨first, middle.filter (!·.isBlank), last, ?_, hfirst, hlast⟩
  simp [isBlank_of_container? hfirst, isBlank_of_container? hlast]

/-- All that is not blank in a row is a member. -/
theorem filter_solid (h : Run registry owner container front run back) :
    run.filter (!·.isBlank) = run.filter (·.container? registry owner == some container) := by
  refine List.filter_congr fun p hp => ?_
  cases h.row p hp with
  | inl hasks => simp [hasks, isBlank_of_container? hasks]
  | inr hblank =>
    simp only [hblank, Bool.not_true, Bool.false_eq, beq_eq_false_iff_ne]
    intro hasks
    simp [isBlank_of_container? hasks] at hblank

theorem rowOf_eq {first last : Passage α} {middle : List (Passage α)}
    (h : Run registry owner container front (first :: (middle ++ [last])) back)
    (hlast : last.container? registry owner = some container) :
    rowOf registry owner container (middle ++ [last]) = middle ++ [last] := by
  have hall : (middle ++ [last]).takeWhile
      (fun p => p.container? registry owner == some container || p.isBlank) = middle ++ [last] := by
    simp only [List.takeWhile_eq_self_iff]
    intro p hp
    simpa using h.row p (List.mem_cons_of_mem _ hp)
  simp only [rowOf, rowBehind, hall]
  exact List.rdropWhile_concat_neg _ _ _ (by simp [hlast])

theorem wrapRow_eq (hget : registry.get? container = some d) (hnames : "content" ∈ d.argumentNames)
    (row : List (Passage α)) :
    wrapRow registry fresh owner container row =
      [callWith fresh d container true (row.filter (·.container? registry owner == some container))] := by
  simp [wrapRow, implied?, hget, MacroDef.declares_iff.mpr hnames, callWith]

/-- A row is put into its container, and what stands around it is gathered on its own. -/
theorem gatherRows (h : Run registry owner container front run back) :
    gatherRows registry fresh owner (front ++ run ++ back) =
      Passage.gatherRows registry fresh owner front ++ wrapRow registry fresh owner container run ++
        Passage.gatherRows registry fresh owner back := by
  have hbehind : Apart registry owner run back := by
    simpa [Apart, h.asked_back] using h.maximal.2
  have hfront : Apart registry owner front (run ++ back) := by
    intro asks hasked
    simp only [h.asked_front back, ne_eq, Option.some.injEq]
    rintro rfl
    exact h.maximal.1 hasked
  have hrun : Passage.gatherRows registry fresh owner run =
      wrapRow registry fresh owner container run := by
    obtain ⟨first, middle, last, rfl, hfirst, hlast⟩ := h.ends
    have hrow := h.rowOf_eq hlast
    have hne : rowOf registry owner container (middle ++ [last]) ≠ [] := by simp [hrow]
    simp [gatherRows_row hfirst hne, hrow, Passage.gatherRows]
  rw [List.append_assoc, gatherRows_apart hfront, gatherRows_apart hbehind, hrun, List.append_assoc]

end Run

/-- A macro beside which nothing asks for its container stays alone. -/
theorem gatherRows_single (hsolid : p.isBlank = false)
    (h : ∀ outer, p.container? registry owner = some outer → Aside registry owner outer front back) :
    gatherRows registry fresh owner (front ++ p :: back) =
      gatherRows registry fresh owner front ++ p :: gatherRows registry fresh owner back := by
  have hasked : ∀ ps : List (Passage α),
      asked registry owner (p :: ps) = p.container? registry owner := by
    intro ps
    simp [asked, hsolid]
  have hfront : Apart registry owner front (p :: back) := by
    intro outer hfront hback
    simp only [hasked] at hback
    exact (h outer hback).1 hfront
  have hback : Apart registry owner [p] back := by
    intro outer hp hback
    simp only [List.reverse_singleton, hasked] at hp
    exact (h outer hp).2 hback
  have hp : gatherRows registry fresh owner [p] = [p] := by
    cases hasks : p.container? registry owner with
    | none => simp [gatherRows_none hasks, gatherRows]
    | some outer =>
      have hrow : rowOf registry owner outer ([] : List (Passage α)) = [] := rfl
      simp [gatherRows_alone hasks hrow, gatherRows]
  have hrest : gatherRows registry fresh owner ([p] ++ back) = _ := gatherRows_apart hback
  rw [gatherRows_apart hfront]
  simpa [hp] using hrest

-- ----------------------------------------------------------------------------
-- The container around a row
-- ----------------------------------------------------------------------------

namespace Run

/-- The container that is made for a row, and the one that the author writes around it. -/
theorem akin_callWith (h : Run registry owner container front run back)
    (hnames : "content" ∈ d.argumentNames) :
    Akin registry fresh
      (callWith fresh d container true (run.filter (·.container? registry owner == some container)))
      (callWith fresh d container false run) := by
  have hmembers : ∀ p ∈ run.filter (·.container? registry owner == some container),
      p.container? registry owner = some container := by
    intro p hp
    simpa using (List.mem_filter.mp hp).2
  have hrow := h.filter_solid
  obtain ⟨first, middle, last, hrun, hfirst, -⟩ := h.ends
  have hcontainer := isContainer_of_container? hfirst
  have hgathered : gather registry fresh container run =
      gather registry fresh container (run.filter (·.container? registry owner == some container)) := by
    simp [← hrow, gather, hcontainer]
  apply akin_impliedSlots hnames
  · simp [hrun, hfirst]
  · simp [hrun]
  · simp [any_isBreak_row h.row, any_isBreak_row fun p hp => .inl (hmembers p hp)]
  · rw [hgathered]
    exact Akin.refls _

theorem akin_gatherRows (h : Run registry owner container front run back)
    (hget : registry.get? container = some d) (hnames : "content" ∈ d.argumentNames)
    (hsolid : explicit.isBlank = false)
    (hexplicit : Akin registry fresh (callWith fresh d container true
      (run.filter (·.container? registry owner == some container))) explicit)
    (houter : ∀ outer, explicit.container? registry owner = some outer →
      Aside registry owner outer front back) :
    List.Forall₂ (Akin registry fresh) (Passage.gatherRows registry fresh owner (front ++ run ++ back))
      (Passage.gatherRows registry fresh owner (front ++ explicit :: back)) := by
  rw [h.gatherRows, wrapRow_eq hget hnames, gatherRows_single hsolid houter, List.append_assoc]
  exact List.rel_append (Akin.refls _) (.cons hexplicit (Akin.refls _))

/-- Where the containers are put in, a row is as good as its container. -/
theorem akin_gather (h : Run registry owner container front run back)
    (hget : registry.get? container = some d) (hnames : "content" ∈ d.argumentNames)
    (houter : ∀ outer, (callWith fresh d container false run).container? registry owner = some outer →
      Aside registry owner outer front back) :
    List.Forall₂ (Akin registry fresh) (gather registry fresh owner (front ++ run ++ back))
      (gather registry fresh owner (front ++ callWith fresh d container false run :: back)) := by
  have hexplicit : Akin registry fresh _ (callWith fresh d container false run) :=
    h.akin_callWith hnames
  unfold gather
  split
  · have hrow : (run.filter (!·.isBlank)).filter (·.container? registry owner == some container) =
        run.filter (·.container? registry owner == some container) := by
      simp [h.filter_solid]
    have hsolid : (callWith fresh d container false run).isBlank = false := rfl
    simp only [List.filter_append, List.filter_cons, hsolid, Bool.not_false, if_true]
    exact h.solid.akin_gatherRows hget hnames hsolid (hrow ▸ hexplicit)
      fun outer hasks => (houter outer hasks).solid
  · exact h.akin_gatherRows hget hnames rfl hexplicit houter

end Run

/-- The author writes the container around a row in some argument. Beside it nothing asks for what
the new macro is put into itself. -/
inductive Enclosed (registry : Registry) (fresh : α) : Passage α → Passage α → Prop
  | row {mark : α} {owner name container : String} {synthetic supplied : Bool} {d : MacroDef}
      {before after : List (Slot (Passage α))} {front run back : List (Passage α)} :
      Run registry owner container front run back → registry.get? container = some d →
      "content" ∈ d.argumentNames →
      (∀ outer, (callWith fresh d container false run).container? registry owner = some outer →
        Aside registry owner outer front back) →
      Enclosed registry fresh
        (.call mark owner synthetic (before ++ ⟨name, supplied, front ++ run ++ back⟩ :: after))
        (.call mark owner synthetic
          (before ++ ⟨name, supplied, front ++ callWith fresh d container false run :: back⟩ :: after))
  | inside {mark : α} {owner name : String} {synthetic supplied : Bool}
      {before after : List (Slot (Passage α))} {front back : List (Passage α)} {p q : Passage α} :
      Enclosed registry fresh p q →
      Enclosed registry fresh
        (.call mark owner synthetic (before ++ ⟨name, supplied, front ++ p :: back⟩ :: after))
        (.call mark owner synthetic (before ++ ⟨name, supplied, front ++ q :: back⟩ :: after))

theorem Enclosed.akin (h : Enclosed registry fresh p q) : Akin registry fresh p q := by
  induction h with
  | row hrun hget hnames houter =>
    refine .call ?_ (hrun.akin_gather hget hnames houter)
    simp [any_isBreak_row hrun.row, callWith, isBreak]
  | @inside _ _ _ _ _ _ _ front back p q _ ih =>
    have hcontent : List.Forall₂ (Akin registry fresh) (front ++ p :: back) (front ++ q :: back) :=
      List.rel_append (Akin.refls front) (.cons ih (Akin.refls back))
    exact .call (Akin.any_isBreak hcontent) (Akin.gather hcontent)

end Passage

-- ----------------------------------------------------------------------------
-- Documents
-- ----------------------------------------------------------------------------

/-- Beside a row that the author has written a row of cells is not put into a table, but it is when
the author writes the row around the cells. -/
theorem implied_row_stands_alone :
    let names (source : String) :=
      let t := (analyze .builtin "zoo" source).tree
      (t.preorder t.root).filterMap fun id => (t.call? id).map (·.name)
    names "\\Td[a]\\Td[b]\\Tr[\\Td[c]]" = ["toplevel", "Tr", "Td", "Td", "Tr", "Td"] ∧
      names "\\Tr[\\Td[a]\\Td[b]]\\Tr[\\Td[c]]" = ["toplevel", "Table", "Tr", "Td", "Td", "Tr", "Td"] := by
  decide +kernel

end Macromark
