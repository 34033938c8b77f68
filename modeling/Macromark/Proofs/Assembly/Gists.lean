import Macromark.Proofs.Assembly.Enclosing
import Macromark.Proofs.Assembly.Wording

/-!
# What a visit reads

A visit reads of a macro which arguments the author gave and what stands in
them: the gist of the macro. Where the author writes the container around a row
no macro has another gist (`Passage.Enclosed.annotate`), since the container is
read as what it holds and says nothing of its own. So the finished trees agree
when every macro is marked with its gist, too (`enclosed_gists`).
-/

namespace Macromark

/-- For some arguments, whether they are supplied, and what is read in them. -/
abbrev Gist := List (Bool × List Char)

namespace Passage

variable {α : Type} {registry : Registry} {p q : Passage α} {ps front run back : List (Passage α)}
variable {slots slots' before after : List (Slot (Passage α))} {owner container : String}
variable {fresh : α}

/-- The arguments that a visit reads. -/
def gistNames : List String := ["id", "title", "level", "scope", "synonym", "href", "magic"]

/-- The gist of a macro that says nothing. -/
def silent : Gist := gistNames.map fun _ => (false, [])

def supplies (slots : List (Slot (Passage α))) (name : String) : Bool :=
  ((slots.find? (·.name == name)).map (·.supplied)).getD false

def gist (registry : Registry) (slots : List (Slot (Passage α))) : Gist :=
  gistNames.map fun name => (supplies slots name, charsAt registry slots name)

/-- Every macro is marked with its gist. -/
def annotate (registry : Registry) (p : Passage α) : Passage Gist :=
  match p with
  | .text _ words => .text silent words
  | .paragraphBreak _ => .paragraphBreak silent
  | .error _ message => .error silent message
  | .call _ name synthetic slots =>
    .call (gist registry slots) name synthetic
      (slots.map fun slot => ⟨slot.name, slot.supplied, slot.content.map (annotate registry)⟩)
termination_by sizeOf p
decreasing_by
  rename_i hslot _ hp
  exact sizeOf_lt_of_slot hslot hp ..

theorem annotate_call (registry : Registry) (mark : α) (name : String) (synthetic : Bool)
    (slots : List (Slot (Passage α))) :
    annotate registry (.call mark name synthetic slots) =
      .call (gist registry slots) name synthetic (slots.map (·.map (annotate registry))) := by
  rw [annotate]
  rfl

@[simp] theorem annotate_text (mark : α) (words : String) :
    annotate registry (.text mark words) = .text silent words := by
  rw [annotate]

@[simp] theorem isBlank_annotate : (p.annotate registry).isBlank = p.isBlank := by
  cases p <;> rw [annotate] <;> rfl

@[simp] theorem container?_annotate (registry' : Registry) :
    (p.annotate registry').container? registry owner = p.container? registry owner := by
  cases p <;> rw [annotate] <;> rfl

-- ----------------------------------------------------------------------------
-- The container around a row
-- ----------------------------------------------------------------------------

theorem map_annotate_impliedSlots (names : List String) (content : Option (List (Passage α))) :
    (impliedSlots fresh names content).map (·.map (annotate registry)) =
      impliedSlots silent names (content.map (·.map (annotate registry))) := by
  induction names generalizing content with
  | nil => rfl
  | cons name names ih =>
    simp only [impliedSlots]
    by_cases hname : name = "content"
    · rcases content with - | - | ⟨p, ps⟩
      all_goals
        simp only [hname, if_true, Option.map_none, Option.map_some, List.map_nil, List.map_cons, ih]
        simp [Slot.map]
    · simp only [hname, if_false, List.map_cons, ih]
      simp [Slot.map]

/-- A new macro is given its content alone, which is no part of a gist. -/
theorem gist_impliedSlots (names : List String) (content : Option (List (Passage α))) :
    gist registry (impliedSlots fresh names content) = silent := by
  refine List.map_congr_left fun name hname => ?_
  have hother : name ≠ "content" := by
    rintro rfl
    exact absurd hname (by decide)
  rw [Prod.mk.injEq, charsAt_eq, supplies]
  induction names generalizing content with
  | nil => exact ⟨rfl, rfl⟩
  | cons first names ih =>
    rw [impliedSlots]
    by_cases hfirst : first = "content"
    · have hne : (first == name) = false := by simpa [hfirst] using hother.symm
      rcases content with - | - | ⟨p, ps⟩ <;> simpa [hfirst, hother.symm] using ih _
    · simp only [hfirst, if_false]
      by_cases hsame : first = name
      · simp [hsame]
      · simpa [hsame] using ih _

theorem annotate_callWith (fresh : α) {d : MacroDef} {synthetic : Bool} :
    (callWith fresh d container synthetic run).annotate registry =
      callWith silent d container synthetic (run.map (annotate registry)) := by
  rw [callWith, annotate_call, gist_impliedSlots, map_annotate_impliedSlots]
  rfl

theorem charsAt_congr {name : String} {supplied : Bool} {content content' : List (Passage α)}
    (h : charsOf registry content' = charsOf registry content) :
    charsAt registry (before ++ ⟨name, supplied, content'⟩ :: after) =
      charsAt registry (before ++ ⟨name, supplied, content⟩ :: after) := by
  funext argument
  simp [charsAt, h]

theorem gist_congr {name : String} {supplied : Bool} {content content' : List (Passage α)}
    (h : charsOf registry content' = charsOf registry content) :
    gist registry (before ++ ⟨name, supplied, content'⟩ :: after) =
      gist registry (before ++ ⟨name, supplied, content⟩ :: after) := by
  refine List.map_congr_left fun argument _ => ?_
  rw [charsAt_congr h, supplies, supplies, List.find?_append, List.find?_append]
  cases before.find? (·.name == argument) with
  | some slot => rfl
  | none => cases hname : name == argument <;> simp [hname]

theorem Run.charsOf_callWith (fresh : α) (hshow : registry.Showing) {d : MacroDef} (synthetic : Bool)
    (h : Run registry owner container front run back) (hget : registry.get? container = some d)
    (hnames : "content" ∈ d.argumentNames) :
    charsOf registry (front ++ callWith fresh d container synthetic run :: back) =
      charsOf registry (front ++ run ++ back) := by
  have himplies : registry.Implies container := by
    obtain ⟨first, -, -, -, hfirst, -⟩ := h.ends
    exact implies_of_container? hfirst
  have hchars : (callWith fresh d container synthetic run).chars registry = charsOf registry run := by
    rw [callWith, chars_call, hget]
    exact (Rendering.chars_of_showsContent (hshow container d himplies hget)).trans
      (charsAt_impliedSlots hnames)
  simp [hchars]

theorem Enclosed.chars_eq (hshow : registry.Showing) (h : Enclosed registry fresh p q) :
    q.chars registry = p.chars registry := by
  induction h with
  | row hrun hget hnames _ =>
    rw [chars_call, chars_call]
    have hcontent := hrun.charsOf_callWith fresh hshow false hget hnames
    rw [charsAt_congr hcontent]
  | @inside mark owner name synthetic supplied before after front back p q _ ih =>
    have hcontent : charsOf registry (front ++ q :: back) = charsOf registry (front ++ p :: back) := by
      simp [ih]
    rw [chars_call, chars_call, charsAt_congr hcontent]

/-- With the container around a row the gists are the same, and it says nothing of its own. -/
theorem Enclosed.annotate (hshow : registry.Showing) (h : Enclosed registry fresh p q) :
    Enclosed registry silent (p.annotate registry) (q.annotate registry) := by
  induction h with
  | @row mark owner container name synthetic supplied d before after front run back hrun hget hnames
      houter =>
    have hcontent := hrun.charsOf_callWith fresh hshow false hget hnames
    rw [annotate_call, annotate_call, gist_congr hcontent]
    simp only [List.map_append, List.map_cons, Slot.map, annotate_callWith]
    refine .row (hrun.map (fun _ => isBlank_annotate) fun _ => container?_annotate registry) hget hnames
      fun outer hasks => (houter outer ?_).map (fun _ => isBlank_annotate)
        fun _ => container?_annotate registry
    rwa [← annotate_callWith fresh, container?_annotate] at hasks
  | @inside mark owner name synthetic supplied before after front back p q h ih =>
    have hcontent : charsOf registry (front ++ q :: back) = charsOf registry (front ++ p :: back) := by
      simp [h.chars_eq hshow]
    rw [annotate_call, annotate_call, gist_congr hcontent]
    simp only [List.map_append, List.map_cons, Slot.map]
    exact .inside ih

end Passage

-- ----------------------------------------------------------------------------
-- Documents
-- ----------------------------------------------------------------------------

open Passage (gist annotate silent)

namespace Tree

variable {t : Tree} {id : NodeId} {registry : Registry}

/-- The gist of the macro at a node. What is no macro has none. -/
def gist (registry : Registry) (t : Tree) (id : NodeId) : Gist :=
  Passage.gist registry (t.bare id).slots

theorem gist_of_ge (h : t.size ≤ id) : t.gist registry id = silent := by
  have hnone : t.get? id = none := Array.getElem?_eq_none h
  rw [gist, bare, passage_of_none hnone]
  rfl

theorem Acyclic.passage_gist (h : t.Acyclic) (hid : id < t.size) :
    t.passage (t.gist registry) id = (t.bare id).annotate registry := by
  refine h.induction (motive := fun id =>
    t.passage (t.gist registry) id = (t.bare id).annotate registry) (fun id hid ih => ?_) hid
  obtain ⟨kind, hface⟩ := exists_face? hid
  have hgist : t.gist registry id = Passage.gist registry (kind.passage () t.bare).slots := by
    rw [gist, h.bare_eq hface]
  rw [h.passage_eq hface, h.bare_eq hface, hgist]
  cases kind with
  | call call =>
    rw [NodeKind.passage, NodeKind.passage, Passage.annotate_call]
    simp only [Passage.slots, List.map_map]
    refine congrArg _ (List.map_congr_left fun argument hargument => ?_)
    refine congrArg (Slot.mk _ _) ?_
    simp only [Argument.slot, List.map_map]
    refine List.map_congr_left fun child hchild => ih child ?_
    rw [below_of_face? hface]
    exact List.mem_flatMap.mpr ⟨argument, hargument, hchild⟩
  | _ =>
    rw [NodeKind.passage, NodeKind.passage, annotate]
    rfl

end Tree

/-- The macros of a finished document with what was read of them when they were visited. -/
def Analysis.gists (registry : Registry) (a : Analysis) (source : String) : Passage Gist :=
  a.tree.passage ((parse registry (tokenize source).tokens).tree.gist registry) a.tree.root

theorem analyze_gists {registry : Registry} (hr : registry.Coherent) (document source : String)
    {depth : Nat}
    (hdepth : Assembly.depthBound (parse registry (tokenize source).tokens).tree ≤ depth) :
    (analyze registry document source).gists registry source =
      ((readPassage registry source).annotate registry).settle registry silent depth true := by
  have hsettles := analyze_settlesTo hr document source
  have hpassage := hsettles.passage ((parse registry (tokenize source).tokens).tree.gist registry)
    (fun _ hid => Tree.gist_of_ge hid) hdepth
  rw [hsettles.before.passage_gist hsettles.root_lt] at hpassage
  rw [Analysis.gists, hsettles.kept.root_eq]
  exact hpassage

/-- Where the author writes the container around a row, and it would not be put into another one
with what stands beside it, the same macros hold the same texts in the end as without it, and the
same was read of them. -/
theorem enclosed_gists {registry : Registry} (hr : registry.Coherent) (hshow : registry.Showing)
    {source enclosed : String}
    (h : Passage.Enclosed registry () (readPassage registry source) (readPassage registry enclosed))
    (document : String) :
    ((analyze registry document source).gists registry source).plain =
      ((analyze registry document enclosed).gists registry enclosed).plain := by
  -- one depth that is enough for both documents
  let bound (source : String) := Assembly.depthBound (parse registry (tokenize source).tokens).tree
  let both := bound source + bound enclosed
  have hsource := fun depth (hdepth : both ≤ depth) =>
    (analyze_gists hr document source (Nat.le_of_add_right_le hdepth)).symm
  have henclosed := fun depth (hdepth : both ≤ depth) =>
    (analyze_gists hr document enclosed (Nat.le_of_add_left_le hdepth)).symm
  rw [← hsource both (Nat.le_refl _), ← henclosed both (Nat.le_refl _)]
  apply (h.annotate hshow).akin.plain_settle
  · intro depth hdepth
    rw [hsource depth hdepth, hsource both (Nat.le_refl _)]
  · intro depth hdepth
    rw [henclosed depth hdepth, henclosed both (Nat.le_refl _)]

end Macromark
