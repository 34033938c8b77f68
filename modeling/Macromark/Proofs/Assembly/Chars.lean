import Macromark.Proofs.Assembly.Untouched

/-!
# What is read in a passage

The characters of a passage, as they are told apart in what settling does to them:
those of the words at its node (`Tree.Acyclic.chars_passage`).
-/

namespace Macromark

variable {α : Type} {registry : Registry} {keep : Char → Bool}

-- ----------------------------------------------------------------------------
-- What is read in a passage
-- ----------------------------------------------------------------------------

/-- What is read of a macro, given what is read in its arguments. -/
def Rendering.chars (argument : String → List Char) : Rendering → List Char
  | .toplevel | .block _ | .inline _ | .code | .table => argument "content"
  | .header | .image => argument "title"
  | .lineBreak => ['\n']
  | .link | .crossReference =>
    if argument "content" = [] then argument "href" else argument "content"
  | .contents | .inclusion => []

def charsIn (read : List (String × List Char)) (argument : String) : List Char :=
  (read.lookup argument).getD []

namespace Passage

variable {p q : Passage α} {ps qs content members : List (Passage α)} {owner container : String}

/-- The characters that are read in a passage. -/
def chars (registry : Registry) (p : Passage α) : List Char :=
  match p with
  | .text _ words => words.toList
  | .paragraphBreak _ => ['\n', '\n']
  | .error .. => []
  | .call _ name _ slots =>
    let read := slots.map fun slot => (slot.name, slot.content.flatMap (chars registry))
    match registry.get? name with
    | some definition => definition.rendering.chars (charsIn read)
    | none => []
termination_by sizeOf p
decreasing_by
  rename_i hslot _ hp
  exact sizeOf_lt_of_slot hslot hp ..

def charsOf (registry : Registry) (ps : List (Passage α)) : List Char := ps.flatMap (chars registry)

def charsAt (registry : Registry) (slots : List (Slot (Passage α))) (argument : String) : List Char :=
  charsIn (slots.map fun slot => (slot.name, charsOf registry slot.content)) argument

theorem chars_call (registry : Registry) (mark : α) (name : String) (synthetic : Bool)
    (slots : List (Slot (Passage α))) :
    chars registry (.call mark name synthetic slots) =
      match registry.get? name with
      | some definition => definition.rendering.chars (charsAt registry slots)
      | none => [] := by
  rw [chars]
  rfl

@[simp] theorem charsOf_nil : charsOf registry ([] : List (Passage α)) = [] := rfl

@[simp] theorem charsOf_cons (p : Passage α) (ps : List (Passage α)) :
    charsOf registry (p :: ps) = p.chars registry ++ charsOf registry ps := rfl

@[simp] theorem charsOf_append (ps qs : List (Passage α)) :
    charsOf registry (ps ++ qs) = charsOf registry ps ++ charsOf registry qs := List.flatMap_append

@[simp] theorem chars_text (mark : α) (words : String) :
    chars registry (.text mark words) = words.toList := by
  rw [chars]

@[simp] theorem chars_paragraphBreak (mark : α) :
    chars registry (.paragraphBreak mark) = ['\n', '\n'] := by
  rw [chars]

@[simp] theorem chars_error (mark : α) (message : String) :
    chars registry (.error mark message) = [] := by
  rw [chars]

theorem charsOf_eq_nil : charsOf registry ps = [] ↔ ∀ p ∈ ps, p.chars registry = [] :=
  List.flatMap_eq_nil_iff

theorem filter_charsOf_congr {f : Passage α → Passage α}
    (h : ∀ p ∈ ps, ((f p).chars registry).filter keep = (p.chars registry).filter keep) :
    (charsOf registry (ps.map f)).filter keep = (charsOf registry ps).filter keep := by
  rw [charsOf, charsOf, List.flatMap_map, List.filter_flatMap, List.filter_flatMap]
  exact List.flatMap_congr h

/-- Without passages in which nothing is read that counts. -/
theorem filter_charsOf_filter {kept : Passage α → Bool}
    (h : ∀ p ∈ ps, kept p = false → (p.chars registry).filter keep = []) :
    (charsOf registry (ps.filter kept)).filter keep = (charsOf registry ps).filter keep := by
  induction ps with
  | nil => rfl
  | cons p ps ih =>
    have hrest := ih fun q hq => h q (List.mem_cons_of_mem _ hq)
    rw [List.filter_cons, charsOf_cons, List.filter_append, ← hrest]
    split
    · rw [charsOf_cons, List.filter_append]
    · next hkept =>
      rw [h p List.mem_cons_self (by simpa using hkept), List.nil_append]

-- ----------------------------------------------------------------------------
-- Arguments
-- ----------------------------------------------------------------------------

theorem charsAt_eq (registry : Registry) (slots : List (Slot (Passage α))) (argument : String) :
    charsAt registry slots argument =
      charsOf registry (((slots.find? (·.name == argument)).map (·.content)).getD []) := by
  unfold charsAt charsIn
  induction slots with
  | nil => rfl
  | cons slot slots ih =>
    rw [List.map_cons, List.lookup_cons, List.find?_cons, Bool.beq_comm]
    cases slot.name == argument with
    | true => rfl
    | false => exact ih

end Passage

namespace Rendering

/-- A macro that is read as its content. -/
def showsContent : Rendering → Bool
  | .toplevel | .block _ | .inline _ | .code | .table => true
  | _ => false

/-- A macro that is read as its target where its content is empty. -/
def links : Rendering → Bool
  | .link | .crossReference => true
  | _ => false

variable {rendering : Rendering} {f g : String → List Char}

theorem chars_of_showsContent (h : rendering.showsContent = true) :
    rendering.chars f = f "content" := by
  cases rendering <;> first | rfl | cases h

theorem links_of_showsContent (h : rendering.showsContent = true) : rendering.links = false := by
  cases rendering <;> first | rfl | cases h

theorem filter_chars (h : ∀ argument, (f argument).filter keep = (g argument).filter keep)
    (hempty : rendering.links = true → (f "content" = [] ↔ g "content" = [])) :
    (rendering.chars f).filter keep = (rendering.chars g).filter keep := by
  cases rendering with
  | link | crossReference =>
    simp only [chars, hempty rfl]
    split <;> exact h _
  | toplevel | block | inline | code | table | header | image => exact h _
  | lineBreak | contents | inclusion => rfl

theorem chars_eq_nil (h : rendering.chars f = []) (hempty : ∀ argument, f argument = [] → g argument = []) :
    rendering.chars g = [] := by
  cases rendering with
  | link | crossReference =>
    simp only [chars] at h ⊢
    split at h
    · next hcontent => rw [if_pos (hempty _ hcontent), hempty _ h]
    · next hcontent => exact absurd h hcontent
  | toplevel | block | inline | code | table | header | image => exact hempty _ h
  | lineBreak => cases h
  | contents | inclusion => rfl

end Rendering

-- ----------------------------------------------------------------------------
-- Trees
-- ----------------------------------------------------------------------------

namespace Tree

variable {t : Tree} {id : NodeId} {label : NodeId → α} {call : MacroCall}

theorem toList_plainTextOfCall (rendering : Rendering) (call : MacroCall) (below : NodeId → String) :
    (plainTextOfCall rendering call below).toList =
      rendering.chars fun argument => (String.join ((call.children argument).map below)).toList := by
  have hline : "\n".toList = ['\n'] := by decide
  cases rendering with
  | link | crossReference =>
    simp only [plainTextOfCall, Rendering.chars, String.toList_eq_nil_iff]
    split <;> rfl
  | lineBreak => exact hline
  | _ => rfl

theorem charsAt_slots {f : NodeId → Passage α} {below : NodeId → String}
    (h : ∀ child ∈ call.allChildren, (f child).chars registry = (below child).toList)
    (argument : String) :
    Passage.charsAt registry (call.arguments.map (·.slot f)) argument =
      (String.join ((call.children argument).map below)).toList := by
  rw [Passage.charsAt_eq, ← call.map_children f argument, Passage.charsOf, List.flatMap_map,
    String.toList_join, List.flatMap_map]
  exact List.flatMap_congr fun child hchild => h child (call.children_subset argument hchild)

theorem Acyclic.chars_passage (h : t.Acyclic) (hid : id < t.size) :
    (t.passage label id).chars registry = (t.plainText registry id).toList := by
  refine h.induction (motive := fun id =>
    (t.passage label id).chars registry = (t.plainText registry id).toList) (fun id hid ih => ?_) hid
  obtain ⟨kind, hface⟩ := exists_face? hid
  rw [h.passage_eq hface, h.plainText_eq hface]
  have hbelow : ∀ child ∈ kind.below,
      (t.passage label child).chars registry = (t.plainText registry child).toList :=
    fun child hchild => ih child (below_of_face? hface ▸ hchild)
  have hbreak : "\n\n".toList = ['\n', '\n'] := by decide
  cases kind with
  | plaintext text => exact Passage.chars_text _ _
  | paragraphBreak => exact (Passage.chars_paragraphBreak _).trans hbreak.symm
  | error => exact Passage.chars_error _ _
  | call call =>
    rw [NodeKind.passage, Passage.chars_call, NodeKind.words]
    cases registry.get? call.name with
    | none => rfl
    | some d =>
      simp only
      rw [toList_plainTextOfCall]
      exact congrArg (d.rendering.chars ·) (funext fun argument => charsAt_slots hbelow argument)

theorem Acyclic.charsAt_passage (h : t.Acyclic) (hcall : t.call? id = some call) (label : NodeId → α)
    (argument : String) :
    Passage.charsAt registry (t.passage label id).slots argument =
      (t.argumentText registry id argument).toList := by
  rw [h.passage_of_call? hcall, argumentText, hcall]
  refine charsAt_slots (fun child hchild => ?_) argument
  have hbelow : child ∈ t.below id := by rwa [below_of_call? hcall]
  exact h.chars_passage (h.inside hbelow)

end Tree
end Macromark
