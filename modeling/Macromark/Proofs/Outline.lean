import Macromark.Outline.HeaderTree
import Mathlib.Data.List.Basic

/-!
# What stands under a header

A header is open up to the next one at its own level or above. The open headers
have rising levels, so that closing some of them cuts the chain of a header tree
(`HeaderTree.close_root`), and the chain is that of the headers that nothing has
closed.
-/

namespace Macromark

variable {α β : Type} {level? : α → Option Level} {a b : α} {front back last : List α}

-- ----------------------------------------------------------------------------
-- Open headers
-- ----------------------------------------------------------------------------

namespace Outline

def isOpen (level? : α → Option Level) (a : α) (behind : List α) : Bool :=
  (level? a).any fun level => behind.all fun b => (level? b).all (level < ·)

def enclosing (level? : α → Option Level) (last : List α) : List α → List α
  | [] => []
  | a :: rest =>
    if isOpen level? a (rest ++ last) then a :: enclosing level? last rest
    else enclosing level? last rest

theorem isOpen_append (level? : α → Option Level) (a : α) (front back : List α) :
    isOpen level? a (front ++ back) = (isOpen level? a front && isOpen level? a back) := by
  unfold isOpen
  cases level? a <;> simp

theorem isOpen_iff : isOpen level? a last = true ↔ ∃ level, level? a = some level ∧
    ∀ b ∈ last, ∀ other, level? b = some other → level < other := by
  unfold isOpen
  cases level? a with
  | none => simp
  | some level => simp [Option.all_eq_true]

theorem enclosing_append (level? : α → Option Level) (last front back : List α) :
    enclosing level? last (front ++ back) =
      enclosing level? (back ++ last) front ++ enclosing level? last back := by
  induction front with
  | nil => rfl
  | cons a front ih =>
    rw [List.cons_append, enclosing, enclosing, ih, List.append_assoc]
    split <;> rfl

theorem enclosing_last (level? : α → Option Level) (last before : List α) :
    enclosing level? last before =
      (enclosing level? [] before).filter fun a => isOpen level? a last := by
  induction before with
  | nil => rfl
  | cons a before ih =>
    rw [enclosing, enclosing, List.append_nil, isOpen_append, ih]
    cases hopen : isOpen level? a before with
    | true => cases hlast : isOpen level? a last <;> simp [hlast]
    | false => simp

/-- A header encloses `last` if no header behind it, up to `last`, is at its level or above. -/
theorem mem_enclosing {before : List α} : a ∈ enclosing level? last before ↔
    ∃ front back, before = front ++ a :: back ∧ isOpen level? a (back ++ last) = true := by
  induction before with
  | nil => simp [enclosing]
  | cons b before ih =>
    rw [enclosing]
    constructor
    · intro hmem
      have hcases : (a = b ∧ isOpen level? b (before ++ last) = true) ∨
          a ∈ enclosing level? last before := by
        split at hmem
        · next hopen => exact (List.mem_cons.mp hmem).imp_left fun heq => ⟨heq, hopen⟩
        · exact .inr hmem
      rcases hcases with ⟨rfl, hopen⟩ | hmem
      · exact ⟨[], before, rfl, hopen⟩
      · obtain ⟨front, back, rfl, hopen⟩ := ih.mp hmem
        exact ⟨b :: front, back, rfl, hopen⟩
    · rintro ⟨front, back, hsplit, hopen⟩
      cases front with
      | nil =>
        obtain ⟨rfl, rfl⟩ := List.cons.inj hsplit
        simp [hopen]
      | cons c front =>
        obtain ⟨rfl, rfl⟩ := List.cons.inj hsplit
        have hmem := ih.mpr ⟨front, back, rfl, hopen⟩
        split
        · exact List.mem_cons_of_mem _ hmem
        · exact hmem

/-- Where whatever stands in front is cut off with what stands behind, a cut takes all. -/
theorem dropWhile_eq_filter {p : α → Bool} {l : List α}
    (h : l.Pairwise fun a b => p b = true → p a = true) : l.dropWhile p = l.filter (!p ·) := by
  induction l with
  | nil => rfl
  | cons a l ih =>
    obtain ⟨hfirst, hrest⟩ := List.pairwise_cons.mp h
    cases ha : p a with
    | true => simp [ha, ih hrest]
    | false =>
      have hkept : ∀ b ∈ l, (!p b) = true := fun b hb => by
        cases hb' : p b with
        | true => simp [hfirst b hb hb'] at ha
        | false => rfl
      simp [ha, List.filter_eq_self.mpr hkept]

/-- The levels of open headers rise. -/
theorem pairwise_enclosing (level? : α → Option Level) (last before : List α) :
    (enclosing level? last before).Pairwise fun a b => isOpen level? a [b] = true := by
  induction before with
  | nil => exact .nil
  | cons a before ih =>
    rw [enclosing]
    split
    · next hopen =>
      refine List.pairwise_cons.mpr ⟨fun b hb => ?_, ih⟩
      obtain ⟨front, back, rfl, -⟩ := mem_enclosing.mp hb
      obtain ⟨level, hlevel, hbehind⟩ := isOpen_iff.mp hopen
      exact isOpen_iff.mpr ⟨level, hlevel, fun c hc => hbehind c (by simp_all)⟩
    · exact ih

theorem enclosing_of_none (hnone : level? b = none) (before : List α) :
    enclosing level? [b] before = enclosing level? [] before := by
  rw [enclosing_last]
  refine List.filter_eq_self.mpr fun a ha => isOpen_iff.mpr ?_
  obtain ⟨front, back, -, hopen⟩ := mem_enclosing.mp ha
  obtain ⟨level, hlevel, -⟩ := isOpen_iff.mp hopen
  exact ⟨level, hlevel, by simp [hnone]⟩

theorem enclosing_snoc (level? : α → Option Level) (before : List α) (b : α) :
    enclosing level? [] (before ++ [b]) =
      enclosing level? [b] before ++ if (level? b).isSome then [b] else [] := by
  rw [enclosing_append, List.append_nil]
  cases hlevel : level? b <;> simp [enclosing, isOpen, hlevel]

theorem enclosing_map {f : β → α} {inner? : β → Option Level} {last before : List β}
    (h : ∀ b ∈ before ++ last, level? (f b) = inner? b) :
    enclosing level? (last.map f) (before.map f) = (enclosing inner? last before).map f := by
  induction before with
  | nil => rfl
  | cons b before ih =>
    have hopen : isOpen level? (f b) ((before ++ last).map f) = isOpen inner? b (before ++ last) := by
      rw [Bool.eq_iff_iff, isOpen_iff, isOpen_iff, h b List.mem_cons_self]
      refine exists_congr fun level => and_congr_right fun _ => ?_
      rw [List.forall_mem_map]
      refine forall₂_congr fun c hc => ?_
      rw [h c (List.mem_cons_of_mem _ hc)]
    rw [List.map_cons, enclosing, enclosing, ← List.map_append, hopen,
      ih fun c hc => h c (List.mem_cons_of_mem _ hc)]
    split <;> rfl

/-- A chain of all that is open is cut by a header to what is open at it. -/
theorem map_dropWhile {ids : List β} {γ : Type} {info : β → Level × γ} {f : α → Level × γ}
    {level : Level} {before : List α} (hf : ∀ a, (f a).1 = (level? a).getD 0)
    (hids : ids.map info = ((enclosing level? [] before).map f).reverse)
    (hlevel : level? b = some level) :
    (ids.dropWhile fun id => level ≤ (info id).1).map info =
      ((enclosing level? [b] before).map f).reverse := by
  have hown : ∀ a ∈ enclosing level? [] before, level? a = some (f a).1 := by
    intro a ha
    obtain ⟨front, back, -, hopen⟩ := mem_enclosing.mp ha
    obtain ⟨own, hown, -⟩ := isOpen_iff.mp hopen
    rw [hf, hown, Option.getD_some]
  have hopen : ∀ a ∈ enclosing level? [] before,
      isOpen level? a [b] = !decide (level ≤ (f a).1) := by
    intro a ha
    rw [Bool.eq_iff_iff, isOpen_iff, hown a ha]
    simp [hlevel, UInt64.not_le]
  have hrise : ((enclosing level? [] before).map f).reverse.Pairwise fun x y =>
      decide (level ≤ y.1) = true → decide (level ≤ x.1) = true := by
    rw [List.pairwise_reverse, List.pairwise_map]
    refine (pairwise_enclosing level? [] before).imp_of_mem fun {a c} ha hc hac => ?_
    obtain ⟨own, hlower, hbehind⟩ := isOpen_iff.mp hac
    obtain rfl := Option.some.inj ((hown a ha).symm.trans hlower)
    have hlt := hbehind c List.mem_cons_self _ (hown c hc)
    simpa using fun hle => UInt64.le_trans hle (UInt64.le_of_lt hlt)
  rw [← hids] at hrise
  have hcut := dropWhile_eq_filter hrise
  rw [List.dropWhile_map, hids, List.filter_reverse, List.filter_map] at hcut
  rw [enclosing_last, List.filter_congr hopen]
  exact hcut

end Outline

-- ----------------------------------------------------------------------------
-- Header trees
-- ----------------------------------------------------------------------------

namespace HeaderTree

variable {h : HeaderTree} {node : NodeId} {level : Level} {id : HeaderId}

def outline (h : HeaderTree) : List (Option NodeId × Level) :=
  h.nodes.toList.map fun header => (header.node, header.level)

def levelOf? (h : HeaderTree) (node : NodeId) : Option Level :=
  (h.headers.find? (·.2.node == some node)).map (·.2.level)

theorem length_outline (h : HeaderTree) : h.outline.length = h.nodes.size := by
  simp [outline]

theorem level_eq (h : HeaderTree) (id : HeaderId) :
    h.level id = ((h.outline[id]?).map (·.2)).getD 0 := by
  simp [level, get?, outline, Option.map_map, Function.comp_def]

theorem levelOf?_eq (h : HeaderTree) (node : NodeId) :
    h.levelOf? node = ((h.outline.drop 1).find? (·.1 == some node)).map (·.2) := by
  have hheaders : h.headers.map (fun entry => (entry.2.node, entry.2.level)) = h.outline.drop 1 := by
    unfold headers outline
    rw [List.map_drop, List.map_map]
    conv_rhs => rw [← List.zipIdx_map_fst 0 h.nodes.toList, List.map_map]
    rfl
  rw [← hheaders, List.find?_map, Option.map_map]
  rfl

theorem outline_enter (h : HeaderTree) (node : NodeId) (level : Level) :
    (h.enter node level).2.outline = h.outline ++ [(some node, level)] := by
  have hmodify : ∀ (nodes : Array HeaderNode) (parent id : HeaderId),
      (nodes.modify parent fun entry => { entry with children := entry.children ++ [id] }).toList.map
        (fun header => (header.node, header.level)) =
      nodes.toList.map fun header => (header.node, header.level) := by
    intro nodes parent id
    refine List.ext_getElem? fun i => ?_
    rw [List.getElem?_map, List.getElem?_map, Array.getElem?_toList, Array.getElem?_toList,
      Array.getElem?_modify]
    split
    · cases nodes[i]? <;> rfl
    · rfl
  unfold outline enter
  rw [hmodify, Array.toList_push, List.map_append]
  rfl

theorem level_enter (h : HeaderTree) (node : NodeId) (level : Level) {id : HeaderId}
    (hid : id < h.nodes.size) : (h.enter node level).2.level id = h.level id := by
  rw [level_eq, level_eq, outline_enter, List.getElem?_append_left (by rwa [length_outline])]

theorem level_enter_self (h : HeaderTree) (node : NodeId) (level : Level) :
    (h.enter node level).2.level h.nodes.size = level := by
  rw [level_eq, outline_enter, ← length_outline, List.getElem?_concat_length]
  rfl

theorem size_enter (h : HeaderTree) (node : NodeId) (level : Level) :
    (h.enter node level).2.nodes.size = h.nodes.size + 1 := by
  simp [enter]

theorem close_root (h : HeaderTree) (level : Level) (ids : List HeaderId) :
    h.close level (ids ++ [root]) = ids.dropWhile (level ≤ h.level ·) ++ [root] := by
  induction ids with
  | nil => rfl
  | cons id ids ih =>
    obtain ⟨next, rest, hne⟩ := List.exists_cons_of_ne_nil (show ids ++ [root] ≠ [] by simp)
    rw [List.cons_append, hne, close, ← hne, ih, List.dropWhile_cons]
    · by_cases hle : level ≤ h.level id <;> simp [hle]
    · simp

end HeaderTree
end Macromark
