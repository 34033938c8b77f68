import Macromark.Proofs.Outline
import Mathlib.Data.List.TakeWhile

/-!
# Headers linked one after another

A header stands under the last one before it at a lower level, although `link`
looks at the open headers only: behind a header that has been closed there is
one that is open and at no higher a level (`Above.covered`). `Stacked` is what
one link keeps, and `linkAll_nearestTree` describes the whole tree by the levels
of its headers.

A skipped level is found by a sum of 64 bits, which is exact or breaks the run
off: a header at the greatest level of all can only be the last one
(`linkAll_skipped`).
-/

namespace Macromark.HeaderTree

variable {h : HeaderTree} {node : NodeId} {level : Level} {id parent last k : Nat}
variable {above : List Nat}

/-- Enters headers in turn. -/
def enterAll (h : HeaderTree) : List (NodeId × Level) → HeaderTree
  | [] => h
  | (node, level) :: rest => (h.enter node level).2.enterAll rest

/-- Links headers in turn. The result is what every single link reports, and the tree at the end. -/
def linkAll (h : HeaderTree) : List (NodeId × Level) → Except Abort (List Linked × HeaderTree)
  | [] => .ok ([], h)
  | (node, level) :: rest => do
    let (linked, next) ← h.link node level
    let (others, last) ← next.linkAll rest
    return (linked :: others, last)

theorem outline_enterAll (h : HeaderTree) (calls : List (NodeId × Level)) :
    (h.enterAll calls).outline = h.outline ++ calls.map fun call => (some call.1, call.2) := by
  induction calls generalizing h with
  | nil => simp [enterAll]
  | cons call calls ih => simp [enterAll, ih, outline_enter]

-- ----------------------------------------------------------------------------
-- The headers above a header
-- ----------------------------------------------------------------------------

def parent? (h : HeaderTree) (id : HeaderId) : Option HeaderId := (h.get? id).bind (·.parent)

/-- The headers above one another from `id` up to the whole document, nearest first. -/
inductive Above (h : HeaderTree) : HeaderId → List HeaderId → Prop
  | document : Above h root []
  | under {id parent : HeaderId} {above : List HeaderId} :
      h.parent? id = some parent → Above h parent above → Above h id (parent :: above)

/-- Headers under the last one before them at a lower level, and the last of them open. -/
structure Stacked (h : HeaderTree) : Prop where
  root : h.parent? root = none ∧ h.level root = 0
  header : ∀ id : Nat, 0 < id → id < h.nodes.size → ∃ parent, h.parent? id = some parent
  nearest : ∀ id parent : Nat, h.parent? id = some parent → parent < id ∧
    h.level parent < h.level id ∧ ∀ k : Nat, parent < k → k < id → h.level id ≤ h.level k
  children : ∀ id entry, h.get? id = some entry →
    entry.children = (List.range h.nodes.size).filter (h.parent? · == some id)
  chain : ∃ last above, last + 1 = h.nodes.size ∧ h.chain = last :: above ∧ h.Above last above

theorem lt_of_parent? (hparent : h.parent? id = some parent) : id < h.nodes.size := by
  obtain ⟨entry, hentry, -⟩ := Option.bind_eq_some_iff.mp hparent
  exact (Array.getElem?_eq_some_iff.mp hentry).1

theorem Stacked.exists_above (hs : h.Stacked) (hid : id < h.nodes.size) : ∃ above, h.Above id above := by
  induction id using Nat.strongRecOn with
  | ind id ih =>
    cases id with
    | zero => exact ⟨[], .document⟩
    | succ id =>
      obtain ⟨parent, hparent⟩ := hs.header (id + 1) (Nat.succ_pos _) hid
      have hlt := (hs.nearest _ _ hparent).1
      obtain ⟨above, habove⟩ := ih parent hlt (Nat.lt_trans hlt hid)
      exact ⟨parent :: above, .under hparent habove⟩

/-- A parent has a smaller number, so that the depth of `ancestors` cuts nothing off. -/
theorem Above.ancestors_go (habove : h.Above id above) (hs : h.Stacked) {depth : Nat}
    (hdepth : id < depth) : ancestors.go h depth id = above := by
  induction habove generalizing depth with
  | document =>
    have hnone : (h.get? HeaderTree.root).bind (·.parent) = none := hs.root.1
    cases depth with
    | zero => rfl
    | succ depth => simp only [ancestors.go, hnone]
  | under hparent _ ih =>
    have hsome : (h.get? _).bind (·.parent) = some _ := hparent
    have hlt := (hs.nearest _ _ hparent).1
    cases depth with
    | zero => exact absurd hdepth (Nat.not_lt_zero _)
    | succ depth =>
      simp only [ancestors.go, hsome]
      rw [ih (Nat.lt_of_lt_of_le hlt (Nat.le_of_lt_succ hdepth))]

theorem Above.ancestors (habove : h.Above id above) (hs : h.Stacked) (hid : id < h.nodes.size) :
    h.ancestors id = above := habove.ancestors_go hs hid

theorem Above.getLast? (habove : h.Above id above) :
    (id :: above).getLast? = some root := by
  induction habove with
  | document => rfl
  | under _ _ ih => rw [List.getLast?_cons_cons]; exact ih

/-- Upwards both the numbers and the levels fall. -/
theorem Above.falls (habove : h.Above id above) (hs : h.Stacked) :
    ∀ upper ∈ above, upper < id ∧ h.level upper < h.level id := by
  induction habove with
  | document =>
    intro upper hupper
    cases hupper
  | under hparent _ ih =>
    obtain ⟨hlt, hlevel, -⟩ := hs.nearest _ _ hparent
    intro upper hupper
    cases hupper with
    | head => exact ⟨hlt, hlevel⟩
    | tail _ hupper =>
      obtain ⟨hlt', hlevel'⟩ := ih upper hupper
      exact ⟨Nat.lt_trans hlt' hlt, UInt64.lt_trans hlevel' hlevel⟩

theorem Above.le_of_mem {upper : Nat} (habove : h.Above id above) (hs : h.Stacked)
    (hmem : upper ∈ id :: above) : upper ≤ id := by
  cases hmem with
  | head => exact Nat.le_refl _
  | tail _ hmem => exact Nat.le_of_lt (habove.falls hs upper hmem).1

theorem Above.pairwise (habove : h.Above id above) (hs : h.Stacked) :
    (id :: above).Pairwise fun lower upper => h.level upper < h.level lower := by
  induction habove with
  | document => exact List.pairwise_singleton _ _
  | under hparent habove ih =>
    refine List.pairwise_cons.mpr ⟨fun upper hupper => ?_, ih⟩
    exact ((Above.under hparent habove).falls hs upper hupper).2

theorem Above.covered (habove : h.Above last above) (hs : h.Stacked) (hk : k ≤ last) :
    ∃ c ∈ last :: above, k ≤ c ∧ h.level c ≤ h.level k := by
  induction habove with
  | document =>
    obtain rfl := Nat.le_zero.mp hk
    exact ⟨_, List.mem_cons_self, Nat.le_refl _, UInt64.le_refl _⟩
  | @under last parent above hparent _ ih =>
    rcases Nat.lt_or_ge parent k with hbehind | hbefore
    · rcases Nat.lt_or_eq_of_le hk with hlt | rfl
      · exact ⟨last, List.mem_cons_self, hk, (hs.nearest _ _ hparent).2.2 k hbehind hlt⟩
      · exact ⟨_, List.mem_cons_self, hk, UInt64.le_refl _⟩
    · obtain ⟨c, hc, hkc, hlevel⟩ := ih hbefore
      exact ⟨c, List.mem_cons_of_mem _ hc, hkc, hlevel⟩

/-- The open headers behind one of them are those above it. -/
theorem Above.suffix {behind : List Nat} (habove : h.Above last above)
    (hsuffix : parent :: behind <:+ last :: above) : h.Above parent behind := by
  induction habove with
  | document =>
    rcases List.suffix_cons_iff.mp hsuffix with heq | hnil
    · obtain ⟨rfl, rfl⟩ := List.cons.inj heq
      exact .document
    · cases List.suffix_nil.mp hnil
  | under hparent habove ih =>
    rcases List.suffix_cons_iff.mp hsuffix with heq | hbehind
    · obtain ⟨rfl, rfl⟩ := List.cons.inj heq
      exact .under hparent habove
    · exact ih hbehind

-- ----------------------------------------------------------------------------
-- What is closed
-- ----------------------------------------------------------------------------

/-- The whole document is never closed. -/
theorem close_eq (hlevel : h.level root < level) (ids : List HeaderId)
    (hlast : ids.getLast? = some root) :
    h.close level ids = ids.dropWhile (level ≤ h.level ·) := by
  obtain ⟨front, rfl⟩ := List.getLast?_eq_some_iff.mp hlast
  have hopen : decide (level ≤ h.level root) = false := by simpa [UInt64.not_le] using hlevel
  rw [close_root]
  clear hlast
  induction front with
  | nil => simp [hopen]
  | cons id front ih =>
    rw [List.cons_append, List.dropWhile_cons, List.dropWhile_cons]
    split
    · exact ih
    · rfl

/-- What a new header stands under is at a lower level, and no header behind it is. -/
theorem Stacked.close (hs : h.Stacked) (hlevel : 0 < level) :
    ∃ parent above : _, h.close level h.chain = parent :: above ∧ h.Above parent above ∧
      parent < h.nodes.size ∧ h.level parent < level ∧
      ∀ k : Nat, parent < k → k < h.nodes.size → level ≤ h.level k := by
  obtain ⟨last, above, hsize, hchain, habove⟩ := hs.chain
  have hlast : last < h.nodes.size := hsize ▸ Nat.lt_succ_self last
  have hroot : h.level HeaderTree.root < level := by rw [hs.root.2]; exact hlevel
  rw [hchain, close_eq hroot _ habove.getLast?]
  have hsplit := List.takeWhile_append_dropWhile (p := (level ≤ h.level ·)) (l := last :: above)
  have hclosed : ∀ c ∈ (last :: above).takeWhile (level ≤ h.level ·), level ≤ h.level c :=
    fun c hc => by simpa using List.mem_takeWhile_imp hc
  have hnext := List.head?_dropWhile_not (level ≤ h.level ·) (last :: above)
  cases hopen : (last :: above).dropWhile (level ≤ h.level ·) with
  | nil =>
    -- the whole document is open in any case
    rw [hopen, List.append_nil] at hsplit
    have hmem : HeaderTree.root ∈ last :: above := List.mem_of_getLast? habove.getLast?
    rw [← hsplit] at hmem
    exact absurd hroot (UInt64.not_lt.mpr (hclosed _ hmem))
  | cons parent behind =>
    rw [hopen] at hsplit hnext
    have hsuffix : parent :: behind <:+ last :: above := ⟨_, hsplit⟩
    have hbehind := habove.suffix hsuffix
    have hinside : parent ≤ last := habove.le_of_mem hs (hsuffix.mem List.mem_cons_self)
    have hlower : h.level parent < level := by simpa [UInt64.not_le] using hnext
    refine ⟨parent, behind, rfl, hbehind, Nat.lt_of_le_of_lt hinside hlast, hlower, fun k hk hlt => ?_⟩
    have hk' : k ≤ last := Nat.le_of_lt_succ (by rwa [← hsize] at hlt)
    obtain ⟨c, hc, hkc, hle⟩ := habove.covered hs hk'
    rw [← hsplit] at hc
    rcases List.mem_append.mp hc with hc | hc
    · exact UInt64.le_trans (hclosed c hc) hle
    · -- an open header that is left has no greater a number than the parent
      have hsmaller : c ≤ parent := hbehind.le_of_mem hs hc
      exact absurd (Nat.lt_of_lt_of_le hk (Nat.le_trans hkc hsmaller)) (Nat.lt_irrefl _)

-- ----------------------------------------------------------------------------
-- One header
-- ----------------------------------------------------------------------------

theorem get?_enter {outer : List HeaderId} (hclose : h.close level h.chain = parent :: outer)
    (hinside : parent < h.nodes.size) (node : NodeId) (id : Nat) :
    (h.enter node level).2.get? id =
      if id = h.nodes.size then some ⟨some node, some parent, [], level⟩
      else if id = parent then
        (h.get? id).map fun entry => { entry with children := entry.children ++ [h.nodes.size] }
      else h.get? id := by
  have hget : (h.enter node level).2.get? id =
      ((h.nodes.push ⟨some node, some parent, [], level⟩).modify parent
        fun entry => { entry with children := entry.children ++ [h.nodes.size] })[id]? := by
    simp [enter, hclose, get?]
  rw [hget, Array.getElem?_modify, Array.getElem?_push, get?]
  by_cases hnew : id = h.nodes.size
  · have hne : parent ≠ h.nodes.size := Nat.ne_of_lt hinside
    simp [hnew, hne]
  · by_cases houter : parent = id
    · simp [houter, hnew]
    · simp [houter, Ne.symm houter, hnew]

theorem parent?_enter {outer : List HeaderId} (hclose : h.close level h.chain = parent :: outer)
    (hinside : parent < h.nodes.size) (node : NodeId) (id : Nat) :
    (h.enter node level).2.parent? id =
      if id = h.nodes.size then some parent else h.parent? id := by
  unfold parent?
  rw [get?_enter hclose hinside]
  split
  · rfl
  · split
    · cases h.get? id <;> rfl
    · rfl

theorem Above.enter {outer : List HeaderId} (habove : h.Above id above) (hs : h.Stacked)
    (hclose : h.close level h.chain = parent :: outer) (hinside : parent < h.nodes.size)
    (hid : id < h.nodes.size) (node : NodeId) : (h.enter node level).2.Above id above := by
  induction habove with
  | document => exact .document
  | under hparent _ ih =>
    have hlt := (hs.nearest _ _ hparent).1
    refine .under ?_ (ih (Nat.lt_trans hlt hid))
    rw [parent?_enter hclose hinside, if_neg (Nat.ne_of_lt hid)]
    exact hparent

/-- The children of the new header's parent go on with it. -/
theorem children_enter {outer : List HeaderId} (hs : h.Stacked)
    (hclose : h.close level h.chain = parent :: outer) (hinside : parent < h.nodes.size)
    (node : NodeId) {id : HeaderId} {entry : HeaderNode}
    (hget : (h.enter node level).2.get? id = some entry) :
    entry.children = (List.range (h.nodes.size + 1)).filter
      ((h.enter node level).2.parent? · == some id) := by
  have hparents := parent?_enter hclose hinside node
  have hold : (List.range h.nodes.size).filter ((h.enter node level).2.parent? · == some id) =
      (List.range h.nodes.size).filter (h.parent? · == some id) := by
    refine List.filter_congr fun child hchild => ?_
    rw [hparents, if_neg (Nat.ne_of_lt (List.mem_range.mp hchild))]
  rw [List.range_succ, List.filter_append, hold]
  rw [get?_enter hclose hinside] at hget
  split at hget
  · next hnew =>
    cases hget
    subst hnew
    -- nothing stands under the last header of all
    have hnone : (List.range h.nodes.size).filter (h.parent? · == some h.nodes.size) = [] := by
      refine List.filter_eq_nil_iff.mpr fun child hchild hparent => ?_
      have hlt := (hs.nearest child _ (by simpa using hparent)).1
      exact Nat.lt_asymm hlt (List.mem_range.mp hchild)
    simp [hnone, hparents, Nat.ne_of_lt hinside]
  · split at hget
    · next hparent =>
      obtain ⟨before, hbefore, rfl⟩ := Option.map_eq_some_iff.mp hget
      simp [hs.children id before hbefore, hparents, hparent]
    · next hother =>
      simp [hs.children id entry hget, hparents, Ne.symm hother]

theorem stacked_new (document : Option NodeId) : (new document).Stacked := by
  refine ⟨⟨rfl, rfl⟩, fun id hpos hid => ?_, fun id parent hparent => ?_, fun id entry hget => ?_,
    0, [], rfl, rfl, .document⟩
  · exact absurd (Nat.lt_of_lt_of_le hid hpos) (Nat.lt_irrefl _)
  · obtain rfl : id = 0 := Nat.lt_one_iff.mp (lt_of_parent? hparent)
    cases hparent
  · obtain rfl : id = 0 := Nat.lt_one_iff.mp (Array.getElem?_eq_some_iff.mp hget).1
    cases hget
    rfl

theorem Stacked.enter (hs : h.Stacked) (node : NodeId) (hlevel : 0 < level) :
    (h.enter node level).2.Stacked := by
  obtain ⟨parent, outer, hclose, houter, hinside, hlower, hbehind⟩ := hs.close hlevel
  have hparents := parent?_enter hclose hinside node
  have hsize := size_enter h node level
  have hold : ∀ id : Nat, id < h.nodes.size → (h.enter node level).2.parent? id = h.parent? id :=
    fun id hid => by rw [hparents, if_neg (Nat.ne_of_lt hid)]
  have hnew : (h.enter node level).2.parent? h.nodes.size = some parent := by
    rw [hparents, if_pos rfl]
  have hlevels : ∀ id : Nat, id < h.nodes.size → (h.enter node level).2.level id = h.level id :=
    fun id hid => level_enter h node level hid
  have hpositive : 0 < h.nodes.size := Nat.lt_of_le_of_lt (Nat.zero_le _) hinside
  have hroot : (h.enter node level).2.parent? HeaderTree.root = h.parent? HeaderTree.root :=
    hold _ hpositive
  refine ⟨⟨hroot ▸ hs.root.1, (hlevels _ hpositive).trans hs.root.2⟩, ?_, ?_, ?_, ?_⟩
  · intro id hpos hid
    rcases Nat.lt_succ_iff_lt_or_eq.mp (hsize ▸ hid) with hid | rfl
    · rw [hold id hid]
      exact hs.header id hpos hid
    · exact ⟨parent, hnew⟩
  · intro id owner howner
    rcases Nat.lt_succ_iff_lt_or_eq.mp (hsize ▸ lt_of_parent? howner) with hid | rfl
    · rw [hold id hid] at howner
      obtain ⟨hlt, hlevel, hbetween⟩ := hs.nearest id owner howner
      rw [hlevels id hid, hlevels owner (Nat.lt_trans hlt hid)]
      refine ⟨hlt, hlevel, fun k hk hkid => ?_⟩
      rw [hlevels k (Nat.lt_trans hkid hid)]
      exact hbetween k hk hkid
    · obtain rfl := Option.some.inj (hnew.symm.trans howner)
      rw [level_enter_self, hlevels parent hinside]
      refine ⟨hinside, hlower, fun k hk hlt => ?_⟩
      rw [hlevels k hlt]
      exact hbehind k hk hlt
  · intro id entry hget
    rw [hsize]
    exact children_enter hs hclose hinside node hget
  · refine ⟨h.nodes.size, parent :: outer, hsize.symm, ?_, .under hnew ?_⟩
    · simp [HeaderTree.enter, hclose]
    · exact houter.enter hs hclose hinside hinside node

theorem Stacked.enterAll {calls : List (NodeId × Level)} (hs : h.Stacked)
    (hpositive : ∀ call ∈ calls, 0 < call.2) : (h.enterAll calls).Stacked := by
  induction calls generalizing h with
  | nil => exact hs
  | cons call calls ih =>
    refine ih (hs.enter call.1 (hpositive call List.mem_cons_self)) fun later hlater => ?_
    exact hpositive later (List.mem_cons_of_mem _ hlater)

-- ----------------------------------------------------------------------------
-- All headers
-- ----------------------------------------------------------------------------

/-- What the `i`-th of several headers stands under: the last header before it at a lower level, or
the whole document if there is none. -/
inductive Nearest (calls : List (NodeId × Level)) (i : Fin calls.length) : HeaderId → Prop
  | header (j : Fin calls.length) : j < i → calls[j].2 < calls[i].2 →
      (∀ k, j < k → k < i → calls[i].2 ≤ calls[k].2) → Nearest calls i (j + 1)
  | document : (∀ k, k < i → calls[i].2 ≤ calls[k].2) → Nearest calls i root

/-- The tree of the headers `calls`, of which the `i`-th has the number `i + 1`. -/
structure NearestTree (document : Option NodeId) (calls : List (NodeId × Level))
    (h : HeaderTree) : Prop where
  size : h.nodes.size = calls.length + 1
  root : ∃ children, h.get? root = some ⟨document, none, children, 0⟩
  header : ∀ i : Fin calls.length, ∃ parent children,
    h.get? (i + 1) = some ⟨some calls[i].1, some parent, children, calls[i].2⟩ ∧
      Nearest calls i parent
  /-- In the order in which they were linked. -/
  children : ∀ id entry, h.get? id = some entry →
    entry.children = (List.range h.nodes.size).filter (h.parent? · == some id)
  current : h.current = calls.length
  openChain : h.openChain = (h.ancestors h.current).reverse ++ [h.current]
  rising : (h.openChain.map h.level).Pairwise (· < ·)
  ancestors : ∀ i : Fin calls.length, (h.ancestors (i + 1)).getLast? = some HeaderTree.root

section
variable {document : Option NodeId} {calls : List (NodeId × Level)}

section
variable (houtline : h.outline = (document, 0) :: calls.map fun call => (some call.1, call.2))
include houtline

theorem size_of_outline : h.nodes.size = calls.length + 1 := by
  rw [← length_outline, houtline, List.length_cons, List.length_map]

theorem get?_of_outline (i : Fin calls.length) :
    ∃ entry, h.get? (i + 1) = some entry ∧ entry.node = some calls[i].1 ∧
      entry.level = calls[i].2 := by
  have hat := congrArg (·[(i : Nat) + 1]?) houtline
  simp only [outline, List.getElem?_map, Array.getElem?_toList, List.getElem?_cons_succ, i.isLt,
    List.getElem?_eq_getElem, Option.map_some] at hat
  obtain ⟨entry, hget, hboth⟩ := Option.map_eq_some_iff.mp hat
  exact ⟨entry, hget, (Prod.mk.inj hboth).1, (Prod.mk.inj hboth).2⟩

theorem level_of_outline (i : Fin calls.length) : h.level (i + 1) = calls[i].2 := by
  obtain ⟨entry, hget, -, hlevel⟩ := get?_of_outline houtline i
  rw [level, hget, ← hlevel]
  rfl

theorem Stacked.nearest_of_parent? (hs : h.Stacked) {i : Fin calls.length}
    (hparent : h.parent? (i + 1) = some parent) : Nearest calls i parent := by
  have hlevel := level_of_outline houtline
  obtain ⟨hlt, hlower, hbetween⟩ := hs.nearest _ _ hparent
  rw [hlevel i] at hlower hbetween
  cases parent with
  | zero =>
    refine .document fun k hk => ?_
    rw [← hlevel k]
    exact hbetween (k + 1) (Nat.succ_pos _) (Nat.succ_lt_succ hk)
  | succ j =>
    have hj : j < i := Nat.lt_of_succ_lt_succ hlt
    have hcalls : j < calls.length := Nat.lt_trans hj i.isLt
    refine .header ⟨j, hcalls⟩ hj (by rwa [← hlevel ⟨j, hcalls⟩]) fun k hjk hki => ?_
    rw [← hlevel k]
    exact hbetween (k + 1) (Nat.succ_lt_succ hjk) (Nat.succ_lt_succ hki)

end

/-- The open headers are the last one and those above it. -/
theorem Stacked.openChain_eq (hs : h.Stacked) :
    h.current + 1 = h.nodes.size ∧ h.openChain = (h.ancestors h.current).reverse ++ [h.current] := by
  obtain ⟨last, above, hlast, hchain, habove⟩ := hs.chain
  have hcurrent : h.current = last := by rw [HeaderTree.current, hchain]; rfl
  rw [hcurrent, habove.ancestors hs (hlast ▸ Nat.lt_succ_self last), HeaderTree.openChain, hchain,
    List.reverse_cons]
  exact ⟨hlast, rfl⟩

theorem Stacked.rising (hs : h.Stacked) : (h.openChain.map h.level).Pairwise (· < ·) := by
  obtain ⟨last, above, -, hchain, habove⟩ := hs.chain
  rw [HeaderTree.openChain, hchain, List.pairwise_map, List.pairwise_reverse]
  exact habove.pairwise hs

theorem Stacked.getLast?_ancestors (hs : h.Stacked) (hpositive : 0 < id) (hid : id < h.nodes.size) :
    (h.ancestors id).getLast? = some HeaderTree.root := by
  obtain ⟨above, habove⟩ := hs.exists_above hid
  rw [habove.ancestors hs hid]
  have hends := habove.getLast?
  cases habove with
  | document => exact absurd hpositive (Nat.lt_irrefl _)
  | under _ _ => rwa [List.getLast?_cons_cons] at hends

theorem Stacked.nearestTree (hs : h.Stacked)
    (houtline : h.outline = (document, 0) :: calls.map fun call => (some call.1, call.2)) :
    NearestTree document calls h := by
  have hsize := size_of_outline houtline
  have hinside : ∀ i : Fin calls.length, (i : Nat) + 1 < h.nodes.size :=
    fun i => hsize ▸ Nat.succ_lt_succ i.isLt
  obtain ⟨hcurrent, hopen⟩ := hs.openChain_eq
  refine ⟨hsize, ?_, fun i => ?_, hs.children, Nat.succ.inj (hcurrent.trans hsize), hopen, hs.rising,
    fun i => hs.getLast?_ancestors (Nat.succ_pos _) (hinside i)⟩
  · have hat := congrArg (·[0]?) houtline
    simp only [outline, List.getElem?_map, Array.getElem?_toList, List.getElem?_cons_zero] at hat
    obtain ⟨⟨node, above, children, level⟩, hget, hboth⟩ := Option.map_eq_some_iff.mp hat
    have habove : above = none := by simpa [parent?, get?, HeaderTree.root, hget] using hs.root.1
    cases hboth
    subst habove
    exact ⟨children, hget⟩
  · obtain ⟨⟨node, above, children, level⟩, hget, hnode, hown⟩ := get?_of_outline houtline i
    obtain ⟨parent, hparent⟩ := hs.header (i + 1) (Nat.succ_pos _) (hinside i)
    have habove : above = some parent := by simpa [parent?, hget] using hparent
    cases hnode
    cases hown
    subst habove
    exact ⟨parent, children, hget, hs.nearest_of_parent? houtline hparent⟩

/-- What is entered later leaves the parents as they are. -/
theorem Stacked.parent?_enterAll (hs : h.Stacked) (hpositive : ∀ call ∈ calls, 0 < call.2)
    (hid : id < h.nodes.size) : (h.enterAll calls).parent? id = h.parent? id := by
  induction calls generalizing h with
  | nil => rfl
  | cons call calls ih =>
    obtain ⟨node, level⟩ := call
    have hlevel : 0 < level := hpositive (node, level) List.mem_cons_self
    obtain ⟨parent, outer, hclose, -, hinside, -⟩ := hs.close hlevel
    have hnext := ih (hs.enter node hlevel)
      (fun later hlater => hpositive later (List.mem_cons_of_mem _ hlater))
      (size_enter h node level ▸ Nat.lt_succ_of_lt hid)
    rw [parent?_enter hclose hinside, if_neg (Nat.ne_of_lt hid)] at hnext
    exact hnext

/-- What follows if several links succeed. -/
theorem linkAll_cons {call : NodeId × Level} {linked : List Linked} {last : HeaderTree} :
    h.linkAll (call :: calls) = .ok (linked, last) ↔
      ∃ skipped others, skip? h.previousLevel call.2 = .ok skipped ∧
        (h.enter call.1 call.2).2.linkAll calls = .ok (others, last) ∧
        linked = { (h.enter call.1 call.2).1 with skipped } :: others := by
  obtain ⟨node, level⟩ := call
  simp only [linkAll, link]
  cases skip? h.previousLevel level with
  | error why => simp [Except.map, bind, Except.bind]
  | ok skipped =>
    simp only [Except.map, bind, Except.bind, pure, Except.pure]
    cases (h.enter node level).2.linkAll calls with
    | error why => simp
    | ok rest =>
      obtain ⟨others, tree⟩ := rest
      simp only [Except.ok.injEq, Prod.mk.injEq]
      constructor
      · rintro ⟨hlinked, rfl⟩
        exact ⟨skipped, others, rfl, ⟨rfl, rfl⟩, hlinked.symm⟩
      · rintro ⟨_, _, rfl, ⟨rfl, rfl⟩, hlinked⟩
        exact ⟨hlinked.symm, rfl⟩

theorem tree_linkAll {linked : List Linked} {tree : HeaderTree}
    (hok : h.linkAll calls = .ok (linked, tree)) :
    tree = h.enterAll calls ∧ linked.length = calls.length := by
  induction calls generalizing h linked with
  | nil =>
    obtain ⟨rfl, rfl⟩ := Prod.mk.inj (Except.ok.inj hok)
    exact ⟨rfl, rfl⟩
  | cons call calls ih =>
    obtain ⟨skipped, others, -, hrest, rfl⟩ := linkAll_cons.mp hok
    obtain ⟨htree, hlength⟩ := ih hrest
    exact ⟨htree, congrArg Nat.succ hlength⟩

/-- Every link reports the number and the parent that its header has in the end. -/
theorem Stacked.linked (hs : h.Stacked) (hpositive : ∀ call ∈ calls, 0 < call.2)
    {all : List Linked} {tree : HeaderTree} (hok : h.linkAll calls = .ok (all, tree)) {i : Nat}
    {linked : Linked} (hlinked : all[i]? = some linked) :
    linked.id = h.nodes.size + i ∧ tree.parent? linked.id = some linked.parent := by
  induction calls generalizing h i all with
  | nil =>
    cases hok
    cases hlinked
  | cons call calls ih =>
    obtain ⟨node, level⟩ := call
    have hlevel : 0 < level := hpositive (node, level) List.mem_cons_self
    have hlater : ∀ later ∈ calls, 0 < later.2 :=
      fun later hlater => hpositive later (List.mem_cons_of_mem _ hlater)
    obtain ⟨parent, outer, hclose, -, hinside, -⟩ := hs.close hlevel
    obtain ⟨skipped, others, -, hrest, rfl⟩ := linkAll_cons.mp hok
    cases i with
    | zero =>
      have hown : (h.enter node level).2.parent? h.nodes.size = some parent := by
        rw [parent?_enter hclose hinside, if_pos rfl]
      obtain rfl : { (h.enter node level).1 with skipped } = linked := Option.some.inj hlinked
      refine ⟨rfl, ?_⟩
      have hnew : h.nodes.size < (h.enter node level).2.nodes.size :=
        size_enter h node level ▸ Nat.lt_succ_self _
      have hkept := (hs.enter node hlevel).parent?_enterAll hlater hnew
      rw [← (tree_linkAll hrest).1] at hkept
      refine hkept.trans (hown.trans ?_)
      simp [HeaderTree.enter, hclose]
    | succ i =>
      obtain ⟨hid, hparent⟩ := ih (hs.enter node hlevel) hlater hrest hlinked
      refine ⟨?_, hparent⟩
      rw [hid, size_enter, Nat.add_assoc, Nat.add_comm 1 i]

/-- Headers stand in the tree of the nearest levels, and every link reports its place there. -/
theorem linkAll_nearestTree (hpositive : ∀ call ∈ calls, 0 < call.2) {all : List Linked}
    {tree : HeaderTree} (hok : (new document).linkAll calls = .ok (all, tree)) :
    NearestTree document calls tree ∧
      ∀ (i : Fin calls.length), ∃ linked, all[i]? = some linked ∧ linked.id = i + 1 ∧
        tree.parent? (i + 1) = some linked.parent := by
  obtain ⟨htree, hlength⟩ := tree_linkAll hok
  have hs : tree.Stacked := htree ▸ (stacked_new document).enterAll hpositive
  refine ⟨hs.nearestTree (htree ▸ outline_enterAll _ _), fun i => ?_⟩
  have hlt : i < all.length := i.isLt.trans_eq hlength.symm
  obtain ⟨hid, hparent⟩ :=
    (stacked_new document).linked hpositive hok (List.getElem?_eq_getElem hlt)
  have hnumber : all[i].id = i + 1 := hid.trans (Nat.add_comm 1 i)
  exact ⟨_, List.getElem?_eq_getElem hlt, hnumber, hnumber ▸ hparent⟩

theorem linkAll_nearestTree_skip :
    ∃ all tree, (new (some 0)).linkAll [(7, 1), (8, 3), (9, 2), (10, 4)] = .ok (all, tree) ∧
      NearestTree (some 0) [(7, 1), (8, 3), (9, 2), (10, 4)] tree :=
  ⟨_, _, rfl, (linkAll_nearestTree (by decide) rfl).1⟩

-- ----------------------------------------------------------------------------
-- Skipped levels
-- ----------------------------------------------------------------------------

def exactSkip (before : Option Level) (level : Level) : Option (Level × Level) :=
  before.bind fun previous =>
    if previous.toNat + 1 < level.toNat then some (previous, level) else none

theorem exactSkip_eq_some {before : Option Level} {previous current : Level} :
    exactSkip before level = some (previous, current) ↔
      before = some previous ∧ level = current ∧ previous.toNat + 1 < current.toNat := by
  cases before with
  | none => simp [exactSkip]
  | some before =>
    simp only [exactSkip, Option.bind_some, Option.ite_none_right_eq_some, Option.some.injEq,
      Prod.mk.injEq]
    constructor
    · rintro ⟨hlt, rfl, rfl⟩
      exact ⟨rfl, rfl, hlt⟩
    · rintro ⟨rfl, rfl, hlt⟩
      exact ⟨hlt, rfl, rfl⟩

theorem skip?_eq_ok {before : Option Level} {skipped : Option (Level × Level)} :
    skip? before level = .ok skipped ↔
      (∀ previous ∈ before, previous.toNat + 1 < UInt64.size) ∧ skipped = exactSkip before level := by
  cases before with
  | none => simp [skip?, exactSkip, eq_comm]
  | some previous =>
    simp only [skip?, Level.next, Option.mem_def, Option.some.injEq, forall_eq', exactSkip,
      Option.bind_some]
    by_cases hfits : previous.toNat + 1 < UInt64.size
    · have hsum : (previous + 1).toNat = previous.toNat + 1 :=
        (UInt64.toNat_add _ _).trans (Nat.mod_eq_of_lt hfits)
      simp [hfits, Except.map, UInt64.lt_iff_toNat_lt, hsum, eq_comm]
    · simp [hfits, Except.map]

/-- A level is compared with the one that was linked before it. -/
theorem skipped_linkAll {linked : List Linked} {tree : HeaderTree}
    (hok : h.linkAll calls = .ok (linked, tree)) :
    linked.map (·.skipped) =
      List.zipWith exactSkip (h.previousLevel :: calls.map (some ·.2)) (calls.map (·.2)) := by
  induction calls generalizing h linked with
  | nil =>
    cases hok
    rfl
  | cons call calls ih =>
    obtain ⟨skipped, others, hskipped, hrest, rfl⟩ := linkAll_cons.mp hok
    simp only [List.map_cons, List.zipWith_cons_cons, ih hrest, (skip?_eq_ok.mp hskipped).2]
    rfl

/-- Only the last level of all is compared with none behind it. -/
theorem exists_linkAll_iff (h : HeaderTree) (calls : List (NodeId × Level)) :
    (∃ linked tree, h.linkAll calls = .ok (linked, tree)) ↔
      ∀ level ∈ (h.previousLevel.toList ++ calls.map (·.2)).dropLast,
        level.toNat + 1 < UInt64.size := by
  induction calls generalizing h with
  | nil => cases h.previousLevel <;> simp [linkAll]
  | cons call calls ih =>
    have hnext := ih (h.enter call.1 call.2).2
    rw [List.map_cons, List.dropLast_append_of_ne_nil (List.cons_ne_nil _ _), List.forall_mem_append]
    simp only [show (h.enter call.1 call.2).2.previousLevel = some call.2 from rfl, Option.toList_some,
      List.singleton_append] at hnext
    rw [← hnext]
    constructor
    · rintro ⟨linked, tree, hok⟩
      obtain ⟨skipped, others, hskipped, hrest, -⟩ := linkAll_cons.mp hok
      exact ⟨fun level hlevel => (skip?_eq_ok.mp hskipped).1 level (Option.mem_toList.mp hlevel),
        others, tree, hrest⟩
    · rintro ⟨hfits, others, tree, hrest⟩
      have hskipped : skip? h.previousLevel call.2 = .ok (exactSkip h.previousLevel call.2) :=
        skip?_eq_ok.mpr ⟨fun level hlevel => hfits level (Option.mem_toList.mpr hlevel), rfl⟩
      exact ⟨_, tree, linkAll_cons.mpr ⟨_, others, hskipped, hrest, rfl⟩⟩

theorem previousLevel_enterAll (h : HeaderTree) (calls : List (NodeId × Level)) :
    (h.enterAll calls).previousLevel = (calls.getLast?.map (·.2)).or h.previousLevel := by
  induction calls generalizing h with
  | nil => rfl
  | cons call calls ih =>
    rw [enterAll, ih, List.getLast?_cons]
    cases calls.getLast? <;> rfl

/-- One more header is linked if the last level has one below it. -/
theorem exists_linkAll_concat (h : HeaderTree) (calls : List (NodeId × Level))
    (call : NodeId × Level) :
    (∃ linked tree, h.linkAll (calls ++ [call]) = .ok (linked, tree)) ↔
      (∃ linked tree, h.linkAll calls = .ok (linked, tree)) ∧
        ∀ previous ∈ (h.enterAll calls).previousLevel, previous.toNat + 1 < UInt64.size := by
  rw [exists_linkAll_iff, exists_linkAll_iff, previousLevel_enterAll, List.map_append,
    ← List.append_assoc, List.map_singleton, List.dropLast_concat]
  rcases List.eq_nil_or_concat' calls with rfl | ⟨front, last, rfl⟩
  · cases h.previousLevel <;> simp
  · rw [List.map_append, List.map_singleton, ← List.append_assoc, List.dropLast_concat,
      List.forall_mem_append, List.getLast?_concat]
    simp

/-- Headers are linked to the end if and only if none at the greatest level of all is followed by
another one. A level is reported then if it exceeds the level before by more than one, and else
not. -/
theorem linkAll_skipped (document : Option NodeId) (calls : List (NodeId × Level)) :
    ((∃ linked tree, (new document).linkAll calls = .ok (linked, tree)) ↔
      ∀ call ∈ calls.dropLast, call.2.toNat + 1 < UInt64.size) ∧
    ∀ linked tree, (new document).linkAll calls = .ok (linked, tree) →
      ∀ (i : Fin calls.length) (previous current : Level),
        (linked[i]?).bind (·.skipped) = some (previous, current) ↔
          ∃ j : Fin calls.length, (j : Nat) + 1 = i ∧ calls[j].2 = previous ∧
            calls[i].2 = current ∧ previous.toNat + 1 < current.toNat := by
  refine ⟨?_, fun linked tree hok i previous current => ?_⟩
  · rw [exists_linkAll_iff, show (new document).previousLevel.toList = [] from rfl,
      List.nil_append, ← List.map_dropLast, List.forall_mem_map]
  obtain ⟨i, hi⟩ := i
  have hlinked : i < linked.length := by rwa [(tree_linkAll hok).2]
  have hat := congrArg (·[i]?) (skipped_linkAll hok)
  simp only [List.getElem?_map, List.getElem?_zipWith, List.getElem?_eq_getElem hi,
    List.getElem?_eq_getElem hlinked, Option.map_some] at hat
  change (linked[i]?).bind (·.skipped) = _ ↔ _
  rw [List.getElem?_eq_getElem hlinked, Option.bind_some]
  cases i with
  | zero =>
    rw [Option.some.inj hat, exactSkip_eq_some]
    constructor
    · rintro ⟨hbefore, -⟩
      cases hbefore
    · rintro ⟨j, hj, -⟩
      cases hj
  | succ i =>
    have hbefore : i < calls.length := Nat.lt_of_succ_lt hi
    rw [List.getElem?_cons_succ, List.getElem?_map, List.getElem?_eq_getElem hbefore] at hat
    rw [Option.some.inj hat, exactSkip_eq_some]
    constructor
    · rintro ⟨hbefore', hcurrent, hlt⟩
      exact ⟨⟨i, hbefore⟩, rfl, Option.some.inj hbefore', hcurrent, hlt⟩
    · rintro ⟨⟨j, hcalls⟩, hj, hprevious, hcurrent, hlt⟩
      obtain rfl : j = i := Nat.succ.inj hj
      exact ⟨congrArg some hprevious, hcurrent, hlt⟩

theorem linkAll_skipped_geese :
    ∃ linked tree, (new none).linkAll [(7, 1), (8, 3)] = .ok (linked, tree) ∧
      (linked[(1 : Fin 2)]?).bind (·.skipped) = some (1, 3) :=
  ⟨_, _, rfl, ((linkAll_skipped none [(7, 1), (8, 3)]).2 _ _ rfl (1 : Fin 2) 1 3).mpr
    ⟨(0 : Fin 2), rfl, rfl, rfl, by decide⟩⟩

end

/-- A level below the greatest one is no skip, but the sum that would tell overflows. -/
theorem overflow_after_greatest :
    (new none).linkAll [(7, 18446744073709551615), (8, 1)] = .error .overflow ∧
      ¬ (18446744073709551615 : Level).toNat + 1 < (1 : Level).toNat := by
  decide

end Macromark.HeaderTree
