import Macromark.Outline.Contents
import Macromark.Proofs.Assembly.Scopes
import Macromark.Proofs.Assembly.Tree
import Macromark.Proofs.Outline.Linking

/-!
# A table of contents repeats the headers

Read entry by entry, a table of contents lists the headers in the order in which
they have been linked (`Contents.build_image`). The reason is the shape that
linking gives to the tree: a header below one of two siblings was linked before
the second of them (`Stacked.lt_sibling`), so that the walk through the children
never turns back. The number of an entry is the path to its header, and paths are
told apart (`number_injective`).
-/

namespace Macromark

-- ----------------------------------------------------------------------------
-- Reading a table of contents
-- ----------------------------------------------------------------------------

namespace ContentsEntry

def id : ContentsEntry → Option String
  | entry id _ _ _ _ => id

def title : ContentsEntry → String
  | entry _ title _ _ _ => title

def level : ContentsEntry → Level
  | entry _ _ level _ _ => level

def path : ContentsEntry → List Nat
  | entry _ _ _ path _ => path

mutual
/-- An entry and those below it from the top to the bottom of the page. -/
def reading : ContentsEntry → List ContentsEntry
  | entry id title level path children =>
    entry id title level path children :: readingAll children
def readingAll : List ContentsEntry → List ContentsEntry
  | [] => []
  | e :: rest => reading e ++ readingAll rest
end

theorem readingAll_eq (entries : List ContentsEntry) :
    readingAll entries = entries.flatMap reading := by
  induction entries with
  | nil => rfl
  | cons e rest ih => rw [readingAll, ih, List.flatMap_cons]

end ContentsEntry

open ContentsEntry (reading readingAll readingAll_eq)

-- ----------------------------------------------------------------------------
-- Numbers
-- ----------------------------------------------------------------------------

namespace Contents

variable {path other : List Nat}

theorem toList_numeral (n : Nat) : (toString n).toList = Nat.toDigits 10 n := by
  simp only [toString, Nat.repr_eq_ofList_toDigits, String.toList_ofList]

theorem not_mem_numeral (n : Nat) : '.' ∉ (toString n).toList := by
  rw [toList_numeral]
  intro hmem
  exact absurd (Nat.isDigit_of_mem_toDigits (by decide) (by decide) hmem) (by decide)

/-- The parts of a number between its dots. -/
theorem splitOn_number (hpath : path ≠ []) :
    (number path).toList.splitOn '.' = path.map fun n => (toString n).toList := by
  rw [number, String.toList_intercalate, List.map_map]
  refine List.splitOn_intercalate '.' ?_ (by simpa using hpath)
  intro part hpart
  obtain ⟨n, -, rfl⟩ := List.mem_map.mp hpart
  exact not_mem_numeral n

theorem number_injective (hpath : path ≠ []) (hother : other ≠ [])
    (h : number path = number other) : path = other := by
  have hparts := splitOn_number hpath
  rw [h, splitOn_number hother] at hparts
  refine (List.map_inj_right fun a b hab => ?_).mp hparts.symm
  have hvalue := congrArg (Nat.ofDigitChars 10 · 0) hab
  simpa only [toList_numeral, Nat.ofDigitChars_ten_toDigits] using hvalue

end Contents

-- ----------------------------------------------------------------------------
-- The walk through the headers
-- ----------------------------------------------------------------------------

namespace HeaderTree

variable {h : HeaderTree} {id parent child : Nat} {depth : Nat}

def children (h : HeaderTree) (id : HeaderId) : List HeaderId :=
  ((h.get? id).map (·.children)).getD []

def place (h : HeaderTree) (id : HeaderId) : Nat :=
  (h.parent? id).elim 0 fun parent => (h.children parent).idxOf id + 1

/-- The places of the headers on the way from the whole document down to a header. -/
def places (h : HeaderTree) (id : HeaderId) : List Nat :=
  ((id :: h.ancestors id).filter (· ≠ root)).reverse.map h.place

def walk (h : HeaderTree) : Nat → HeaderId → List HeaderId
  | 0, _ => []
  | depth + 1, parent => (h.children parent).flatMap fun child => child :: h.walk depth child

/-- Whether the second header is the first one, or stands below it. -/
def Within (h : HeaderTree) : HeaderId → HeaderId → Prop :=
  Relation.ReflTransGen fun upper lower => h.parent? lower = some upper

section
variable (hs : h.Stacked)
include hs

theorem Stacked.mem_children : child ∈ h.children parent ↔ h.parent? child = some parent := by
  unfold HeaderTree.children
  constructor
  · intro hmem
    cases hget : h.get? parent with
    | none => simp [hget] at hmem
    | some entry =>
      rw [hget, Option.map_some, Option.getD_some, hs.children parent entry hget] at hmem
      exact eq_of_beq (List.mem_filter.mp hmem).2
  · intro hparent
    have hlt := lt_of_parent? hparent
    have hinside : parent < h.nodes.size := Nat.lt_trans (hs.nearest _ _ hparent).1 hlt
    have hget : h.get? parent = some h.nodes[parent] := Array.getElem?_eq_getElem hinside
    rw [hget, Option.map_some, Option.getD_some, hs.children parent _ hget]
    exact List.mem_filter.mpr ⟨List.mem_range.mpr hlt, beq_iff_eq.mpr hparent⟩

theorem Stacked.pairwise_children (parent : HeaderId) : (h.children parent).Pairwise (· < ·) := by
  unfold HeaderTree.children
  cases hget : h.get? parent with
  | none => exact .nil
  | some entry =>
    rw [Option.map_some, Option.getD_some, hs.children parent entry hget]
    exact List.pairwise_lt_range.filter _

theorem Stacked.le_of_within (hwithin : h.Within parent id) :
    parent ≤ id ∧ h.level parent ≤ h.level id := by
  induction hwithin with
  | refl => exact ⟨Nat.le_refl _, UInt64.le_refl _⟩
  | tail _ hparent ih =>
    obtain ⟨hlt, hlevel, -⟩ := hs.nearest _ _ hparent
    exact ⟨Nat.le_trans ih.1 (Nat.le_of_lt hlt),
      UInt64.le_trans ih.2 (UInt64.le_of_lt hlevel)⟩

/-- What stands below one of two siblings was linked before the other. -/
theorem Stacked.lt_sibling {first second : Nat} (hfirst : h.parent? first = some parent)
    (hsecond : h.parent? second = some parent) (hlt : first < second)
    (hwithin : h.Within first id) : id < second := by
  induction hwithin with
  | refl => exact hlt
  | @tail upper lower hupper hparent ih =>
    rcases Nat.lt_trichotomy lower second with hbefore | rfl | hbehind
    · exact hbefore
    · -- the second sibling stands under the parent of both, which comes before the first
      obtain rfl := Option.some.inj (hparent.symm.trans hsecond)
      have hafter := (hs.le_of_within hupper).1
      exact absurd (hs.nearest _ _ hfirst).1 (Nat.not_lt.mpr hafter)
    · -- the second sibling would have closed everything from the first one on
      obtain ⟨-, hlevel, hbetween⟩ := hs.nearest _ _ hparent
      have hclosed : h.level second ≤ h.level first :=
        (hs.nearest _ _ hsecond).2.2 first (hs.nearest _ _ hfirst).1 hlt
      have hle : h.level lower ≤ h.level upper :=
        UInt64.le_trans (hbetween second ih hbehind)
          (UInt64.le_trans hclosed (hs.le_of_within hupper).2)
      exact absurd hlevel (UInt64.not_lt.mpr hle)

theorem Stacked.within_of_mem_walk (hmem : id ∈ h.walk depth parent) :
    ∃ child, h.parent? child = some parent ∧ h.Within child id := by
  induction depth generalizing parent with
  | zero => cases hmem
  | succ depth ih =>
    obtain ⟨child, hchild, hmem⟩ := List.mem_flatMap.mp hmem
    have hparent := hs.mem_children.mp hchild
    rcases List.mem_cons.mp hmem with rfl | hmem
    · exact ⟨_, hparent, .refl⟩
    · obtain ⟨lower, hlower, hwithin⟩ := ih hmem
      exact ⟨child, hparent, .head hlower hwithin⟩

/-- Numbers grow downwards, so that a depth up to the last header cuts nothing off. -/
theorem Stacked.mem_walk (hparent : h.parent? child = some parent) (hwithin : h.Within child id)
    (hdepth : id ≤ parent + depth) : id ∈ h.walk depth parent := by
  induction depth generalizing parent child with
  | zero =>
    have hlt := (hs.nearest _ _ hparent).1
    exact absurd (Nat.lt_of_lt_of_le hlt (hs.le_of_within hwithin).1) (Nat.not_lt.mpr hdepth)
  | succ depth ih =>
    refine List.mem_flatMap.mpr ⟨child, hs.mem_children.mpr hparent, ?_⟩
    rcases Relation.ReflTransGen.cases_head hwithin with rfl | ⟨lower, hlower, hwithin⟩
    · exact List.mem_cons_self
    · have hlt := (hs.nearest _ _ hparent).1
      exact List.mem_cons_of_mem _ (ih hlower hwithin (by omega))

theorem Stacked.pairwise_walk (depth : Nat) (parent : HeaderId) :
    (h.walk depth parent).Pairwise (· < ·) := by
  induction depth generalizing parent with
  | zero => exact .nil
  | succ depth ih =>
    have hwithin : ∀ child, ∀ id ∈ child :: h.walk depth child, h.Within child id := by
      intro child id hid
      rcases List.mem_cons.mp hid with rfl | hid
      · exact .refl
      · obtain ⟨lower, hlower, hbelow⟩ := hs.within_of_mem_walk hid
        exact .head hlower hbelow
    refine List.pairwise_flatMap.mpr ⟨fun child _ => ?_, ?_⟩
    · refine List.pairwise_cons.mpr ⟨fun id hid => ?_, ih child⟩
      obtain ⟨lower, hlower, hbelow⟩ := hs.within_of_mem_walk hid
      exact Nat.lt_of_lt_of_le (hs.nearest _ _ hlower).1 (hs.le_of_within hbelow).1
    · refine (hs.pairwise_children parent).imp_of_mem fun {first second} hfirst hsecond hlt => ?_
      intro id hid other hother
      exact Nat.lt_of_lt_of_le
        (hs.lt_sibling (hs.mem_children.mp hfirst) (hs.mem_children.mp hsecond) hlt
          (hwithin first id hid))
        (hs.le_of_within (hwithin second other hother)).1

theorem Stacked.within_root (hid : id < h.nodes.size) : h.Within HeaderTree.root id := by
  induction id using Nat.strongRecOn with
  | ind id ih =>
    cases id with
    | zero => exact .refl
    | succ id =>
      obtain ⟨parent, hparent⟩ := hs.header (id + 1) (Nat.succ_pos _) hid
      have hlt := (hs.nearest _ _ hparent).1
      exact (ih parent hlt (Nat.lt_trans hlt hid)).tail hparent

/-- The walk from the whole document lists the headers in the order in which they were linked. -/
theorem Stacked.walk_root : h.walk h.nodes.size HeaderTree.root = List.range' 1 (h.nodes.size - 1) := by
  have hmem : ∀ id : Nat, id ∈ h.walk h.nodes.size HeaderTree.root ↔ id ∈ List.range' 1 (h.nodes.size - 1) := by
    intro id
    rw [List.mem_range'_1]
    constructor
    · intro hid
      obtain ⟨child, hchild, hwithin⟩ := hs.within_of_mem_walk hid
      have hpos := Nat.lt_of_lt_of_le (hs.nearest _ _ hchild).1 (hs.le_of_within hwithin).1
      have hlt : id < h.nodes.size := by
        rcases Relation.ReflTransGen.cases_tail hwithin with rfl | ⟨upper, -, hparent⟩
        · exact lt_of_parent? hchild
        · exact lt_of_parent? hparent
      exact ⟨hpos, by omega⟩
    · rintro ⟨hpos, hlt⟩
      have hinside : id < h.nodes.size := by omega
      rcases Relation.ReflTransGen.cases_head (hs.within_root hinside) with rfl | ⟨child, hchild, hwithin⟩
      · exact absurd hpos (Nat.not_succ_le_zero 0)
      · exact hs.mem_walk hchild hwithin (by omega)
  have hascends := hs.pairwise_walk h.nodes.size HeaderTree.root
  have hperm : (h.walk h.nodes.size HeaderTree.root).Perm (List.range' 1 (h.nodes.size - 1)) :=
    (List.perm_ext_iff_of_nodup (hascends.imp Nat.ne_of_lt) List.nodup_range').mpr hmem
  refine hperm.eq_of_pairwise (fun a b _ _ hab hba => ?_) hascends List.pairwise_lt_range'
  exact absurd hba (Nat.lt_asymm hab)

-- ----------------------------------------------------------------------------
-- Places
-- ----------------------------------------------------------------------------

theorem Stacked.ne_root (hparent : h.parent? child = some parent) : child ≠ HeaderTree.root := by
  rintro rfl
  exact Nat.not_lt_zero _ (hs.nearest _ _ hparent).1

theorem Stacked.places_root : h.places HeaderTree.root = [] := by
  have hpos : HeaderTree.root < h.nodes.size := by
    obtain ⟨last, -, hsize, -⟩ := hs.chain
    exact hsize ▸ Nat.succ_pos last
  simp [places, Above.document.ancestors hs hpos]

/-- A header is found in its place among the children of its parent. -/
theorem Stacked.places_child (hparent : h.parent? child = some parent) :
    h.places child = h.places parent ++ [h.place child] := by
  have hlt := lt_of_parent? hparent
  obtain ⟨above, habove⟩ := hs.exists_above (Nat.lt_trans (hs.nearest _ _ hparent).1 hlt)
  have hup := habove.ancestors hs (Nat.lt_trans (hs.nearest _ _ hparent).1 hlt)
  have hdown := (Above.under hparent habove).ancestors hs hlt
  rw [places, places, hup, hdown, List.filter_cons_of_pos (by simpa using hs.ne_root hparent),
    List.reverse_cons, List.map_append]
  rfl

theorem Stacked.places_getElem? {i : Nat} (hat : (h.children parent)[i]? = some child) :
    h.places child = h.places parent ++ [i + 1] := by
  have hparent := hs.mem_children.mp (List.mem_of_getElem? hat)
  have hnodup : (h.children parent).Nodup := (hs.pairwise_children parent).imp Nat.ne_of_lt
  obtain ⟨hi, rfl⟩ := List.getElem?_eq_some_iff.mp hat
  rw [hs.places_child hparent, place, hparent, Option.elim_some, hnodup.idxOf_getElem]

theorem Stacked.length_places (hparent : h.parent? child = some parent) :
    (h.places child).length = ((h.ancestors child).filter (· ≠ HeaderTree.root)).length + 1 := by
  simp [places, hs.ne_root hparent]

theorem Stacked.places_injective {first second : Nat} (hfirst : first < h.nodes.size)
    (hsecond : second < h.nodes.size) (heq : h.places first = h.places second) :
    first = second := by
  have hroot : h.places 0 = [] := hs.places_root
  induction first using Nat.strongRecOn generalizing second with
  | ind first ih =>
    rcases Nat.eq_zero_or_pos first with rfl | hpos <;>
      rcases Nat.eq_zero_or_pos second with rfl | hpos'
    · rfl
    · obtain ⟨parent, hparent⟩ := hs.header second hpos' hsecond
      simp [hs.places_child hparent, hroot] at heq
    · obtain ⟨parent, hparent⟩ := hs.header first hpos hfirst
      simp [hs.places_child hparent, hroot] at heq
    · obtain ⟨parent, hparent⟩ := hs.header first hpos hfirst
      obtain ⟨parent', hparent'⟩ := hs.header second hpos' hsecond
      have hlt := (hs.nearest _ _ hparent).1
      have hlt' := (hs.nearest _ _ hparent').1
      rw [hs.places_child hparent, hs.places_child hparent'] at heq
      obtain ⟨hpaths, hplaces⟩ := List.append_inj' heq rfl
      obtain rfl := ih parent hlt (Nat.lt_trans hlt hfirst) (Nat.lt_trans hlt' hsecond) hpaths
      have hindex : (h.children parent).idxOf first = (h.children parent).idxOf second := by
        simpa [place, hparent, hparent'] using hplaces
      exact (List.idxOf_inj (hs.mem_children.mpr hparent)).mp hindex

end
end HeaderTree

-- ----------------------------------------------------------------------------
-- Entries
-- ----------------------------------------------------------------------------

/-- What an entry tells of its header. -/
def ContentsEntry.line (e : ContentsEntry) : Option String × Level × List Nat :=
  (e.id, e.level, e.path)

theorem ContentsEntry.lines_filterMap {α : Type} (f : α → Option ContentsEntry) (l : List α) :
    (readingAll (l.filterMap f)).map line =
      l.flatMap fun a => (f a).elim [] fun e => (reading e).map line := by
  rw [readingAll_eq, List.filterMap_eq_flatMap_toList, List.flatMap_assoc, List.map_flatMap]
  refine List.flatMap_congr fun a _ => ?_
  cases f a <;> simp

namespace Contents

open ContentsEntry (lines_filterMap)
open HeaderTree (Stacked lt_of_parent? size_of_outline get?_of_outline level_of_outline)

variable {h : HeaderTree} {calls : List (NodeId × Level)}

/-- What the entry of a header is to tell. -/
def line (tree : Tree) (headers : HeaderTree) (id : HeaderId) : Option String × Level × List Nat :=
  (((headers.get? id).bind (·.node)).bind tree.id?, headers.level id, headers.places id)

/-- The entries below a header follow the walk below it. -/
theorem lines_entriesUnder (hs : h.Stacked) (registry : Registry) (tree : Tree) (depth : Nat)
    (parent : HeaderId) :
    (readingAll (entriesUnder registry tree h depth (h.places parent) parent)).map
      ContentsEntry.line = (h.walk depth parent).map (line tree h) := by
  induction depth generalizing parent with
  | zero => rfl
  | succ depth ih =>
    cases habove : h.get? parent with
    | none => simp [entriesUnder, HeaderTree.walk, HeaderTree.children, habove, readingAll]
    | some above =>
      have hchildren : above.children = h.children parent := by
        rw [HeaderTree.children, habove, Option.map_some, Option.getD_some]
      rw [entriesUnder, HeaderTree.walk, habove]
      simp only [hchildren]
      rw [lines_filterMap, List.map_flatMap]
      conv_rhs => rw [← List.zipIdx_map_fst 0 (h.children parent), List.flatMap_map]
      refine List.flatMap_congr fun entry hentry => ?_
      have hat := List.mem_zipIdx_iff_getElem?.mp hentry
      have hparent := hs.mem_children.mp (List.mem_of_getElem? hat)
      obtain ⟨header, hheader⟩ : ∃ header, h.get? entry.1 = some header :=
        ⟨_, Array.getElem?_eq_getElem (lt_of_parent? hparent)⟩
      have hline : line tree h entry.1 =
          (header.node.bind tree.id?, header.level, h.places entry.1) := by
        rw [line, HeaderTree.level, hheader]
        rfl
      rw [hheader, Option.map_some, Option.elim_some, ← hs.places_getElem? hat, reading,
        List.map_cons, List.map_cons, ih, hline]
      simp only [ContentsEntry.line, ContentsEntry.id, ContentsEntry.level, ContentsEntry.path,
        Tree.id?_eq]

/-- An entry shows the identifier and the title of its header. -/
theorem exists_header_of_mem {registry : Registry} {tree : Tree} {depth : Nat} {path : List Nat}
    {parent : HeaderId} {e : ContentsEntry}
    (he : e ∈ readingAll (entriesUnder registry tree h depth path parent)) :
    ∃ header : HeaderNode, e.id = header.node.bind tree.id? ∧
      e.title = header.node.elim "" fun node => Text.trim (tree.argumentText registry node "title") := by
  induction depth generalizing path parent with
  | zero => cases he
  | succ depth ih =>
    rw [entriesUnder] at he
    split at he
    · cases he
    · rw [readingAll_eq, List.mem_flatMap] at he
      obtain ⟨top, htop, he⟩ := he
      obtain ⟨entry, -, hentry⟩ := List.mem_filterMap.mp htop
      obtain ⟨header, -, rfl⟩ := Option.map_eq_some_iff.mp hentry
      rw [reading] at he
      rcases List.mem_cons.mp he with rfl | he
      · refine ⟨header, ?_, ?_⟩
        · simp only [ContentsEntry.id, Tree.id?_eq]
        · cases header.node <;> simp [ContentsEntry.title]
      · exact ih he

/-- A table of contents of the headers `calls`, of which the `i`-th has the number `i + 1`. -/
structure Image (tree : Tree) (headers : HeaderTree) (calls : List (NodeId × Level))
    (entries : List ContentsEntry) : Prop where
  length : (readingAll entries).length = calls.length
  entry : ∀ i : Fin calls.length, ∃ e, (readingAll entries)[i]? = some e ∧
    e.level = calls[i].2 ∧ e.id = tree.id? calls[i].1 ∧
    (number e.path).toList.splitOn '.' =
      (headers.places (i + 1)).map (fun n => (toString n).toList) ∧
    (headers.places (i + 1)).length =
      ((headers.ancestors (i + 1)).filter (· ≠ HeaderTree.root)).length + 1
  distinct : ((readingAll entries).map fun e => number e.path).Nodup

theorem lines_build (hs : h.Stacked) (registry : Registry) (tree : Tree) :
    (readingAll (build registry tree h)).map ContentsEntry.line =
      (List.range' 1 (h.nodes.size - 1)).map (line tree h) := by
  rw [← hs.walk_root, ← lines_entriesUnder hs registry, hs.places_root]
  rfl

/-- Headers that are linked properly are all found in their table of contents. -/
theorem build_image {document : Option NodeId} (hs : h.Stacked)
    (houtline : h.outline = (document, 0) :: calls.map fun call => (some call.1, call.2))
    (registry : Registry) (tree : Tree) : Image tree h calls (build registry tree h) := by
  have hsize := size_of_outline houtline
  have hlines := lines_build hs registry tree
  rw [hsize, Nat.add_sub_cancel] at hlines
  have hheader : ∀ id, id ∈ List.range' 1 calls.length → id < h.nodes.size ∧
      h.places id ≠ [] := by
    intro id hid
    obtain ⟨hpos, hlt⟩ := List.mem_range'_1.mp hid
    have hinside : id < h.nodes.size := by omega
    obtain ⟨parent, hparent⟩ := hs.header id hpos hinside
    exact ⟨hinside, by simp [hs.places_child hparent]⟩
  refine ⟨by simpa using congrArg List.length hlines, fun i => ?_, ?_⟩
  · have hat := congrArg (·[(i : Nat)]?) hlines
    simp only [List.getElem?_map, List.getElem?_range' i.isLt, Option.map_some] at hat
    obtain ⟨e, he, hline⟩ := Option.map_eq_some_iff.mp hat
    obtain ⟨header, hget, hnode, hlevel⟩ := get?_of_outline houtline i
    have hnumber : 1 + 1 * (i : Nat) = i + 1 := by omega
    rw [hnumber, line, hget, Option.bind_some, hnode, Option.bind_some,
      level_of_outline houtline] at hline
    obtain ⟨hid, hline⟩ := Prod.mk.inj hline
    obtain ⟨hlevel', hpath⟩ := Prod.mk.inj hline
    have hmem : (i : Nat) + 1 ∈ List.range' 1 calls.length := by
      rw [List.mem_range'_1]
      omega
    obtain ⟨parent, hparent⟩ := hs.header (i + 1) (Nat.succ_pos _) (hheader _ hmem).1
    refine ⟨e, he, hlevel', hid, ?_, hs.length_places hparent⟩
    rw [hpath]
    exact splitOn_number (hheader _ hmem).2
  · have hpaths : (readingAll (build registry tree h)).map (·.path) =
        (List.range' 1 calls.length).map h.places := by
      simpa [List.map_map, Function.comp_def, ContentsEntry.line, line] using
        congrArg (List.map (·.2.2)) hlines
    have hnumbers := congrArg (List.map number) hpaths
    rw [List.map_map, List.map_map] at hnumbers
    rw [show (fun e : ContentsEntry => number e.path) = number ∘ (·.path) from rfl, hnumbers]
    refine List.Nodup.map_on (fun a ha b hb heq => ?_) List.nodup_range'
    have hplaces := number_injective (hheader a ha).2 (hheader b hb).2 heq
    exact hs.places_injective (hheader a ha).1 (hheader b hb).1 hplaces

end Contents

-- ----------------------------------------------------------------------------
-- Documents
-- ----------------------------------------------------------------------------

theorem HeaderTree.enterAll_append (h : HeaderTree) (first second : List (NodeId × Level)) :
    h.enterAll (first ++ second) = (h.enterAll first).enterAll second := by
  induction first generalizing h with
  | nil => rfl
  | cons call first ih => exact ih _

namespace Assembly

variable {setting : Setting} {s : State} {t : Tree} {made : List Arrival}

def headings (setting : Setting) (arrivals : List Arrival) : List (NodeId × Level) :=
  arrivals.filterMap fun arrival =>
    (headingLevel? setting arrival).map fun level => (arrival.node, level)

theorem levelOf_pos (setting : Setting) (s : State) (node : NodeId) :
    0 < (levelOf setting s node).1 := by
  unfold levelOf
  simp only
  split
  · next level hlevel => exact UInt64.lt_iff_toNat_lt.mpr (Level.parse?_pos hlevel)
  · exact (by decide : (0 : Level) < 1)

theorem headings_pos (setting : Setting) (arrivals : List Arrival) :
    ∀ call ∈ headings setting arrivals, 0 < call.2 := by
  intro call hcall
  obtain ⟨arrival, -, hsome⟩ := List.mem_filterMap.mp hcall
  obtain ⟨level, hlevel, rfl⟩ := Option.map_eq_some_iff.mp hsome
  unfold headingLevel? at hlevel
  split at hlevel
  · cases hlevel
  · split at hlevel
    · cases hlevel
      exact levelOf_pos _ _ _
    · cases hlevel

/-- The headers are those that have been visited, entered in turn. -/
theorem Visited.headers_eq (h : Visited setting (registerDocument setting (.initial t)) made s)
    (ht : t.Rooted) :
    s.headers = (HeaderTree.new (some t.root)).enterAll (headings setting made.reverse) := by
  induction h with
  | start => exact (registerDocument_headers setting ht).1
  | @visit earlier s rank visit hvisited hshape hnot hnode _ ih =>
    obtain ⟨given, named, hnaming, hopening, hrest, hadorned⟩ :=
      visitNode_naming visit hshape.declared hnode
    rw [hrest, List.reverse_cons, headings, List.filterMap_append, HeaderTree.enterAll_append]
    change named.headers = _
    cases hopening with
    | aside hother hsame =>
      have hnone : headingLevel? setting ⟨visit, s⟩ = none := by
        rcases hother with hroot | hheading
        · simp [headingLevel?, hroot]
        · simp [headingLevel?, hheading]
      simp [hnone, hsame.headers, ih, HeaderTree.enterAll, headings]
    | opened hroot hheading hopened =>
      have hlevel : headingLevel? setting ⟨visit, s⟩ = some (levelOf setting s visit.node).1 := by
        simp [headingLevel?, hroot, hheading]
      simp [hlevel, hopened.headers, ih, HeaderTree.enterAll, headings]

/-- The run goes on as long as they can be linked. -/
theorem Visited.aborted_iff (h : Visited setting (registerDocument setting (.initial t)) made s)
    (ht : t.Rooted) :
    s.aborted = none ↔ ∃ linked tree,
      (HeaderTree.new (some t.root)).linkAll (headings setting made.reverse) = .ok (linked, tree) := by
  induction h with
  | start =>
    have hstart : (registerDocument setting (.initial t)).aborted = none := by
      unfold registerDocument
      split
      · rfl
      · simp only
        split <;> rfl
    exact iff_of_true hstart ⟨_, _, rfl⟩
  | @visit earlier s rank visit hvisited hshape hnot hnode _ ih =>
    have hheaders := hvisited.headers_eq ht
    obtain ⟨given, named, hnaming, hopening, hrest, hadorned⟩ :=
      visitNode_naming visit hshape.declared hnode
    rw [hrest, List.reverse_cons, headings, List.filterMap_append]
    change named.aborted = none ↔ _
    cases hopening with
    | aside hother hsame =>
      have hnone : headingLevel? setting ⟨visit, s⟩ = none := by
        rcases hother with hroot | hheading
        · simp [headingLevel?, hroot]
        · simp [headingLevel?, hheading]
      simp [hnone, hsame.aborted, ih, headings]
    | opened hroot hheading hopened =>
      have hlevel : headingLevel? setting ⟨visit, s⟩ = some (levelOf setting s visit.node).1 := by
        simp [headingLevel?, hroot, hheading]
      rw [hopened.aborted, ih, List.filterMap_cons, hlevel, List.filterMap_nil, hheaders]
      exact (HeaderTree.exists_linkAll_concat _ _ _).symm

end Assembly

open Assembly (headings headings_pos visits)

/-- The headers of a document are those that are visited, entered in turn. The analysis goes through
if and only if they can be linked. -/
theorem analyze_headers {registry : Registry} (hr : registry.Coherent) (document source : String) :
    let a := analyze registry document source
    let setting : Assembly.Setting := ⟨registry, document⟩
    let calls := headings setting (visits setting (parse registry (tokenize source).tokens).tree)
    a.headers = (HeaderTree.new (some a.tree.root)).enterAll calls ∧
      (a.aborted = none ↔
        ∃ linked, (HeaderTree.new (some a.tree.root)).linkAll calls = .ok (linked, a.headers)) := by
  intro a setting calls
  obtain ⟨-, hrooted, -, -⟩ := parse_tree registry (tokenize source).tokens
  obtain ⟨rank, final, hvisited, -, hkept, htree, -, hheaders, -, -, haborted, -⟩ :=
    analyze_visits hr document source
  have hentered := hvisited.headers_eq hrooted
  have hlinked := hvisited.aborted_iff hrooted
  rw [List.reverse_reverse, ← hkept.root_eq, ← htree, ← hheaders] at hentered
  rw [List.reverse_reverse, ← hkept.root_eq, ← htree, ← haborted] at hlinked
  refine ⟨hentered, hlinked.trans ⟨?_, fun ⟨linked, hok⟩ => ⟨linked, _, hok⟩⟩⟩
  rintro ⟨linked, tree, hok⟩
  exact ⟨linked, hentered.trans (HeaderTree.tree_linkAll hok).1.symm ▸ hok⟩

/-- The table of contents of a document lists what has been entered as a header, with its level, the
identifier of its macro and its place in the tree of the headers, which no two of them share. -/
theorem analyze_contents (document source : String) :
    let a := analyze .builtin document source
    let setting : Assembly.Setting := ⟨.builtin, document⟩
    let calls := headings setting (visits setting (parse .builtin (tokenize source).tokens).tree)
    a.headers = (HeaderTree.new (some a.tree.root)).enterAll calls ∧
      Contents.Image a.tree a.headers calls (Contents.build .builtin a.tree a.headers) := by
  intro a setting calls
  have hlinked := (analyze_headers Registry.coherent_builtin document source).1
  refine ⟨hlinked, ?_⟩
  have hs : a.headers.Stacked :=
    hlinked ▸ (HeaderTree.stacked_new _).enterAll (headings_pos _ _)
  have houtline : a.headers.outline =
      (some a.tree.root, 0) :: calls.map fun call => (some call.1, call.2) := by
    rw [hlinked, HeaderTree.outline_enterAll]
    rfl
  exact Contents.build_image hs houtline _ _

end Macromark
