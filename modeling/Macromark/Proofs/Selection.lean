import Macromark.Proofs.OrderedMap
import Macromark.Proofs.Text.Position
import Macromark.Reference.Selection
import Mathlib.Data.List.Find
import Mathlib.Data.List.Sort

/-!
# What is kept of a link

The references of a link are its `members`; of them `winner?` is kept, and
there is one unless none leads anywhere (`winner?_eq_none_iff`). A selection
consists of the winners and the lost links (`mem_selected`, `mem_rejected`,
`mem_unresolved`). What becomes of a link does not depend on the links of
other documents that stand around it (`selected_own`, `unresolved_own`).
-/

namespace Macromark

-- ----------------------------------------------------------------------------
-- The order of the links
-- ----------------------------------------------------------------------------

theorem ReferenceKind.rank_injective : Function.Injective rank := by
  intro a b h
  cases a <;> cases b <;> first | rfl | cases h

namespace GroupKey

instance : Std.Irrefl (α := GroupKey) (· < ·) where
  irrefl := by
    rintro a (h | ⟨-, h | ⟨-, h⟩⟩)
    · exact Std.Irrefl.irrefl _ h
    · exact Std.Irrefl.irrefl _ h
    · exact Nat.lt_irrefl _ h

instance : Trans (α := GroupKey) (· < ·) (· < ·) (· < ·) where
  trans := by
    rintro a b c (hab | ⟨hab, hab'⟩) (hbc | ⟨hbc, hbc'⟩)
    · exact .inl (Trans.trans hab hbc)
    · exact .inl (hbc ▸ hab)
    · exact .inl (hab ▸ hbc)
    · refine .inr ⟨hab.trans hbc, ?_⟩
      rcases hab' with hab' | ⟨hab', hab''⟩ <;> rcases hbc' with hbc' | ⟨hbc', hbc''⟩
      · exact .inl (Trans.trans hab' hbc')
      · exact .inl (hbc' ▸ hab')
      · exact .inl (hab' ▸ hbc')
      · exact .inr ⟨hab'.trans hbc', Nat.lt_trans hab'' hbc''⟩

instance : Std.Trichotomous (α := GroupKey) (· < ·) where
  trichotomous := by
    rintro ⟨document, position, kind⟩ ⟨document', position', kind'⟩ hab hba
    change ¬(document < document' ∨ document = document' ∧
      (position < position' ∨ position = position' ∧ kind.rank < kind'.rank)) at hab
    change ¬(document' < document ∨ document' = document ∧
      (position' < position ∨ position' = position ∧ kind'.rank < kind.rank)) at hba
    simp only [not_or, not_and] at hab hba
    obtain rfl := Std.Trichotomous.trichotomous _ _ hab.1 hba.1
    obtain rfl := Std.Trichotomous.trichotomous _ _ (hab.2 rfl).1 (hba.2 rfl).1
    have hrank := Nat.le_antisymm (Nat.le_of_not_lt ((hba.2 rfl).2 rfl))
      (Nat.le_of_not_lt ((hab.2 rfl).2 rfl))
    rw [ReferenceKind.rank_injective hrank]

end GroupKey

namespace Selection

variable {resolves resolves' : Reference → Bool} {references : List Reference}

-- ----------------------------------------------------------------------------
-- The references of a link
-- ----------------------------------------------------------------------------

def members (references : List Reference) (key : GroupKey) : List Placed :=
  references.zipIdx.filter fun placed => placed.1.groupKey = key

theorem mem_members : (r, place) ∈ members references key ↔
    references[place]? = some r ∧ r.groupKey = key := by
  simp [members, List.mk_mem_zipIdx_iff_getElem?]

theorem map_fst_members (references : List Reference) (key : GroupKey) :
    (members references key).map (·.1) = references.filter (·.groupKey = key) := by
  have hplaces : references.zipIdx.map Prod.fst = references := List.zipIdx_map_fst 0 references
  have hfilter : references.filter (·.groupKey = key) =
      (references.zipIdx.map Prod.fst).filter (·.groupKey = key) := by rw [hplaces]
  rw [hfilter, List.filter_map]
  rfl

/-- Entering references under their keys appends to what is found there. -/
theorem get?_enter (placed : List Placed) (groups : OrderedMap GroupKey (List Placed))
    (key : GroupKey) :
    OrderedMap.get? (placed.foldl (fun groups p => groups.insert p.1.groupKey
        ((groups.get? p.1.groupKey).getD [] ++ [p])) groups) key =
      if placed.filter (·.1.groupKey = key) = [] then groups.get? key
      else some ((groups.get? key).getD [] ++ placed.filter (·.1.groupKey = key)) := by
  induction placed generalizing groups with
  | nil => rfl
  | cons p rest ih =>
    rw [List.foldl_cons, ih, OrderedMap.get?_insert]
    by_cases hkey : p.1.groupKey = key
    · subst hkey
      rw [List.filter_cons_of_pos (by simp)]
      by_cases hrest : rest.filter (·.1.groupKey = p.1.groupKey) = []
      · simp [hrest]
      · simp [hrest, List.append_assoc]
    · rw [List.filter_cons_of_neg (by simpa using hkey), if_neg hkey]

theorem get?_groups (references : List Reference) (key : GroupKey) :
    (groups references).get? key =
      if members references key = [] then none else some (members references key) :=
  get?_enter references.zipIdx [] key

theorem sorted_enter {groups : OrderedMap GroupKey (List Placed)}
    (h : OrderedMap.Sorted groups) (placed : List Placed) :
    OrderedMap.Sorted (placed.foldl (fun groups p => groups.insert p.1.groupKey
      ((groups.get? p.1.groupKey).getD [] ++ [p])) groups) := by
  induction placed generalizing groups with
  | nil => exact h
  | cons p rest ih => exact ih (h.insert _ _)

theorem groups_sorted (references : List Reference) : (groups references).Sorted :=
  sorted_enter OrderedMap.sorted_nil references.zipIdx

theorem mem_groups : (key, group) ∈ groups references ↔
    group = members references key ∧ group ≠ [] := by
  rw [(groups_sorted references).mem_iff, get?_groups]
  by_cases hnil : members references key = []
  · simp only [hnil, if_true, reduceCtorEq, false_iff, not_and, not_not, imp_self]
  · simp only [hnil, if_false, Option.some.injEq]
    refine ⟨?_, fun h => h.1.symm⟩
    rintro rfl
    exact ⟨rfl, hnil⟩

-- ----------------------------------------------------------------------------
-- The winner
-- ----------------------------------------------------------------------------

theorem foldl_note (group : List Placed) (rank : Nat) (found : Leading) :
    (group.zipIdx rank).foldl (Leading.note resolves) found =
      ⟨found.exact.or ((group.findIdx? fun placed =>
          !placed.1.inflected && resolves placed.1).map (rank + ·)),
        found.inflected.or ((group.findIdx? fun placed =>
          placed.1.inflected && resolves placed.1).map (rank + ·))⟩ := by
  induction group generalizing rank found with
  | nil => simp
  | cons placed rest ih =>
    have hrank (place : Nat) : rank + 1 + place = rank + (place + 1) := by omega
    rw [List.zipIdx_cons, List.foldl_cons, ih, List.findIdx?_cons, List.findIdx?_cons]
    cases hinflected : placed.1.inflected <;> cases hresolves : resolves placed.1 <;>
      simp [Leading.note, hinflected, hresolves, hrank, Function.comp_def]

/-- Of the first as written and the first of the others, the one that stands before the other is
the first of all. -/
theorem leading_first? (resolves : Reference → Bool) (group : List Placed) :
    (leading resolves group).first? = group.findIdx? fun placed => resolves placed.1 := by
  rw [leading, foldl_note]
  simp only [Option.none_or, Nat.zero_add, Option.map_id']
  induction group with
  | nil => rfl
  | cons placed rest ih =>
    simp only [List.findIdx?_cons]
    rw [← ih]
    cases placed.1.inflected <;> cases resolves placed.1 <;>
      cases rest.findIdx? (fun placed => !placed.1.inflected && resolves placed.1) <;>
      cases rest.findIdx? (fun placed => placed.1.inflected && resolves placed.1) <;>
      grind [Leading.first?]

/-- The winner is the first in the order of trying that leads somewhere. -/
theorem winner?_eq_find? (resolves : Reference → Bool) (group : List Placed) :
    winner? resolves group = (ranked group).find? fun placed => resolves placed.1 := by
  rw [winner?, leading_first?, List.find?_eq_bind_findIdx?_getElem?]

theorem winner?_eq_some (h : winner? resolves group = some winner) :
    winner ∈ group ∧ resolves winner.1 = true := by
  rw [winner?_eq_find?] at h
  exact ⟨List.mem_mergeSort.mp (List.mem_of_find?_eq_some h),
    List.find?_some (p := fun placed : Placed => resolves placed.1) h⟩

theorem winner?_eq_none_iff :
    winner? resolves group = none ↔ ∀ placed ∈ group, resolves placed.1 = false := by
  simp [winner?_eq_find?, ranked, List.find?_eq_none]

theorem triedBefore_trans (a b c : Placed) (hab : triedBefore a b = true)
    (hbc : triedBefore b c = true) : triedBefore a c = true := by
  grind [triedBefore]

theorem triedBefore_total (a b : Placed) : (triedBefore a b || triedBefore b a) = true := by
  grind [triedBefore]

theorem length_of_triedBefore {a b : Placed} (h : triedBefore a b = true) :
    b.1.targetLength ≤ a.1.targetLength := by
  grind [triedBefore]

/-- What leads somewhere and is not the winner stands behind it. -/
theorem winner?_before {before : Placed → Placed → Prop} {placed : Placed}
    (hranked : (ranked group).Pairwise before) (h : winner? resolves group = some winner)
    (hplaced : placed ∈ group) (hresolves : resolves placed.1 = true) :
    placed = winner ∨ before winner placed := by
  have hmem : placed ∈ ranked group := List.mem_mergeSort.mpr hplaced
  rw [winner?_eq_find?] at h
  obtain ⟨-, front, back, hsplit, hfront⟩ := List.find?_eq_some_iff_append.mp h
  rw [hsplit] at hranked hmem
  rcases List.mem_append.mp hmem with hmem | hmem
  · have hlost := hfront placed hmem
    rw [hresolves] at hlost
    cases hlost
  · obtain ⟨-, hafter, -⟩ := List.pairwise_append.mp hranked
    exact (List.mem_cons.mp hmem).imp_right ((List.pairwise_cons.mp hafter).1 placed)

/-- Nothing that leads somewhere has a longer target than the winner. -/
theorem winner?_longest {placed : Placed} (h : winner? resolves group = some winner)
    (hplaced : placed ∈ group) (hresolves : resolves placed.1 = true) :
    placed.1.targetLength ≤ winner.1.targetLength := by
  have hsorted : (ranked group).Pairwise fun a b => triedBefore a b = true :=
    List.pairwise_mergeSort triedBefore_trans triedBefore_total group
  rcases winner?_before hsorted h hplaced hresolves with rfl | hbefore
  · exact Nat.le_refl _
  · exact length_of_triedBefore hbefore

/-- What leads somewhere wins if nothing else of its length does. -/
theorem winner?_of_unique {placed : Placed} (hplaced : placed ∈ group)
    (hresolves : resolves placed.1 = true)
    (hunique : ∀ other ∈ group, resolves other.1 = true →
      placed.1.targetLength ≤ other.1.targetLength → other = placed) :
    winner? resolves group = some placed := by
  cases hwinner : winner? resolves group with
  | none => simp [winner?_eq_none_iff.mp hwinner placed hplaced] at hresolves
  | some winner =>
    obtain ⟨hwon, hleads⟩ := winner?_eq_some hwinner
    rw [hunique winner hwon hleads (winner?_longest hwinner hplaced hresolves)]

def moved (offset : Nat) (placed : Placed) : Placed := (placed.1, offset + placed.2)

section
variable {f : Placed → Placed}
variable (hf : ∀ a, (f a).1.target = a.1.target ∧ (f a).1.inflected = a.1.inflected)
include hf

theorem triedBefore_map (a b : Placed) : triedBefore (f a) (f b) = triedBefore a b := by
  have hlength : ∀ a, (f a).1.targetLength = a.1.targetLength := fun a => congrArg String.length (hf a).1
  rw [triedBefore, triedBefore, hlength, hlength, (hf a).2, (hf b).2]

/-- Targets are ranked by what they are, and not by where they stand. -/
theorem ranked_map (group : List Placed) : ranked (group.map f) = (ranked group).map f :=
  (List.map_mergeSort fun a _ b _ => (triedBefore_map hf a b).symm).symm

theorem closest_map (group : List Placed) : closest (group.map f) = closest group := by
  have hcloser : ∀ a b, closer (f a) (f b) = closer a b := by
    intro a b
    have hlength : ∀ a, (f a).1.targetLength = a.1.targetLength := fun a =>
      congrArg String.length (hf a).1
    rw [closer, closer, hlength, hlength, (hf a).2, (hf b).2]
  cases group with
  | nil => rfl
  | cons first rest =>
    simp only [List.map_cons, closest]
    induction rest generalizing first with
    | nil => exact (hf first).1
    | cons next rest ih =>
      have hbest : (if closer (f next) (f first) then f next else f first) =
          f (if closer next first then next else first) := by
        rw [hcloser, apply_ite f]
      simp only [List.map_cons, List.foldl_cons, hbest, ih]

end

/-- What is kept of a link depends only on how its references are compared and whether they lead
somewhere. -/
theorem winner?_map {β : Type} (f : Placed → β) {before : β → β → Bool} {leads : β → Bool}
    (hbefore : ∀ a b, triedBefore a b = before (f a) (f b))
    (hleads : ∀ placed ∈ group, resolves placed.1 = leads (f placed)) :
    (winner? resolves group).map f = ((group.map f).mergeSort before).find? leads := by
  have hranked : (ranked group).map f = (group.map f).mergeSort before :=
    List.map_mergeSort fun a _ b _ => hbefore a b
  rw [winner?_eq_find?, ← hranked, List.find?_map]
  congr 1
  apply List.find?_congr
  intro placed hplaced
  exact hleads placed (List.mem_mergeSort.mp hplaced)

theorem winner?_moved (offset : Nat) {group : List Placed}
    (h : ∀ placed ∈ group, resolves placed.1 = resolves' placed.1) :
    winner? resolves (group.map (moved offset)) = (winner? resolves' group).map (moved offset) :=
  (winner?_eq_find? ..).trans
    (winner?_map (moved offset) (fun _ _ => rfl) fun placed hplaced => (h placed hplaced).symm).symm

-- ----------------------------------------------------------------------------
-- The selection
-- ----------------------------------------------------------------------------

theorem mem_sorted : place ∈ sorted places ↔ place ∈ places := List.mem_mergeSort

theorem sorted_pairwise (places : List Nat) : (sorted places).Pairwise (· ≤ ·) :=
  List.pairwise_mergeSort' (· ≤ ·) places

theorem sorted_of_pairwise {places : List Nat} (h : places.Pairwise (· ≤ ·)) :
    sorted places = places :=
  List.mergeSort_of_pairwise (by simpa using h)

theorem mem_selectGroup_selected : place ∈ (selectGroup resolves key group).selected ↔
    ∃ r, winner? resolves group = some (r, place) := by
  unfold selectGroup
  cases hwinner : winner? resolves group with
  | none => simp
  | some winner =>
    obtain ⟨r, won⟩ := winner
    simp [@eq_comm _ won place]

theorem mem_selectGroup_rejected : place ∈ (selectGroup resolves key group).rejected ↔
    (∃ r, (r, place) ∈ group) ∧ ∀ r, winner? resolves group ≠ some (r, place) := by
  unfold selectGroup
  cases hwinner : winner? resolves group with
  | none => simp
  | some winner =>
    obtain ⟨r, won⟩ := winner
    simp [@eq_comm _ won place]

theorem mem_selectGroup_unresolved : lost ∈ (selectGroup resolves key group).unresolved ↔
    winner? resolves group = none ∧ lost = ⟨key, closest (ranked group)⟩ := by
  unfold selectGroup
  cases winner? resolves group <;> simp

/-- A reference is kept if it wins among the references of its link. -/
theorem mem_selected : place ∈ (select resolves references).selected ↔
    ∃ r, references[place]? = some r ∧
      winner? resolves (members references r.groupKey) = some (r, place) := by
  simp only [select, combine, mem_sorted, List.mem_flatMap, List.mem_map, exists_exists_and_eq_and]
  constructor
  · rintro ⟨⟨key, group⟩, hgroup, hplace⟩
    obtain ⟨rfl, -⟩ := mem_groups.mp hgroup
    obtain ⟨r, hwinner⟩ := mem_selectGroup_selected.mp hplace
    obtain ⟨hr, rfl⟩ := mem_members.mp (winner?_eq_some hwinner).1
    exact ⟨r, hr, hwinner⟩
  · rintro ⟨r, hr, hwinner⟩
    have hmember := (winner?_eq_some hwinner).1
    refine ⟨(r.groupKey, members references r.groupKey), mem_groups.mpr ⟨rfl, ?_⟩, ?_⟩
    · exact List.ne_nil_of_mem hmember
    · exact mem_selectGroup_selected.mpr ⟨r, hwinner⟩

/-- The reference that is kept of a link is the winner among its references. -/
theorem exists_selected : (∃ place ∈ (select resolves references).selected,
      references[place]? = some r ∧ r.groupKey = key) ↔
    ∃ place, winner? resolves (members references key) = some (r, place) := by
  constructor
  · rintro ⟨place, hplace, hr, hkey⟩
    obtain ⟨r', hr', hwinner⟩ := mem_selected.mp hplace
    obtain rfl := Option.some.inj (hr.symm.trans hr')
    exact ⟨place, hkey ▸ hwinner⟩
  · rintro ⟨place, hwinner⟩
    obtain ⟨hr, rfl⟩ := mem_members.mp (winner?_eq_some hwinner).1
    exact ⟨place, mem_selected.mpr ⟨r, hr, hwinner⟩, hr, rfl⟩

/-- Every reference is kept or rejected. -/
theorem mem_rejected : place ∈ (select resolves references).rejected ↔
    place < references.length ∧ place ∉ (select resolves references).selected := by
  rw [mem_selected]
  simp only [select, combine, mem_sorted, List.mem_flatMap, List.mem_map, exists_exists_and_eq_and]
  constructor
  · rintro ⟨⟨key, group⟩, hgroup, hplace⟩
    obtain ⟨rfl, -⟩ := mem_groups.mp hgroup
    obtain ⟨⟨r, hmember⟩, hlost⟩ := mem_selectGroup_rejected.mp hplace
    obtain ⟨hr, rfl⟩ := mem_members.mp hmember
    refine ⟨(List.getElem?_eq_some_iff.mp hr).1, ?_⟩
    rintro ⟨r', hr', hwinner⟩
    obtain rfl := Option.some.inj (hr.symm.trans hr')
    exact hlost _ hwinner
  · rintro ⟨hlt, hlost⟩
    have hr : references[place]? = some references[place] := List.getElem?_eq_getElem hlt
    generalize references[place] = r at hr
    have hmember : (r, place) ∈ members references r.groupKey := mem_members.mpr ⟨hr, rfl⟩
    refine ⟨(r.groupKey, members references r.groupKey),
      mem_groups.mpr ⟨rfl, List.ne_nil_of_mem hmember⟩,
      mem_selectGroup_rejected.mpr ⟨⟨r, hmember⟩, ?_⟩⟩
    intro r' hwinner
    obtain ⟨hr', -⟩ := mem_members.mp (winner?_eq_some hwinner).1
    obtain rfl := Option.some.inj (hr.symm.trans hr')
    exact hlost ⟨r, hr, hwinner⟩

theorem mem_unresolved : lost ∈ (select resolves references).unresolved ↔
    members references lost.key ≠ [] ∧
      (∀ placed ∈ members references lost.key, resolves placed.1 = false) ∧
      lost.target = closest (ranked (members references lost.key)) := by
  simp only [select, combine, List.mem_flatMap, List.mem_map, exists_exists_and_eq_and,
    ← winner?_eq_none_iff]
  constructor
  · rintro ⟨⟨key, group⟩, hgroup, hlost⟩
    obtain ⟨rfl, hne⟩ := mem_groups.mp hgroup
    obtain ⟨hnone, rfl⟩ := mem_selectGroup_unresolved.mp hlost
    exact ⟨hne, hnone, rfl⟩
  · rintro ⟨hne, hnone, htarget⟩
    refine ⟨(lost.key, members references lost.key), mem_groups.mpr ⟨rfl, hne⟩,
      mem_selectGroup_unresolved.mpr ⟨hnone, ?_⟩⟩
    rw [← htarget]

/-- Places of different links are different. -/
theorem sorted_flatMap_ascending {places : GroupKey × List Placed → List Nat}
    (hnodup : ∀ entry ∈ groups references, (places entry).Nodup)
    (hplaces : ∀ key, ∀ place ∈ places (key, members references key),
      ∃ r, (r, place) ∈ members references key) :
    (sorted ((groups references).flatMap places)).Pairwise (· < ·) := by
  have hall : (sorted ((groups references).flatMap places)).Nodup := by
    refine (List.mergeSort_perm _ _).nodup_iff.mpr (List.nodup_flatMap.mpr ⟨hnodup, ?_⟩)
    refine (groups_sorted references).imp_of_mem ?_
    rintro ⟨key, group⟩ ⟨key', group'⟩ hgroup hgroup' hlt place hplace hplace'
    obtain ⟨rfl, -⟩ := mem_groups.mp hgroup
    obtain ⟨rfl, -⟩ := mem_groups.mp hgroup'
    obtain ⟨r, hmember⟩ := hplaces key place hplace
    obtain ⟨r', hmember'⟩ := hplaces key' place hplace'
    obtain ⟨hr, rfl⟩ := mem_members.mp hmember
    obtain ⟨hr', rfl⟩ := mem_members.mp hmember'
    obtain rfl := Option.some.inj (hr.symm.trans hr')
    exact Std.Irrefl.irrefl _ hlt
  exact ((sorted_pairwise _).and hall).imp fun h => Nat.lt_of_le_of_ne h.1 h.2

/-- No place is kept twice. -/
theorem selected_ascending (resolves : Reference → Bool) (references : List Reference) :
    (select resolves references).selected.Pairwise (· < ·) := by
  simp only [select, combine, List.flatMap_map]
  refine sorted_flatMap_ascending ?_ ?_
  · rintro ⟨key, group⟩ -
    simp only [selectGroup]
    split <;> simp
  · intro key place hplace
    obtain ⟨r, hwinner⟩ := mem_selectGroup_selected.mp hplace
    exact ⟨r, (winner?_eq_some hwinner).1⟩

/-- A link is reported once, in the order of the links. -/
theorem unresolved_ascending (resolves : Reference → Bool) (references : List Reference) :
    (select resolves references).unresolved.Pairwise (·.key < ·.key) := by
  simp only [select, combine, List.flatMap_map, List.pairwise_flatMap]
  refine ⟨?_, ?_⟩
  · rintro ⟨key, group⟩ -
    simp only [selectGroup]
    split <;> simp
  · refine (groups_sorted references).imp ?_
    rintro ⟨key, group⟩ ⟨key', group'⟩ hlt lost hlost lost' hlost'
    obtain ⟨-, rfl⟩ := mem_selectGroup_unresolved.mp hlost
    obtain ⟨-, rfl⟩ := mem_selectGroup_unresolved.mp hlost'
    exact hlt

/-- Lost links in the order of the links are known by which they are. -/
theorem unresolved_ext {unresolved unresolved' : List Unresolved}
    (h : unresolved.Pairwise (·.key < ·.key)) (h' : unresolved'.Pairwise (·.key < ·.key))
    (hmem : ∀ lost, lost ∈ unresolved ↔ lost ∈ unresolved') : unresolved = unresolved' := by
  have hirrefl : Std.Irrefl fun a b : Unresolved => a.key < b.key :=
    ⟨fun a => Std.Irrefl.irrefl a.key⟩
  have hantisymm : Std.Antisymm fun a b : Unresolved => a.key < b.key :=
    ⟨fun a b hab hba => absurd (Trans.trans hab hba : a.key < a.key) (Std.Irrefl.irrefl a.key)⟩
  exact h.eq_of_mem_iff h' hmem

-- ----------------------------------------------------------------------------
-- The resolutions of links
-- ----------------------------------------------------------------------------

section
variable {document : String} {sites : OrderedMap Position Nat} {node : Nat}
variable {resolution : Resolution} {s : Selection}

theorem mem_targets : (node, resolution) ∈ s.targets document sites references ↔
    ∃ place ∈ s.selected, ∃ r, references[place]? = some r ∧
      (r.kind = .crossReference ∧ r.site.document = document) ∧
      sites.get? r.site.position = some node ∧ resolution = .target r.target := by
  simp only [targets, List.mem_filterMap, Option.bind_eq_bind, Option.bind_eq_some_iff]
  refine exists_congr fun place => and_congr_right fun _ => exists_congr fun r =>
    and_congr_right fun _ => ?_
  by_cases hlink : r.kind = .crossReference ∧ r.site.document = document
  · simp [hlink, eq_comm]
  · rw [if_neg hlink]
    simp [hlink]

theorem mem_unknowns : (node, resolution) ∈ s.unknowns document sites ↔
    ∃ lost ∈ s.unresolved, (lost.key.kind = .crossReference ∧ lost.key.document = document) ∧
      sites.get? lost.key.position = some node ∧ resolution = .unknown lost.target := by
  simp only [unknowns, List.mem_filterMap]
  refine exists_congr fun lost => and_congr_right fun _ => ?_
  by_cases hlink : lost.key.kind = .crossReference ∧ lost.key.document = document
  · simp [hlink, eq_comm]
  · rw [if_neg hlink]
    simp [hlink]

theorem resolutions_sorted (s : Selection) (document : String) (sites : OrderedMap Position Nat)
    (references : List Reference) : (s.resolutions document sites references).Sorted :=
  OrderedMap.sorted_nil.insertAll _

/-- A resolution is that of a link that was kept, or of a lost one. -/
theorem mem_of_get?_resolutions
    (h : (s.resolutions document sites references).get? node = some resolution) :
    (node, resolution) ∈ s.targets document sites references ∨
      (node, resolution) ∈ s.unknowns document sites := by
  rcases OrderedMap.mem_of_get?_insertAll h with h | h
  · exact List.mem_append.mp h
  · simp at h

/-- A link of which something is noted has a resolution. -/
theorem exists_resolution {key : GroupKey} (hmembers : members references key ≠ [])
    (hkind : key.kind = .crossReference) (hdocument : key.document = document)
    (hsite : sites.get? key.position = some node) :
    ∃ resolution,
      ((select resolves references).resolutions document sites references).get? node =
        some resolution := by
  cases hwinner : winner? resolves (members references key) with
  | some winner =>
    obtain ⟨r, place⟩ := winner
    obtain ⟨hr, rfl⟩ := mem_members.mp (winner?_eq_some hwinner).1
    have htarget : (node, .target r.target) ∈
        (select resolves references).targets document sites references :=
      mem_targets.mpr ⟨place, mem_selected.mpr ⟨r, hr, hwinner⟩, r, hr, ⟨hkind, hdocument⟩, hsite, rfl⟩
    exact OrderedMap.exists_get?_insertAll (List.mem_append_left _ htarget) []
  | none =>
    have hlost : ⟨key, closest (ranked (members references key))⟩ ∈
        (select resolves references).unresolved :=
      mem_unresolved.mpr ⟨hmembers, winner?_eq_none_iff.mp hwinner, rfl⟩
    have hunknown := mem_unknowns.mpr ⟨_, hlost, ⟨hkind, hdocument⟩, hsite, rfl⟩
    exact OrderedMap.exists_get?_insertAll (List.mem_append_right _ hunknown) []

end

-- ----------------------------------------------------------------------------
-- What becomes of one link
-- ----------------------------------------------------------------------------

/-- What becomes of a link with these references. -/
def outcome (resolves : Reference → Bool) (group : List Placed) : Resolution :=
  match winner? resolves group with
  | some winner => .target winner.1.target
  | none => .unknown (closest (ranked group))

/-- It does not matter where the references of a link stand. -/
theorem outcome_map {f : Placed → Placed}
    (hf : ∀ a, (f a).1.target = a.1.target ∧ (f a).1.inflected = a.1.inflected)
    (hresolves : ∀ placed ∈ group, resolves placed.1 = resolves' (f placed).1) :
    outcome resolves' (group.map f) = outcome resolves group := by
  have hwinner : winner? resolves' (group.map f) = (winner? resolves group).map f := by
    rw [winner?_eq_find?]
    exact (winner?_map f (fun a b => (triedBefore_map hf a b).symm) hresolves).symm
  rw [outcome, outcome, hwinner, ranked_map hf, closest_map hf]
  cases winner? resolves group with
  | none => rfl
  | some winner => exact congrArg Resolution.target (hf winner).1

theorem get?_resolutions {document : String} {sites : OrderedMap Position Nat} {node : Nat}
    (hmembers : members references key ≠ []) (hkind : key.kind = .crossReference)
    (hdocument : key.document = document) (hsite : sites.get? key.position = some node)
    (hback : ∀ position, sites.get? position = some node → position = key.position) :
    ((select resolves references).resolutions document sites references).get? node =
      some (outcome resolves (members references key)) := by
  obtain ⟨resolution, hresolution⟩ : ∃ resolution,
      ((select resolves references).resolutions document sites references).get? node =
        some resolution := exists_resolution hmembers hkind hdocument hsite
  have hkey : ∀ other : GroupKey, other.kind = .crossReference → other.document = document →
      sites.get? other.position = some node → other = key := by
    intro other hcross howned hother
    obtain ⟨document, position, kind⟩ := other
    obtain ⟨document', position', kind'⟩ := key
    simp only at hcross howned hkind hdocument
    rw [hcross, howned, hkind, hdocument, hback position hother]
  rw [hresolution, outcome]
  rcases mem_of_get?_resolutions hresolution with hkept | hlost
  · obtain ⟨place, hplace, r, hr, ⟨hcross, howned⟩, hother, rfl⟩ := mem_targets.mp hkept
    obtain ⟨won, hwon, hwinner⟩ := mem_selected.mp hplace
    obtain rfl := Option.some.inj (hr.symm.trans hwon)
    rw [← hkey r.groupKey hcross howned hother, hwinner]
  · obtain ⟨lost, hunresolved, ⟨hcross, howned⟩, hother, rfl⟩ := mem_unknowns.mp hlost
    obtain ⟨-, hnone, htarget⟩ := mem_unresolved.mp hunresolved
    rw [← hkey lost.key hcross howned hother, winner?_eq_none_iff.mpr hnone, htarget]

-- ----------------------------------------------------------------------------
-- The links of one document
-- ----------------------------------------------------------------------------

section
variable {document : String} {first own later : List Reference}
variable (hfirst : ∀ r ∈ first, r.site.document ≠ document)
variable (hown : ∀ r ∈ own, r.site.document = document)
variable (hlater : ∀ r ∈ later, r.site.document ≠ document)
variable (hresolves : ∀ r ∈ own, resolves r = resolves' r)

omit hresolves in
include hfirst hlater in
theorem members_own (hkey : key.document = document) :
    members (first ++ own ++ later) key = (members own key).map (moved first.length) := by
  have hother : ∀ (references : List Reference) (offset : Nat),
      (∀ r ∈ references, r.site.document ≠ document) →
      (references.zipIdx offset).filter (·.1.groupKey = key) = [] := by
    intro references offset h
    refine List.filter_eq_nil_iff.mpr ?_
    intro placed hplaced
    rw [decide_eq_true_eq]
    rintro rfl
    exact h placed.1 (List.fst_mem_of_mem_zipIdx hplaced) hkey
  simp only [members, List.zipIdx_append, List.filter_append, hother _ _ hfirst, hother _ _ hlater,
    List.nil_append, List.append_nil, Nat.zero_add]
  rw [List.zipIdx_eq_map_add, List.filter_map]
  rfl

omit hfirst hlater in
include hresolves in
theorem resolves_members : ∀ placed ∈ members own key, resolves placed.1 = resolves' placed.1 := by
  rintro ⟨r, place⟩ hplaced
  exact hresolves r (List.mem_of_getElem? (mem_members.mp hplaced).1)

omit hfirst hown hlater hresolves in
theorem getElem?_own (h : own[place]? = some r) :
    (first ++ own ++ later)[first.length + place]? = some r := by
  have hlt := (List.getElem?_eq_some_iff.mp h).1
  rw [List.append_assoc, List.getElem?_append_right (Nat.le_add_right _ _),
    Nat.add_sub_cancel_left, List.getElem?_append_left hlt, h]

include hfirst hown hlater hresolves

theorem selected_own :
    (select resolves (first ++ own ++ later)).selected.filter
        (fun place => (first ++ own ++ later)[place]?.any (·.site.document = document)) =
      (select resolves' own).selected.map (first.length + ·) := by
  have hwinner : ∀ key : GroupKey, key.document = document →
      winner? resolves (members (first ++ own ++ later) key) =
        (winner? resolves' (members own key)).map (moved first.length) := by
    intro key hkey
    rw [members_own hfirst hlater hkey, winner?_moved _ (resolves_members hresolves)]
  refine List.Pairwise.eq_of_mem_iff (r := (· < ·)) ((selected_ascending _ _).filter _) ?_ ?_
  · exact List.pairwise_map.mpr ((selected_ascending _ _).imp fun h => Nat.add_lt_add_left h _)
  intro place
  simp only [List.mem_filter, List.mem_map, mem_selected, Option.any_eq_true, decide_eq_true_eq]
  constructor
  · rintro ⟨⟨r, hr, hwon⟩, r', hr', hdocument⟩
    rw [← Option.some.inj (hr.symm.trans hr')] at hdocument
    rw [hwinner r.groupKey hdocument, Option.map_eq_some_iff] at hwon
    obtain ⟨⟨won, place'⟩, hwon, heq⟩ := hwon
    obtain ⟨rfl, rfl⟩ := Prod.mk.inj heq
    exact ⟨place', ⟨won, (mem_members.mp (winner?_eq_some hwon).1).1, hwon⟩, rfl⟩
  · rintro ⟨place', ⟨r, hr, hwon⟩, rfl⟩
    have hdocument : r.site.document = document := hown r (List.mem_of_getElem? hr)
    refine ⟨⟨r, getElem?_own hr, ?_⟩, r, getElem?_own hr, hdocument⟩
    rw [hwinner r.groupKey hdocument, hwon]
    rfl

omit hown in
theorem mem_unresolved_own (hdocument : lost.key.document = document) :
    lost ∈ (select resolves (first ++ own ++ later)).unresolved ↔
      lost ∈ (select resolves' own).unresolved := by
  have hlost : (∀ placed ∈ members own lost.key, resolves placed.1 = false) ↔
      ∀ placed ∈ members own lost.key, resolves' placed.1 = false :=
    forall₂_congr fun placed hplaced => by rw [resolves_members hresolves placed hplaced]
  rw [mem_unresolved, mem_unresolved, members_own hfirst hlater hdocument,
    ranked_map (f := moved first.length) fun _ => ⟨rfl, rfl⟩,
    closest_map (f := moved first.length) fun _ => ⟨rfl, rfl⟩, List.forall_mem_map, ne_eq,
    List.map_eq_nil_iff, ← hlost]
  rfl

theorem unresolved_own :
    (select resolves (first ++ own ++ later)).unresolved.filter (·.key.document = document) =
      (select resolves' own).unresolved := by
  refine unresolved_ext ((unresolved_ascending _ _).filter _) (unresolved_ascending _ _) ?_
  intro lost
  rw [List.mem_filter, decide_eq_true_eq]
  constructor
  · rintro ⟨hlost, hdocument⟩
    exact (mem_unresolved_own hfirst hlater hresolves hdocument).mp hlost
  · intro hlost
    obtain ⟨⟨r, place⟩, hmember⟩ := List.exists_mem_of_ne_nil _ (mem_unresolved.mp hlost).1
    obtain ⟨hr, hkey⟩ := mem_members.mp hmember
    have hdocument : lost.key.document = document :=
      hkey ▸ hown r (List.mem_of_getElem? hr)
    exact ⟨(mem_unresolved_own hfirst hlater hresolves hdocument).mpr hlost, hdocument⟩

theorem targets_own (sites : OrderedMap Position Nat) :
    (select resolves (first ++ own ++ later)).targets document sites (first ++ own ++ later) =
      (select resolves' own).targets document sites own := by
  -- only the places of the document count
  have hplaces : (select resolves (first ++ own ++ later)).targets document sites
      (first ++ own ++ later) = targets document sites (first ++ own ++ later)
        ⟨(select resolves (first ++ own ++ later)).selected.filter fun place =>
          (first ++ own ++ later)[place]?.any (·.site.document = document), [], []⟩ := by
    rw [targets, targets, List.filterMap_filter]
    refine List.filterMap_congr ?_
    intro place _
    cases (first ++ own ++ later)[place]? with
    | none => rfl
    | some r => by_cases hr : r.site.document = document <;> simp [hr]
  rw [hplaces, selected_own hfirst hown hlater hresolves, targets, targets, List.filterMap_map]
  refine List.filterMap_congr ?_
  intro place hplace
  obtain ⟨r, hr, -⟩ := mem_selected.mp hplace
  simp only [Function.comp_apply, getElem?_own hr, hr]

theorem unknowns_own (sites : OrderedMap Position Nat) :
    (select resolves (first ++ own ++ later)).unknowns document sites =
      (select resolves' own).unknowns document sites := by
  rw [unknowns, unknowns, ← unresolved_own hfirst hown hlater hresolves, List.filterMap_filter]
  refine List.filterMap_congr ?_
  intro lost _
  by_cases hlost : lost.key.document = document <;> simp [hlost]

theorem resolutions_own (sites : OrderedMap Position Nat) :
    (select resolves (first ++ own ++ later)).resolutions document sites (first ++ own ++ later) =
      (select resolves' own).resolutions document sites own := by
  rw [resolutions, targets_own hfirst hown hlater hresolves,
    unknowns_own hfirst hown hlater hresolves]
  rfl

theorem diagnostics_own :
    (select resolves (first ++ own ++ later)).diagnostics.filter (·.document == document) =
      (select resolves' own).diagnostics := by
  rw [diagnostics, diagnostics, ← unresolved_own hfirst hown hlater hresolves,
    List.filterMap_filter, List.filter_filterMap]
  refine List.filterMap_congr ?_
  intro lost _
  by_cases hlost : lost.key.document = document <;> cases problem? lost <;> simp [hlost]

end

end Selection
end Macromark
