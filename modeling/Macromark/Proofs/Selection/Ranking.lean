import Macromark.Proofs.Selection

/-!
# Which reference of a link comes first

The references of a link are sorted without regard to their places, and since
sorting keeps the order of those that are alike (`filter_ranked`), the earlier of
two such references is tried first (`ranked_tried`). So what is kept of a link is
the first of its references that lead somewhere, a lost link is reported under
the closest of its targets, and `select` does no more than that
(`keepsFirst_iff`).
-/

namespace Macromark
namespace Selection

variable {resolves : Reference → Bool} {references : List Reference} {group : List Placed}
variable {winner : Placed} {key : GroupKey}

-- ----------------------------------------------------------------------------
-- Two orders
-- ----------------------------------------------------------------------------

/-- Of two targets of one length that comes first which is in the number as written, and then the
one that was noted first. -/
def Earlier (a b : Placed) : Prop :=
  (a.1.inflected = false ∧ b.1.inflected = true) ∨ a.1.inflected = b.1.inflected ∧ a.2 < b.2

/-- The longer target is tried first. -/
def TriedFirst (a b : Placed) : Prop :=
  b.1.targetLength < a.1.targetLength ∨ a.1.targetLength = b.1.targetLength ∧ Earlier a b

def CloserThan (a b : Placed) : Prop :=
  a.1.targetLength < b.1.targetLength ∨ a.1.targetLength = b.1.targetLength ∧ Earlier a b

def FirstOf (before : Placed → Placed → Prop) (group : List Placed) (first : Placed) : Prop :=
  first ∈ group ∧ ∀ other ∈ group, other ≠ first → before first other

theorem FirstOf.unique {before : Placed → Placed → Prop} {first other : Placed}
    (hbefore : ∀ a b, before a b → ¬ before b a) (h : FirstOf before group first)
    (h' : FirstOf before group other) : other = first := by
  by_contra hne
  exact hbefore first other (h.2 other h'.1 hne) (h'.2 first h.1 (Ne.symm hne))

theorem Earlier.asymm {a b : Placed} (h : Earlier a b) : ¬ Earlier b a := by
  unfold Earlier at *
  grind

theorem Earlier.trans {a b c : Placed} (hab : Earlier a b) (hbc : Earlier b c) : Earlier a c := by
  unfold Earlier at *
  grind

theorem TriedFirst.asymm (a b : Placed) (h : TriedFirst a b) : ¬ TriedFirst b a := by
  rintro (hlt' | ⟨hlength', hearlier'⟩)
  · rcases h with hlt | ⟨hlength, -⟩ <;> omega
  · rcases h with hlt | ⟨-, hearlier⟩
    · omega
    · exact hearlier.asymm hearlier'

theorem CloserThan.asymm (a b : Placed) (h : CloserThan a b) : ¬ CloserThan b a := by
  rintro (hlt' | ⟨hlength', hearlier'⟩)
  · rcases h with hlt | ⟨hlength, -⟩ <;> omega
  · rcases h with hlt | ⟨-, hearlier⟩
    · omega
    · exact hearlier.asymm hearlier'

theorem CloserThan.trans {a b c : Placed} (hab : CloserThan a b) (hbc : CloserThan b c) :
    CloserThan a c := by
  rcases hab with hab | ⟨hlength, hab⟩ <;> rcases hbc with hbc | ⟨hlength', hbc⟩
  · exact .inl (Nat.lt_trans hab hbc)
  · exact .inl (hlength' ▸ hab)
  · exact .inl (hlength ▸ hbc)
  · exact .inr ⟨hlength.trans hlength', hab.trans hbc⟩

-- ----------------------------------------------------------------------------
-- The order of trying
-- ----------------------------------------------------------------------------

/-- Two references that are tried in the order of their places. -/
def Alike (a b : Placed) : Bool := triedBefore a b && triedBefore b a

theorem alike_trans {a b c : Placed} (hab : Alike a b = true) (hac : Alike a c = true) :
    triedBefore b c = true := by
  simp only [Alike, Bool.and_eq_true] at hab hac
  exact triedBefore_trans b a c hab.2 hac.1

/-- Sorting keeps the order of references that are alike. -/
theorem filter_ranked (a : Placed) (group : List Placed) :
    (ranked group).filter (Alike a) = group.filter (Alike a) := by
  have halike : (group.filter (Alike a)).Pairwise fun b c => triedBefore b c = true := by
    refine List.pairwise_filter.mpr (List.pairwise_of_forall ?_)
    exact fun b c hb hc => alike_trans hb hc
  have hkept : (group.filter (Alike a)).Sublist (ranked group) :=
    List.sublist_mergeSort triedBefore_trans triedBefore_total halike List.filter_sublist
  have hfiltered := hkept.filter (Alike a)
  simp only [List.filter_filter, Bool.and_self] at hfiltered
  exact (hfiltered.eq_of_length ((List.mergeSort_perm group _).filter _).length_eq.symm).symm

/-- What the order leaves open is decided by the places. -/
theorem TriedFirst.of_triedBefore {a b : Placed} (h : triedBefore a b = true)
    (hplace : triedBefore b a = true → a.2 < b.2) : TriedFirst a b := by
  unfold TriedFirst Earlier
  grind [triedBefore]

/-- What comes first among the sorted references is tried first. -/
theorem ranked_tried (hplaces : group.Pairwise (·.2 < ·.2)) : (ranked group).Pairwise TriedFirst := by
  have hsorted : (ranked group).Pairwise fun a b => triedBefore a b = true :=
    List.pairwise_mergeSort triedBefore_trans triedBefore_total group
  rw [List.pairwise_iff_forall_sublist] at hplaces hsorted ⊢
  intro a b hab
  have hbefore := hsorted hab
  refine .of_triedBefore hbefore fun hback => hplaces ?_
  -- they are alike, so they stand in this order before they are sorted, too
  have halike : [a, b].filter (Alike a) = [a, b] := by
    have haa : triedBefore a a = true := by simpa using triedBefore_total a a
    simp [Alike, hbefore, hback, haa]
  have hkept : [a, b].Sublist (group.filter (Alike a)) := by
    rw [← filter_ranked, ← halike]
    exact hab.filter _
  exact hkept.trans List.filter_sublist

theorem members_places (references : List Reference) (key : GroupKey) :
    (members references key).Pairwise (·.2 < ·.2) := by
  refine List.Pairwise.filter _ (List.pairwise_map.mp ?_)
  rw [List.zipIdx_map_snd]
  exact List.pairwise_lt_range'

-- ----------------------------------------------------------------------------
-- The first of a link
-- ----------------------------------------------------------------------------

theorem winner?_first (hplaces : group.Pairwise (·.2 < ·.2))
    (h : winner? resolves group = some winner) :
    FirstOf TriedFirst (group.filter (resolves ·.1)) winner := by
  obtain ⟨hwinner, hresolves⟩ := winner?_eq_some h
  refine ⟨List.mem_filter.mpr ⟨hwinner, hresolves⟩, fun other hother hne => ?_⟩
  obtain ⟨hother, hleads⟩ := List.mem_filter.mp hother
  exact (winner?_before (ranked_tried hplaces) h hother hleads).resolve_left hne

/-- Of references that are alike the one that is met first stays. -/
theorem CloserThan.of_tried {a b : Placed} (htried : TriedFirst a b) :
    closer b a = true ∧ CloserThan b a ∨ closer b a = false ∧ CloserThan a b := by
  unfold TriedFirst CloserThan Earlier at *
  grind [closer]

theorem foldl_closest {seen rest : List Placed} {best : Placed}
    (hbest : FirstOf CloserThan seen best) (hrest : rest.Pairwise TriedFirst)
    (hseen : ∀ a ∈ seen, ∀ b ∈ rest, TriedFirst a b) :
    FirstOf CloserThan (seen ++ rest)
      (rest.foldl (fun best next => if closer next best then next else best) best) := by
  induction rest generalizing seen best with
  | nil => simpa using hbest
  | cons next rest ih =>
    obtain ⟨hnext, hrest⟩ := List.pairwise_cons.mp hrest
    have hsplit : seen ++ next :: rest = (seen ++ [next]) ++ rest := by simp
    rw [List.foldl_cons, hsplit]
    refine ih ?_ hrest ?_
    · rcases CloserThan.of_tried (hseen best hbest.1 next List.mem_cons_self) with
        ⟨hcloser, hless⟩ | ⟨hcloser, hless⟩
      · refine ⟨by simp [hcloser], fun other hother hne => ?_⟩
        rw [if_pos hcloser] at hne ⊢
        rcases List.mem_append.mp hother with hother | hother
        · by_cases hsame : other = best
          · exact hsame ▸ hless
          · exact hless.trans (hbest.2 other hother hsame)
        · exact absurd (List.mem_singleton.mp hother) hne
      · rw [hcloser, if_neg Bool.false_ne_true]
        refine ⟨List.mem_append_left _ hbest.1, fun other hother hne => ?_⟩
        rcases List.mem_append.mp hother with hother | hother
        · exact hbest.2 other hother hne
        · exact List.mem_singleton.mp hother ▸ hless
    · intro a ha b hb
      rcases List.mem_append.mp ha with ha | ha
      · exact hseen a ha b (List.mem_cons_of_mem _ hb)
      · exact List.mem_singleton.mp ha ▸ hnext b hb

theorem FirstOf.perm {before : Placed → Placed → Prop} {group' : List Placed} {first : Placed}
    (h : FirstOf before group first) (hperm : group.Perm group') : FirstOf before group' first :=
  ⟨hperm.mem_iff.mp h.1, fun other hother => h.2 other (hperm.mem_iff.mpr hother)⟩

theorem closest_first (hplaces : group.Pairwise (·.2 < ·.2)) (hne : group ≠ []) :
    ∃ best, FirstOf CloserThan group best ∧ closest (ranked group) = best.1.target := by
  have hperm : (ranked group).Perm group := List.mergeSort_perm group _
  have htried := ranked_tried hplaces
  cases hranked : ranked group with
  | nil =>
    rw [hranked] at hperm
    exact absurd hperm.nil_eq.symm hne
  | cons first rest =>
    rw [hranked] at hperm htried
    obtain ⟨hfirst, hrest⟩ := List.pairwise_cons.mp htried
    have halone : FirstOf CloserThan [first] first := by
      refine ⟨List.mem_singleton_self first, fun other hother hne => ?_⟩
      exact absurd (List.mem_singleton.mp hother) hne
    have hbest := foldl_closest halone hrest fun a ha => List.mem_singleton.mp ha ▸ hfirst
    exact ⟨_, hbest.perm hperm, rfl⟩

-- ----------------------------------------------------------------------------
-- What a selection is
-- ----------------------------------------------------------------------------

/-- What is to be kept of `references`: of each link the one that is tried first among those that
lead somewhere, and nothing of a link of which none does. -/
structure KeepsFirst (resolves : Reference → Bool) (references : List Reference) (s : Selection) :
    Prop where
  selected_ascending : s.selected.Pairwise (· < ·)
  rejected_ascending : s.rejected.Pairwise (· < ·)
  disjoint : s.selected.Disjoint s.rejected
  every_place : ∀ place, place ∈ s.selected ∨ place ∈ s.rejected ↔ place < references.length
  kept : ∀ key, (∃ placed ∈ members references key, resolves placed.1 = true) →
    ∃ first, FirstOf TriedFirst ((members references key).filter (resolves ·.1)) first ∧
      ∀ placed ∈ members references key, placed.2 ∈ s.selected ↔ placed = first
  reported : ∀ key, members references key ≠ [] →
    (∀ placed ∈ members references key, resolves placed.1 = false) →
    (∀ placed ∈ members references key, placed.2 ∈ s.rejected) ∧
      ∃ first, FirstOf CloserThan (members references key) first ∧
        s.unresolved.filter (·.key = key) = [⟨key, first.1.target⟩]
  unresolved_ascending : s.unresolved.Pairwise (·.key < ·.key)
  reported_lost : ∀ lost ∈ s.unresolved, members references lost.key ≠ [] ∧
    ∀ placed ∈ members references lost.key, resolves placed.1 = false

namespace KeepsFirst

variable {s s' : Selection}

theorem mem_selected_iff (h : KeepsFirst resolves references s) : place ∈ s.selected ↔
    ∃ r, references[place]? = some r ∧
      FirstOf TriedFirst ((members references r.groupKey).filter (resolves ·.1)) (r, place) := by
  constructor
  · intro hplace
    have hlt := (h.every_place place).mp (.inl hplace)
    have hmember : (references[place], place) ∈ members references references[place].groupKey :=
      mem_members.mpr ⟨List.getElem?_eq_getElem hlt, rfl⟩
    refine ⟨references[place], List.getElem?_eq_getElem hlt, ?_⟩
    by_cases hleads : ∃ placed ∈ members references references[place].groupKey,
        resolves placed.1 = true
    · obtain ⟨first, hfirst, hkept⟩ := h.kept _ hleads
      exact (hkept _ hmember).mp hplace ▸ hfirst
    · have hlost := (h.reported _ (List.ne_nil_of_mem hmember) (by simpa using hleads)).1
      exact absurd (hlost _ hmember) (h.disjoint hplace)
  · rintro ⟨r, -, hfirst⟩
    obtain ⟨hmember, hresolves⟩ := List.mem_filter.mp hfirst.1
    obtain ⟨first, hfirst', hkept⟩ := h.kept _ ⟨_, hmember, hresolves⟩
    exact (hkept _ hmember).mpr (hfirst'.unique TriedFirst.asymm hfirst)

theorem mem_rejected_iff (h : KeepsFirst resolves references s) :
    place ∈ s.rejected ↔ place < references.length ∧ place ∉ s.selected := by
  constructor
  · exact fun hplace => ⟨(h.every_place place).mp (.inr hplace), (h.disjoint · hplace)⟩
  · rintro ⟨hlt, hlost⟩
    exact ((h.every_place place).mpr hlt).resolve_left hlost

theorem mem_unresolved_iff (h : KeepsFirst resolves references s) : lost ∈ s.unresolved ↔
    (∀ placed ∈ members references lost.key, resolves placed.1 = false) ∧
      ∃ first, FirstOf CloserThan (members references lost.key) first ∧
        lost.target = first.1.target := by
  have hone (hne : members references lost.key ≠ [])
      (hlost : ∀ placed ∈ members references lost.key, resolves placed.1 = false) :
      ∃ first, FirstOf CloserThan (members references lost.key) first ∧
        (lost ∈ s.unresolved ↔ lost.target = first.1.target) := by
    obtain ⟨-, first, hfirst, hentry⟩ := h.reported lost.key hne hlost
    refine ⟨first, hfirst, ?_⟩
    have hmem : lost ∈ s.unresolved.filter (·.key = lost.key) ↔ lost ∈ s.unresolved := by
      simp
    rw [← hmem, hentry, List.mem_singleton]
    exact ⟨fun heq => by rw [heq], fun htarget => by rw [← htarget]⟩
  constructor
  · intro hreported
    obtain ⟨hne, hlost⟩ := h.reported_lost lost hreported
    obtain ⟨first, hfirst, hiff⟩ := hone hne hlost
    exact ⟨hlost, first, hfirst, hiff.mp hreported⟩
  · rintro ⟨hlost, first, hfirst, htarget⟩
    obtain ⟨first', hfirst', hiff⟩ := hone (List.ne_nil_of_mem hfirst.1) hlost
    obtain rfl := hfirst.unique CloserThan.asymm hfirst'
    exact hiff.mpr htarget

/-- There is one way only to keep the first of each link. -/
theorem unique (h : KeepsFirst resolves references s) (h' : KeepsFirst resolves references s') :
    s = s' := by
  have hselected : s.selected = s'.selected :=
    h.selected_ascending.eq_of_mem_iff h'.selected_ascending fun place =>
      h.mem_selected_iff.trans h'.mem_selected_iff.symm
  have hrejected : s.rejected = s'.rejected :=
    h.rejected_ascending.eq_of_mem_iff h'.rejected_ascending fun place => by
      rw [h.mem_rejected_iff, h'.mem_rejected_iff, hselected]
  have hunresolved : s.unresolved = s'.unresolved :=
    unresolved_ext h.unresolved_ascending h'.unresolved_ascending fun lost =>
      h.mem_unresolved_iff.trans h'.mem_unresolved_iff.symm
  cases s
  cases s'
  simp_all only

end KeepsFirst

theorem rejected_ascending (resolves : Reference → Bool) (references : List Reference) :
    (select resolves references).rejected.Pairwise (· < ·) := by
  simp only [select, combine, List.flatMap_map]
  refine sorted_flatMap_ascending ?_ fun key place hplace => (mem_selectGroup_rejected.mp hplace).1
  rintro ⟨key, group⟩ hgroup
  obtain ⟨rfl, -⟩ := mem_groups.mp hgroup
  have hplaces : ((members references key).map Prod.snd).Nodup :=
    List.pairwise_map.mpr ((members_places references key).imp Nat.ne_of_lt)
  simp only [selectGroup]
  split
  · exact hplaces.filter _
  · exact hplaces

theorem select_keepsFirst (resolves : Reference → Bool) (references : List Reference) :
    KeepsFirst resolves references (select resolves references) where
  selected_ascending := selected_ascending resolves references
  rejected_ascending := rejected_ascending resolves references
  disjoint place hselected hrejected := (mem_rejected.mp hrejected).2 hselected
  every_place place := by
    rw [mem_rejected]
    refine ⟨?_, fun hlt => or_iff_not_imp_left.mpr fun hlost => ⟨hlt, hlost⟩⟩
    rintro (hplace | ⟨hlt, -⟩)
    · obtain ⟨r, hr, -⟩ := mem_selected.mp hplace
      exact (List.getElem?_eq_some_iff.mp hr).1
    · exact hlt
  kept key hleads := by
    cases hwinner : winner? resolves (members references key) with
    | none =>
      obtain ⟨placed, hplaced, hresolves⟩ := hleads
      simp [winner?_eq_none_iff.mp hwinner placed hplaced] at hresolves
    | some winner =>
      refine ⟨winner, winner?_first (members_places references key) hwinner, ?_⟩
      rintro ⟨r, place⟩ hplaced
      obtain ⟨hr, rfl⟩ := mem_members.mp hplaced
      rw [mem_selected]
      constructor
      · rintro ⟨r', hr', hwon⟩
        obtain rfl := Option.some.inj (hr.symm.trans hr')
        exact Option.some.inj (hwon.symm.trans hwinner)
      · rintro rfl
        exact ⟨r, hr, hwinner⟩
  reported key hne hlost := by
    refine ⟨?_, ?_⟩
    · rintro ⟨r, place⟩ hplaced
      obtain ⟨hr, rfl⟩ := mem_members.mp hplaced
      refine mem_rejected.mpr ⟨(List.getElem?_eq_some_iff.mp hr).1, fun hselected => ?_⟩
      obtain ⟨r', hr', hwon⟩ := mem_selected.mp hselected
      obtain rfl := Option.some.inj (hr.symm.trans hr')
      simp [winner?_eq_none_iff.mpr hlost] at hwon
    · obtain ⟨first, hfirst, htarget⟩ := closest_first (members_places references key) hne
      refine ⟨first, hfirst, ?_⟩
      refine unresolved_ext ((unresolved_ascending resolves references).filter _)
        (List.pairwise_singleton _ _) fun lost => ?_
      rw [List.mem_filter, mem_unresolved, decide_eq_true_eq, List.mem_singleton]
      constructor
      · rintro ⟨⟨-, -, hlosttarget⟩, rfl⟩
        rw [← htarget, ← hlosttarget]
      · rintro rfl
        exact ⟨⟨hne, hlost, htarget.symm⟩, rfl⟩
  unresolved_ascending := unresolved_ascending resolves references
  reported_lost lost hlost := ⟨(mem_unresolved.mp hlost).1, (mem_unresolved.mp hlost).2.1⟩

/-- A selection keeps the first reference of each link that leads somewhere, and there is no other
that does. -/
theorem keepsFirst_iff (s : Selection) :
    KeepsFirst resolves references s ↔ s = select resolves references := by
  constructor
  · exact fun h => h.unique (select_keepsFirst resolves references)
  · rintro rfl
    exact select_keepsFirst resolves references

end Selection
end Macromark
