import Macromark.Project
import Mathlib.Data.List.Chain
import Mathlib.Data.List.Nodup
import Mathlib.Data.List.Perm.Subperm

/-!
# The walk up the structural references

`IsParent` says by the rows of a store what stands directly above an identifier,
and `Ascent` what a finished walk has found. The store may hold any rows, also
such that lead around in a circle. No chain of parents without repetition is
longer than the rows (`length_le_rows`), so that the bound of `ancestors` never
ends a walk, and there is one ascent from each identifier
(`ancestors_only_ascent`). Whatever chain of parents is known to repeat nothing
is the beginning of it (`prefix_ancestors`).
-/

namespace Macromark.Project

variable {store : Store} {id parent : String} {seen chain : List String} {steps : Nat}

-- ----------------------------------------------------------------------------
-- One step
-- ----------------------------------------------------------------------------

/-- The row says what stands above `id`. -/
def Raises (row : Store.Row) (id : String) : Prop :=
  row.reference.kind = .structuralParent ∧ row.reference.target = id ∧ row.reference.source ≠ ""

instance (row : Store.Row) (id : String) : Decidable (Raises row id) :=
  inferInstanceAs (Decidable (_ ∧ _ ∧ _))

/-- What stands directly above `id` by the row with the lowest number. -/
def IsParent (store : Store) (id parent : String) : Prop :=
  ∃ row ∈ store.rows, Raises row id ∧ row.reference.source = parent ∧
    ∀ other ∈ store.rows, Raises other id → row.id ≤ other.id

theorem parent?_eq (store : Store) (id : String) :
    parent? store id =
      (store.rows.find? fun row => decide (Raises row id)).map (·.reference.source) := by
  rw [parent?, Store.rowsAt, List.find?_map, List.find?_filter]
  congr 2
  funext row
  refine Bool.eq_iff_iff.mpr (.trans ?_ decide_eq_true_iff.symm)
  simp [Raises, and_assoc]

/-- In a list by ascending numbers the first row of a kind has the lowest number. -/
theorem find?_ascending {rows : List Store.Row} (h : rows.Pairwise fun a b => a.id < b.id)
    {p : Store.Row → Bool} {row : Store.Row} :
    rows.find? p = some row ↔
      row ∈ rows ∧ p row = true ∧ ∀ other ∈ rows, p other = true → row.id ≤ other.id := by
  induction rows with
  | nil => simp
  | cons first rest ih =>
    obtain ⟨hfirst, hrest⟩ := List.pairwise_cons.mp h
    by_cases hp : p first = true
    · rw [List.find?_cons_of_pos hp, Option.some_inj]
      constructor
      · rintro rfl
        refine ⟨List.mem_cons_self, hp, fun other hother _ => ?_⟩
        rcases List.mem_cons.mp hother with rfl | hother
        · exact Nat.le_refl _
        · exact (hfirst other hother).le
      · rintro ⟨hrow, -, hleast⟩
        rcases List.mem_cons.mp hrow with rfl | hrow
        · rfl
        · exact absurd (hleast first List.mem_cons_self hp) (Nat.not_le.mpr (hfirst row hrow))
    · rw [List.find?_cons_of_neg hp, ih hrest]
      simp only [List.mem_cons, forall_eq_or_imp]
      constructor
      · rintro ⟨hrow, hprow, hleast⟩
        exact ⟨.inr hrow, hprow, fun hpfirst => absurd hpfirst hp, hleast⟩
      · rintro ⟨rfl | hrow, hprow, -, hleast⟩
        · exact absurd hprow hp
        · exact ⟨hrow, hprow, hleast⟩

theorem parent?_eq_some_iff (h : store.rows.Pairwise fun a b => a.id < b.id) :
    parent? store id = some parent ↔ IsParent store id parent := by
  simp only [parent?_eq, Option.map_eq_some_iff, find?_ascending h, decide_eq_true_eq, IsParent]
  constructor
  · rintro ⟨row, ⟨hrow, hraises, hleast⟩, hsource⟩
    exact ⟨row, hrow, hraises, hsource, hleast⟩
  · rintro ⟨row, hrow, hraises, hsource, hleast⟩
    exact ⟨row, ⟨hrow, hraises, hleast⟩, hsource⟩

theorem exists_row_of_parent? (h : parent? store id = some parent) :
    ∃ row ∈ store.rows, row.reference.source = parent := by
  rw [parent?_eq, Option.map_eq_some_iff] at h
  obtain ⟨row, hfound, rfl⟩ := h
  exact ⟨row, List.mem_of_find?_eq_some hfound, rfl⟩

-- ----------------------------------------------------------------------------
-- The walk
-- ----------------------------------------------------------------------------

/-- A walk adds nothing that has been seen, and nothing twice. -/
theorem climb_nodup (hid : id ∈ seen) :
    (climb store steps seen id).Nodup ∧ ∀ x ∈ climb store steps seen id, x ∉ seen := by
  induction steps generalizing seen id with
  | zero => simp [climb]
  | succ steps ih =>
    cases hparent : parent? store id with
    | none => simp [climb, hparent]
    | some parent =>
      by_cases hseen : parent ∈ seen
      · simp [climb, hparent, hseen]
      · obtain ⟨hnodup, hnew⟩ := ih (List.mem_cons_self (a := parent) (l := seen))
        have hclimb : climb store (steps + 1) seen id =
            parent :: climb store steps (parent :: seen) parent := by
          simp [climb, hparent, hseen]
        rw [hclimb]
        refine ⟨List.nodup_cons.mpr ⟨fun hmem => hnew parent hmem List.mem_cons_self, hnodup⟩, ?_⟩
        intro x hx
        rcases List.mem_cons.mp hx with rfl | hx
        · exact hseen
        · exact fun hmem => hnew x hx (List.mem_cons_of_mem _ hmem)

theorem climb_isChain (store : Store) (steps : Nat) (seen : List String) (id : String) :
    (id :: climb store steps seen id).IsChain fun below above =>
      parent? store below = some above := by
  induction steps generalizing seen id with
  | zero => exact List.isChain_singleton id
  | succ steps ih =>
    unfold climb
    split
    · exact List.isChain_singleton id
    · next parent hparent =>
      split
      · exact List.isChain_singleton id
      · exact List.isChain_cons_cons.mpr ⟨hparent, ih _ parent⟩

/-- A walk that had steps left has ended where there is no parent, or one that has
been seen. -/
theorem climb_top (hsteps : (climb store steps seen id).length < steps)
    (hparent : parent? store ((id :: climb store steps seen id).getLast (List.cons_ne_nil _ _)) =
      some parent) :
    parent ∈ climb store steps seen id ∨ parent ∈ seen := by
  induction steps generalizing seen id with
  | zero => exact absurd hsteps (Nat.not_lt_zero _)
  | succ steps ih =>
    cases hnext : parent? store id with
    | none => simp [climb, hnext] at hparent
    | some next =>
      by_cases hseen : next ∈ seen
      · right
        have heq : next = parent := by simpa [climb, hnext, hseen] using hparent
        exact heq ▸ hseen
      · have hclimb : climb store (steps + 1) seen id =
            next :: climb store steps (next :: seen) next := by
          simp [climb, hnext, hseen]
        simp only [hclimb, List.length_cons, Nat.add_lt_add_iff_right,
          List.getLast_cons_cons] at hsteps hparent
        rw [hclimb, List.mem_cons]
        rcases ih hsteps hparent with hmem | hmem
        · exact .inl (.inr hmem)
        · rcases List.mem_cons.mp hmem with heq | hmem
          · exact .inl (.inl heq)
          · exact .inr hmem

/-- A chain of parents that repeats nothing is the beginning of the walk. -/
theorem prefix_climb
    (hchain : (id :: chain).IsChain fun below above => parent? store below = some above)
    (hnodup : chain.Nodup) (hnew : ∀ x ∈ chain, x ∉ seen) (hsteps : chain.length ≤ steps) :
    chain <+: climb store steps seen id := by
  induction chain generalizing steps seen id with
  | nil => exact List.nil_prefix
  | cons parent chain ih =>
    obtain ⟨hparent, hrest⟩ := List.isChain_cons_cons.mp hchain
    obtain ⟨hfirst, hnodup⟩ := List.nodup_cons.mp hnodup
    obtain ⟨steps, rfl⟩ : ∃ fewer, steps = fewer + 1 :=
      ⟨steps - 1, by simp only [List.length_cons] at hsteps; omega⟩
    have hseen := hnew parent List.mem_cons_self
    have hclimb : climb store (steps + 1) seen id =
        parent :: climb store steps (parent :: seen) parent := by
      simp [climb, hparent, hseen]
    rw [hclimb, List.prefix_cons_inj]
    refine ih hrest hnodup (fun x hx hmem => ?_) (Nat.le_of_succ_le_succ hsteps)
    rcases List.mem_cons.mp hmem with rfl | hmem
    · exact hfirst hx
    · exact hnew x (List.mem_cons_of_mem _ hx) hmem

/-- The parents of a chain are sources of as many rows. -/
theorem length_le_rows
    (hchain : (id :: chain).IsChain fun below above => parent? store below = some above)
    (hnodup : chain.Nodup) : chain.length ≤ store.rows.length := by
  have hsources : chain ⊆ store.rows.map (·.reference.source) := by
    induction chain generalizing id with
    | nil => exact List.nil_subset _
    | cons parent chain ih =>
      obtain ⟨hparent, hrest⟩ := List.isChain_cons_cons.mp hchain
      obtain ⟨row, hrow, hsource⟩ := exists_row_of_parent? hparent
      exact List.cons_subset.mpr ⟨List.mem_map.mpr ⟨row, hrow, hsource⟩, ih hrest hnodup.of_cons⟩
  simpa using (hnodup.subperm hsources).length_le

/-- The bound of the walk is never reached. -/
theorem length_ancestors (store : Store) (id : String) :
    (ancestors store id).length ≤ store.rows.length :=
  length_le_rows (climb_isChain store _ _ id) (climb_nodup (List.mem_singleton_self id)).1

-- ----------------------------------------------------------------------------
-- Ascents
-- ----------------------------------------------------------------------------

/-- What a walk from `id` finds, nearest first. -/
structure Ascent (store : Store) (id : String) (chain : List String) : Prop where
  /-- Nothing is met twice, nor is the start. -/
  nodup : (id :: chain).Nodup
  parents : (id :: chain).IsChain (IsParent store)
  /-- It ends only where nothing is above, or something that has been met. -/
  top : ∀ parent, IsParent store ((id :: chain).getLast (List.cons_ne_nil _ _)) parent →
    parent ∈ id :: chain

section Walk

variable (hrows : store.rows.Pairwise fun a b => a.id < b.id)
include hrows

theorem isChain_parents_iff {ids : List String} :
    (ids.IsChain fun below above => parent? store below = some above) ↔
      ids.IsChain (IsParent store) := by
  simp only [parent?_eq_some_iff hrows]

theorem ascent_climb (hsteps : (climb store steps [id] id).length < steps) :
    Ascent store id (climb store steps [id] id) := by
  obtain ⟨hnodup, hnew⟩ := @climb_nodup store id [id] steps (List.mem_singleton_self id)
  refine ⟨?_, (isChain_parents_iff hrows).mp (climb_isChain store steps [id] id), ?_⟩
  · exact List.nodup_cons.mpr ⟨fun hmem => hnew id hmem (List.mem_singleton_self id), hnodup⟩
  · intro parent hparent
    rcases climb_top hsteps ((parent?_eq_some_iff hrows).mpr hparent) with hmem | hmem
    · exact List.mem_cons_of_mem _ hmem
    · exact List.mem_singleton.mp hmem ▸ List.mem_cons_self

theorem Ascent.climb_eq (h : Ascent store id chain) (hsteps : chain.length ≤ steps) :
    climb store steps [id] id = chain := by
  obtain ⟨hid, hnodup⟩ := List.nodup_cons.mp h.nodup
  have hnew : ∀ x ∈ chain, x ∉ [id] := fun x hx hmem => hid (List.mem_singleton.mp hmem ▸ hx)
  obtain ⟨rest, hrest⟩ :=
    prefix_climb ((isChain_parents_iff hrows).mpr h.parents) hnodup hnew hsteps
  cases rest with
  | nil => rw [← hrest, List.append_nil]
  | cons next rest =>
    -- A further parent would be one that the ascent has met.
    have hwalk := climb_isChain store steps [id] id
    obtain ⟨hunique, hother⟩ :=
      @climb_nodup store id [id] steps (List.mem_singleton_self id)
    rw [← hrest] at hwalk hunique hother
    rw [← List.cons_append, List.isChain_append] at hwalk
    have hnext := hwalk.2.2 _ (List.getLast_mem_getLast? (List.cons_ne_nil id chain)) next rfl
    rcases List.mem_cons.mp (h.top next ((parent?_eq_some_iff hrows).mp hnext)) with rfl | hmem
    · exact absurd (List.mem_singleton_self _) (hother _ (by simp))
    · exact absurd rfl ((List.nodup_append.mp hunique).2.2 next hmem next List.mem_cons_self)

/-- A chain of parents that repeats nothing is the beginning of the ancestors. -/
theorem prefix_ancestors (hchain : (id :: chain).IsChain (IsParent store))
    (hnodup : (id :: chain).Nodup) : chain <+: ancestors store id := by
  obtain ⟨hid, hnodup⟩ := List.nodup_cons.mp hnodup
  have hparents := (isChain_parents_iff hrows).mpr hchain
  refine prefix_climb hparents hnodup (fun x hx hmem => hid (List.mem_singleton.mp hmem ▸ hx)) ?_
  exact (length_le_rows hparents hnodup).trans (Nat.le_succ _)

theorem Ascent.eq_ancestors (h : Ascent store id chain) : chain = ancestors store id := by
  obtain ⟨-, hnodup⟩ := List.nodup_cons.mp h.nodup
  have hlength := length_le_rows ((isChain_parents_iff hrows).mpr h.parents) hnodup
  exact (h.climb_eq hrows (hlength.trans (Nat.le_succ _))).symm

/-- The ancestors are the only ascent, and the walk to them ends by itself: it finds
the same however many steps it may take. -/
theorem ancestors_only_ascent (id : String) :
    Ascent store id (ancestors store id) ∧
      (∀ chain, Ascent store id chain → chain = ancestors store id) ∧
      ∀ steps, (ancestors store id).length ≤ steps →
        climb store steps [id] id = ancestors store id := by
  have hascent : Ascent store id (ancestors store id) :=
    ascent_climb hrows (Nat.lt_succ_of_le (length_ancestors store id))
  exact ⟨hascent, fun chain hchain => hchain.eq_ancestors hrows,
    fun steps hsteps => hascent.climb_eq hrows hsteps⟩

end Walk

-- ----------------------------------------------------------------------------
-- Around in a circle
-- ----------------------------------------------------------------------------

def ringRow (row : RowId) (below above : String) : Store.Row :=
  ⟨row, { kind := .structuralParent, target := below, source := above, site := ⟨"ring", .origin⟩ }⟩

/-- Geese below swans below ducks below geese; a second parent of the geese, one that
is empty, and a document that includes itself. -/
def ring : Store :=
  ⟨[], [ringRow 0 "geese" "", ringRow 2 "geese" "swans", ringRow 3 "geese" "ponds",
    ringRow 5 "swans" "ducks", ringRow 7 "ducks" "geese", ringRow 8 "ponds" "ponds"], 9⟩

theorem ancestors_only_ascent_ring :
    (ring.rows.Pairwise fun a b => a.id < b.id) ∧
      ancestors ring "geese" = ["swans", "ducks"] ∧ Ascent ring "geese" ["swans", "ducks"] ∧
      ancestors ring "ponds" = [] ∧ Ascent ring "ponds" [] := by
  have hrows : ring.rows.Pairwise fun a b => a.id < b.id := by decide
  have hgeese : ancestors ring "geese" = ["swans", "ducks"] := by decide +kernel
  have hponds : ancestors ring "ponds" = [] := by decide +kernel
  exact ⟨hrows, hgeese, hgeese ▸ (ancestors_only_ascent hrows "geese").1, hponds,
    hponds ▸ (ancestors_only_ascent hrows "ponds").1⟩

end Macromark.Project
