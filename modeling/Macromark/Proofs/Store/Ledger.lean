import Macromark.Proofs.Store

/-!
# The store as a ledger

A ledger keeps apart what every document has entered: the records of its last
update, and those of its rows that have not been deleted. A store keeps all
records together and all rows together, and forgets a document by looking
through them. Where no identifier is entered that another document holds, both
give the same answers, whatever they are asked and in whatever order
(`serveAll_ledger`): one request keeps the store in line with the ledger
(`Ledger.Of.serve`), and what is in line with the ledger is found in either
(`Ledger.Of.lookup`, `Ledger.Of.rows`).
-/

namespace Macromark

open Store (Row)

-- ----------------------------------------------------------------------------
-- Requests
-- ----------------------------------------------------------------------------

namespace Store

inductive Request where
  | update (c : Contribution)
  | clear (documents : List String)
  | delete (numbers : List RowId)
  | lookup (ids excluded : List String)
  | rowsAt (kind : ReferenceKind) (ids : List String) (away : Bool)
  | rowsIn (documents : List String)
deriving DecidableEq, Repr

inductive Answer where
  | done
  | numbers (given : List RowId)
  | records (found : List IdRecord)
  | rows (found : List Row)
deriving DecidableEq, Repr

def Answer.given : Answer → List RowId
  | .numbers given => given
  | _ => []

def serve (s : Store) : Request → Answer × Store
  | .update c => let (given, s) := s.update c; (.numbers given, s)
  | .clear documents => (.done, s.clear documents)
  | .delete numbers => (.done, s.delete numbers)
  | .lookup ids excluded => (.records (s.lookup ids excluded), s)
  | .rowsAt kind ids away => (.rows (s.rowsAt kind ids away), s)
  | .rowsIn documents => (.rows (s.rowsIn documents), s)

end Store

open Store (Request Answer)

def serveAll {σ : Type} (serve : σ → Request → Answer × σ) (s : σ) : List Request → List Answer
  | [] => []
  | request :: rest =>
    let (answer, s) := serve s request
    answer :: serveAll serve s rest

-- ----------------------------------------------------------------------------
-- Ledgers
-- ----------------------------------------------------------------------------

structure Holding where
  records : OrderedMap String IdRecord
  rows : List Row
deriving DecidableEq, Repr

structure Ledger where
  /-- By the names of the documents. -/
  holdings : OrderedMap String Holding
  /-- How many rows have been entered. -/
  entered : Nat
deriving DecidableEq, Repr

namespace Ledger

def empty : Ledger := ⟨[], 0⟩

/-- Rows are numbered in the order in which they are entered. -/
def update (l : Ledger) (c : Contribution) : List RowId × Ledger :=
  let given := List.range' l.entered c.references.length
  (given,
    { holdings := l.holdings.insert c.document ⟨c.ids, List.zipWith Row.mk given c.references⟩
      entered := l.entered + c.references.length })

def clear (l : Ledger) (documents : List String) : Ledger :=
  { l with holdings := l.holdings.filter fun held => !documents.contains held.1 }

def delete (l : Ledger) (numbers : List RowId) : Ledger :=
  { l with holdings := l.holdings.map fun held =>
      (held.1, { held.2 with rows := held.2.rows.filter fun row => !numbers.contains row.id }) }

/-- The record of an identifier, in a document that is not excluded. -/
def record? (l : Ledger) (excluded : List String) (id : String) : Option IdRecord :=
  l.holdings.findSome? fun held =>
    if excluded.contains held.1 then none else held.2.records.get? id

def inOrder (holdings : OrderedMap String Holding) : List Row :=
  (holdings.flatMap (·.2.rows)).mergeSort fun a b => a.id ≤ b.id

def rowsAt (l : Ledger) (kind : ReferenceKind) (ids : List String) (away : Bool) : List Row :=
  (inOrder l.holdings).filter fun row =>
    row.reference.kind = kind ∧
      (if away then row.reference.source else row.reference.target) ∈ ids

def rowsIn (l : Ledger) (documents : List String) : List Row :=
  inOrder (l.holdings.filter fun held => documents.contains held.1)

def serve (l : Ledger) : Request → Answer × Ledger
  | .update c => let (given, l) := l.update c; (.numbers given, l)
  | .clear documents => (.done, l.clear documents)
  | .delete numbers => (.done, l.delete numbers)
  | .lookup ids excluded => (.records (ids.filterMap (l.record? excluded)), l)
  | .rowsAt kind ids away => (.rows (l.rowsAt kind ids away), l)
  | .rowsIn documents => (.rows (l.rowsIn documents), l)

end Ledger

/-- A contribution names its document throughout. -/
structure Contribution.Owned (c : Contribution) : Prop where
  sorted : c.ids.Sorted
  records : ∀ entry ∈ c.ids, entry.2.document = c.document
  sites : ∀ r ∈ c.references, r.site.document = c.document

instance (c : Contribution) : Decidable c.Owned :=
  decidable_of_iff
    (c.ids.Pairwise (fun (a b : String × IdRecord) => a.1 < b.1) ∧
      (∀ entry ∈ c.ids, entry.2.document = c.document) ∧
      ∀ r ∈ c.references, r.site.document = c.document)
    ⟨fun h => ⟨h.1, h.2.1, h.2.2⟩, fun h => ⟨h.sorted, h.records, h.sites⟩⟩

/-- An update enters what its document owns, and no identifier that another document holds. -/
def Ledger.Accepts (l : Ledger) : Request → Prop
  | .update c => c.Owned ∧ ∀ held ∈ l.holdings, held.1 ≠ c.document →
      ∀ entry ∈ c.ids, held.2.records.contains entry.1 = false
  | _ => True

def Ledger.AcceptsAll (l : Ledger) : List Request → Prop
  | [] => True
  | request :: rest => l.Accepts request ∧ (l.serve request).2.AcceptsAll rest

instance (l : Ledger) (request : Request) : Decidable (l.Accepts request) :=
  match request with
  | .update c => inferInstanceAs (Decidable (c.Owned ∧ ∀ held ∈ l.holdings,
      held.1 ≠ c.document → ∀ entry ∈ c.ids, held.2.records.contains entry.1 = false))
  | .clear _ | .delete _ | .lookup _ _ | .rowsAt _ _ _ | .rowsIn _ => isTrue trivial

instance Ledger.decidableAcceptsAll (l : Ledger) (requests : List Request) :
    Decidable (l.AcceptsAll requests) :=
  match requests with
  | [] => isTrue trivial
  | request :: rest =>
    have := decidableAcceptsAll (l.serve request).2 rest
    inferInstanceAs (Decidable (l.Accepts request ∧ (l.serve request).2.AcceptsAll rest))

-- ----------------------------------------------------------------------------
-- What a ledger and a store have in common
-- ----------------------------------------------------------------------------

/-- What is held for a document is the document's own. -/
structure Holding.OwnedBy (document : String) (held : Holding) : Prop where
  sorted : held.records.Sorted
  records : ∀ id r, held.records.get? id = some r → r.document = document
  rows : ∀ row ∈ held.rows, row.reference.site.document = document

structure Ledger.Of (l : Ledger) (s : Store) : Prop where
  documents : l.holdings.Sorted
  owned : ∀ held ∈ l.holdings, held.2.OwnedBy held.1
  sorted : s.records.Sorted
  records : ∀ id r, s.records.get? id = some r ↔
    ∃ held ∈ l.holdings, held.2.records.get? id = some r
  rows : (l.holdings.flatMap (·.2.rows)).Perm s.rows
  ascending : s.rows.Pairwise fun a b => a.id < b.id
  below : ∀ row ∈ s.rows, row.id < s.nextRow
  entered : l.entered = s.nextRow

theorem Store.zipWith_range' (next : RowId) (references : List Reference) :
    List.zipWith Row.mk (List.range' next references.length) references =
      number next references := by
  induction references generalizing next with
  | nil => rfl
  | cons r rest ih => simp [List.range'_succ, number, ih]

theorem Store.ids_number (next : RowId) (references : List Reference) :
    (number next references).map (·.id) = List.range' next references.length := by
  induction references generalizing next with
  | nil => rfl
  | cons r rest ih => simp [List.range'_succ, number, ih]

namespace Ledger

variable {l : Ledger} {s : Store} {holdings : OrderedMap String Holding}

-- ----------------------------------------------------------------------------
-- Questions
-- ----------------------------------------------------------------------------

/-- The documents of rows tell in which holdings they are. -/
theorem flatMap_rows_filter (howned : ∀ held ∈ holdings, held.2.OwnedBy held.1)
    (p : String → Bool) :
    (holdings.filter fun held => p held.1).flatMap (·.2.rows) =
      (holdings.flatMap (·.2.rows)).filter fun row => p row.reference.site.document := by
  induction holdings with
  | nil => rfl
  | cons held rest ih =>
    have hheld := howned held List.mem_cons_self
    have hrest := ih fun held h => howned held (List.mem_cons_of_mem _ h)
    rw [List.flatMap_cons, List.filter_append, ← hrest, List.filter_cons]
    cases hp : p held.1 with
    | true =>
      have hall : held.2.rows.filter (fun row => p row.reference.site.document) = held.2.rows :=
        List.filter_eq_self.mpr fun row hrow => by rw [hheld.rows row hrow, hp]
      rw [if_pos rfl, List.flatMap_cons, hall]
    | false =>
      have hnone : held.2.rows.filter (fun row => p row.reference.site.document) = [] :=
        List.filter_eq_nil_iff.mpr fun row hrow => by simp [hheld.rows row hrow, hp]
      rw [if_neg Bool.false_ne_true, hnone, List.nil_append]

/-- Rows that are already known in their order are found in it. -/
theorem inOrder_eq {rows : List Row} (hperm : (holdings.flatMap (·.2.rows)).Perm rows)
    (hascending : rows.Pairwise fun a b => a.id < b.id) : inOrder holdings = rows := by
  have hsorted : (inOrder holdings).Pairwise fun a b => a.id ≤ b.id := by
    refine (List.pairwise_mergeSort ?_ ?_ _).imp fun h => of_decide_eq_true h
    · intro a b c hab hbc
      exact decide_eq_true (Nat.le_trans (of_decide_eq_true hab) (of_decide_eq_true hbc))
    · intro a b
      simpa using Nat.le_total a.id b.id
  have hsame : (inOrder holdings).Perm rows := (List.mergeSort_perm _ _).trans hperm
  refine hsame.eq_of_pairwise ?_ hsorted (hascending.imp Nat.le_of_lt)
  intro a b ha hb hab hba
  have hinj := List.pairwise_iff_getElem.mp hascending
  obtain ⟨i, hi, rfl⟩ := List.mem_iff_getElem.mp (hsame.mem_iff.mp ha)
  obtain ⟨j, hj, rfl⟩ := List.mem_iff_getElem.mp hb
  rcases Nat.lt_trichotomy i j with hij | rfl | hij
  · exact absurd (hinj i j hi hj hij) (Nat.not_lt.mpr hba)
  · rfl
  · exact absurd (hinj j i hj hi hij) (Nat.not_lt.mpr hab)

theorem Of.inOrder_eq (h : l.Of s) : inOrder l.holdings = s.rows :=
  Ledger.inOrder_eq h.rows h.ascending

theorem Of.rowsAt (h : l.Of s) (kind : ReferenceKind) (ids : List String) (away : Bool) :
    s.rowsAt kind ids away = l.rowsAt kind ids away := by
  rw [Ledger.rowsAt, h.inOrder_eq, Store.rowsAt]
  congr 1
  funext row
  rw [Bool.eq_iff_iff]
  simp

theorem Of.rowsIn (h : l.Of s) (documents : List String) :
    s.rowsIn documents = l.rowsIn documents := by
  refine (Ledger.inOrder_eq ?_ (h.ascending.filter _)).symm
  rw [flatMap_rows_filter h.owned]
  exact h.rows.filter _

theorem Of.record?_eq (h : l.Of s) (excluded : List String) (id : String) :
    l.record? excluded id =
      (s.records.get? id).filter fun r => !excluded.contains r.document := by
  cases hfound : s.records.get? id with
  | none =>
    refine List.findSome?_eq_none_iff.mpr fun held hheld => ?_
    have hnone : held.2.records.get? id = none := by
      refine Option.eq_none_iff_forall_ne_some.mpr fun r hr => ?_
      rw [(h.records id r).mpr ⟨held, hheld, hr⟩] at hfound
      cases hfound
    rw [hnone, ite_self]
  | some r =>
    obtain ⟨held, hheld, hr⟩ := (h.records id r).mp hfound
    have hown : r.document = held.1 := (h.owned held hheld).records id r hr
    -- Whichever document is asked has this record, or none.
    have hunique : ∀ other ∈ l.holdings, ∀ found, other.2.records.get? id = some found →
        found = r ∧ other.1 = r.document := by
      intro other hother found hfound'
      obtain rfl : r = found :=
        Option.some.inj (hfound.symm.trans ((h.records id found).mpr ⟨other, hother, hfound'⟩))
      exact ⟨rfl, ((h.owned other hother).records id r hfound').symm⟩
    cases hex : excluded.contains r.document with
    | true =>
      rw [Option.filter, hex, Bool.not_true, if_neg Bool.false_ne_true]
      refine List.findSome?_eq_none_iff.mpr fun other hother => ?_
      cases hfound' : other.2.records.get? id with
      | none => rw [ite_self]
      | some found => rw [(hunique other hother found hfound').2, hex, if_pos rfl]
    | false =>
      rw [Option.filter, hex, Bool.not_false, if_pos rfl]
      obtain ⟨found, hsome⟩ : ∃ found, l.record? excluded id = some found := by
        refine Option.isSome_iff_exists.mp (List.findSome?_isSome_iff.mpr ⟨held, hheld, ?_⟩)
        rw [← hown, hex, if_neg Bool.false_ne_true, hr, Option.isSome_some]
      obtain ⟨other, hother, hthere⟩ := List.exists_of_findSome?_eq_some hsome
      split at hthere
      · cases hthere
      · rw [hsome, (hunique other hother found hthere).1]

theorem Of.lookup (h : l.Of s) (ids excluded : List String) :
    s.lookup ids excluded = ids.filterMap (l.record? excluded) := by
  rw [Store.lookup, List.filter_filterMap]
  congr 1
  funext id
  exact (h.record?_eq excluded id).symm

-- ----------------------------------------------------------------------------
-- Changes
-- ----------------------------------------------------------------------------

theorem Of.empty : Ledger.empty.Of .empty where
  documents := OrderedMap.sorted_nil
  owned := by simp [Ledger.empty]
  sorted := OrderedMap.sorted_nil
  records := by simp [Ledger.empty, Store.empty]
  rows := List.Perm.refl _
  ascending := List.Pairwise.nil
  below := by simp [Store.empty]
  entered := rfl

theorem Of.clear (h : l.Of s) (documents : List String) :
    (l.clear documents).Of (s.clear documents) where
  documents := h.documents.filter _
  owned held hheld := h.owned held (List.mem_filter.mp hheld).1
  sorted := h.sorted.filter _
  records id r := by
    simp only [Store.clear, Ledger.clear, OrderedMap.get?_filter h.sorted, List.mem_filter,
      Option.filter_eq_some_iff, h.records id r]
    constructor
    · rintro ⟨⟨held, hheld, hr⟩, hkept⟩
      exact ⟨held, ⟨hheld, (h.owned held hheld).records id r hr ▸ hkept⟩, hr⟩
    · rintro ⟨held, ⟨hheld, hkept⟩, hr⟩
      exact ⟨⟨held, hheld, hr⟩, ((h.owned held hheld).records id r hr).symm ▸ hkept⟩
  rows := by
    rw [Ledger.clear, flatMap_rows_filter h.owned fun document => !documents.contains document]
    exact h.rows.filter _
  ascending := h.ascending.filter _
  below row hrow := h.below row (List.mem_filter.mp hrow).1
  entered := h.entered

theorem Of.delete (h : l.Of s) (numbers : List RowId) :
    (l.delete numbers).Of (s.delete numbers) where
  documents := h.documents.mapValues _
  owned held hheld := by
    obtain ⟨before, hbefore, rfl⟩ := List.mem_map.mp hheld
    have howned := h.owned before hbefore
    exact ⟨howned.sorted, howned.records, fun row hrow =>
      howned.rows row (List.mem_filter.mp hrow).1⟩
  sorted := h.sorted
  records id r := by
    simp only [Store.delete, Ledger.delete, h.records id r, List.mem_map,
      exists_exists_and_eq_and]
  rows := by
    rw [Ledger.delete, List.flatMap_map, ← List.filter_flatMap]
    exact h.rows.filter _
  ascending := h.ascending.filter _
  below row hrow := h.below row (List.mem_filter.mp hrow).1
  entered := h.entered

theorem clear_singleton (l : Ledger) (document : String) :
    (l.clear [document]).holdings = l.holdings.erase document := by
  simp [Ledger.clear, OrderedMap.erase]

theorem Of.update (h : l.Of s) {c : Contribution} (haccepts : l.Accepts (.update c)) :
    (l.update c).2.Of (s.update c).2 where
  documents := h.documents.insert _ _
  owned held hheld := by
    rcases OrderedMap.mem_insert hheld with rfl | hheld
    · refine ⟨haccepts.1.sorted, fun id r hr => ?_, fun row hrow => ?_⟩
      · exact haccepts.1.records _ (OrderedMap.mem_of_get? hr)
      · rw [Store.zipWith_range'] at hrow
        obtain ⟨place, -, hr⟩ := Store.mem_number.mp hrow
        exact haccepts.1.sites _ (List.mem_of_getElem? hr)
    · exact h.owned held hheld
  sorted := (h.sorted.filter _).insertAll _
  records id r := by
    simp only [Ledger.update, Store.update, OrderedMap.get?_insertAll haccepts.1.sorted,
      (h.documents.insert_perm _ _).mem_iff, List.mem_cons, exists_eq_or_imp]
    rw [Option.or_eq_some_iff, (h.clear [c.document]).records, clear_singleton]
    refine or_congr_right ⟨And.right, fun hthere => ⟨?_, hthere⟩⟩
    -- Another document has the identifier, so that this one does not enter it.
    obtain ⟨held, hheld, hr⟩ := hthere
    obtain ⟨hheld, hother⟩ := List.mem_filter.mp hheld
    refine Option.not_isSome_iff_eq_none.mp fun hsome => ?_
    obtain ⟨entered, hentered⟩ := Option.isSome_iff_exists.mp hsome
    have hnone := haccepts.2 held hheld (of_decide_eq_true hother) _
      (OrderedMap.mem_of_get? hentered)
    rw [OrderedMap.contains, hr] at hnone
    cases hnone
  rows := by
    refine ((h.documents.insert_perm _ _).flatMap_right _).trans ?_
    rw [List.flatMap_cons, Store.zipWith_range', ← clear_singleton, h.entered]
    exact List.perm_append_comm.trans ((h.clear [c.document]).rows.append_right _)
  ascending := by
    refine List.pairwise_append.mpr ⟨h.ascending.filter _, Store.number_ascending _ _, ?_⟩
    intro old hold new hnew
    exact Nat.lt_of_lt_of_le (h.below old (List.mem_filter.mp hold).1) (Store.number_below hnew).1
  below row hrow := by
    rcases List.mem_append.mp hrow with hrow | hrow
    · exact Nat.lt_of_lt_of_le (h.below row (List.mem_filter.mp hrow).1) (Nat.le_add_right _ _)
    · exact (Store.number_below hrow).2
  entered := congrArg (· + c.references.length) h.entered

-- ----------------------------------------------------------------------------
-- Runs
-- ----------------------------------------------------------------------------

theorem Of.serve (h : l.Of s) {request : Request} (haccepts : l.Accepts request) :
    (s.serve request).1 = (l.serve request).1 ∧ (l.serve request).2.Of (s.serve request).2 := by
  cases request with
  | update c =>
    refine ⟨congrArg Answer.numbers ?_, h.update haccepts⟩
    exact (Store.ids_number _ _).trans (by rw [h.entered])
  | clear documents => exact ⟨rfl, h.clear documents⟩
  | delete numbers => exact ⟨rfl, h.delete numbers⟩
  | lookup ids excluded => exact ⟨congrArg Answer.records (h.lookup ids excluded), h⟩
  | rowsAt kind ids away => exact ⟨congrArg Answer.rows (h.rowsAt kind ids away), h⟩
  | rowsIn documents => exact ⟨congrArg Answer.rows (h.rowsIn documents), h⟩

theorem Of.serveAll_eq (h : l.Of s) {requests : List Request} (haccepts : l.AcceptsAll requests) :
    serveAll Store.serve s requests = serveAll Ledger.serve l requests := by
  induction requests generalizing l s with
  | nil => rfl
  | cons request rest ih =>
    obtain ⟨hanswer, hof⟩ := h.serve haccepts.1
    exact congrArg₂ List.cons hanswer (ih hof haccepts.2)

/-- One request gives out the numbers from the next one on. -/
theorem given_serve (l : Ledger) (request : Request) :
    ∃ count, (l.serve request).1.given = List.range' l.entered count ∧
      (l.serve request).2.entered = l.entered + count := by
  cases request with
  | update c => exact ⟨c.references.length, rfl, rfl⟩
  | clear | delete | lookup | rowsAt | rowsIn => exact ⟨0, rfl, rfl⟩

theorem given_serveAll (l : Ledger) (requests : List Request) :
    ∃ count, (serveAll Ledger.serve l requests).flatMap Answer.given =
      List.range' l.entered count := by
  induction requests generalizing l with
  | nil => exact ⟨0, rfl⟩
  | cons request rest ih =>
    obtain ⟨first, hgiven, hentered⟩ := l.given_serve request
    obtain ⟨more, hrest⟩ := ih (l.serve request).2
    refine ⟨first + more, ?_⟩
    rw [serveAll, List.flatMap_cons, hgiven, hrest, hentered, List.range'_append_1]

/-- An update is answered by as many numbers as it has references. -/
theorem numbers_serveAll (l : Ledger) (requests : List Request) {place : Nat} {c : Contribution}
    (hplace : requests[place]? = some (.update c)) :
    ∃ numbers, (serveAll Ledger.serve l requests)[place]? = some (.numbers numbers) ∧
      numbers.length = c.references.length := by
  induction requests generalizing l place with
  | nil => cases hplace
  | cons request rest ih =>
    cases place with
    | zero =>
      cases hplace
      exact ⟨_, rfl, List.length_range'⟩
    | succ place => exact ih _ hplace

end Ledger

/-- A store that starts empty answers like the ledger of what every document has entered, for as
long as no document enters an identifier that another one holds. An update gives one number for
each of its references, and no number is given twice. -/
theorem serveAll_ledger (requests : List Request)
    (haccepts : Ledger.empty.AcceptsAll requests) :
    let answers := serveAll Store.serve .empty requests
    answers = serveAll Ledger.serve .empty requests ∧
      (∀ (place : Nat) (c : Contribution), requests[place]? = some (Request.update c) →
        ∃ numbers, answers[place]? = some (Answer.numbers numbers) ∧
          numbers.length = c.references.length) ∧
      (answers.flatMap Answer.given).Nodup := by
  intro answers
  have hanswers : answers = serveAll Ledger.serve .empty requests :=
    Ledger.Of.empty.serveAll_eq haccepts
  refine ⟨hanswers, ?_, ?_⟩
  · rw [hanswers]
    exact fun place c hplace => Ledger.numbers_serveAll .empty requests hplace
  · obtain ⟨count, hgiven⟩ := Ledger.given_serveAll .empty requests
    rw [hanswers, hgiven]
    exact List.nodup_range'

/-- The second document takes over an identifier that the first one has given up. -/
theorem serveAll_ledger_takeover :
    let record (document id : String) := (id, IdRecord.define id "section" ⟨document, ⟨1, 1⟩⟩)
    let link (document source target : String) : Reference :=
      ⟨source, target, .crossReference, ⟨document, ⟨2, 1⟩⟩, false⟩
    let first : Contribution := ⟨"a", [record "a" "x"], [link "a" "x" "y", link "a" "x" "x"]⟩
    let second : Contribution := ⟨"b", [record "b" "y"], [link "b" "y" "x"]⟩
    let requests : List Request := [.update first, .update second, .delete [0, 7],
      .update { first with ids := [record "a" "z"] }, .update { second with ids := [record "b" "x"] },
      .lookup ["x", "y", "z"] ["a"], .clear ["b"], .rowsIn ["a", "b"]]
    Ledger.empty.AcceptsAll requests ∧
      serveAll Store.serve .empty requests = serveAll Ledger.serve .empty requests ∧
      ((serveAll Store.serve .empty requests).flatMap Answer.given).Nodup :=
  ⟨by decide +kernel, (serveAll_ledger _ (by decide +kernel)).1,
    (serveAll_ledger _ (by decide +kernel)).2.2⟩

end Macromark
