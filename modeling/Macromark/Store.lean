import Macromark.Reference

/-!
# The store

The names and references of all documents that have been entered. Every
reference has a row number of its own, and no number is given out twice.
Entering a document replaces what it had entered before.
-/

namespace Macromark

abbrev RowId := Nat

structure Store.Row where
  id : RowId
  reference : Reference
deriving DecidableEq, Repr

structure Store where
  records : OrderedMap String IdRecord
  /-- By ascending numbers. -/
  rows : List Store.Row
  nextRow : RowId
deriving DecidableEq, Repr

namespace Store

def empty : Store := ⟨[], [], 0⟩

/-- The records of those identifiers that are known, but not through one of the
excluded documents. -/
def lookup (s : Store) (ids excluded : List String) : List IdRecord :=
  (ids.filterMap (s.records.get? ·)).filter fun r => !excluded.contains r.document

def knows (s : Store) (id : String) (excluded : List String) : Bool :=
  !(s.lookup [id] excluded).isEmpty

/-- The rows of a kind that lead to the identifiers, or away from them. -/
def rowsAt (s : Store) (kind : ReferenceKind) (ids : List String) (away : Bool) : List Row :=
  s.rows.filter fun row =>
    row.reference.kind == kind &&
      ids.contains (if away then row.reference.source else row.reference.target)

def rowsIn (s : Store) (documents : List String) : List Row :=
  s.rows.filter fun row => documents.contains row.reference.site.document

def clear (s : Store) (documents : List String) : Store :=
  { s with
    records := s.records.filter fun entry => !documents.contains entry.2.document
    rows := s.rows.filter fun row => !documents.contains row.reference.site.document }

/-- Numbers references from `next` on. -/
def number (next : RowId) : List Reference → List Row
  | [] => []
  | r :: rest => ⟨next, r⟩ :: number (next + 1) rest

/-- Enters what a document contributes, and gives the numbers of its references. -/
def update (s : Store) (c : Contribution) : List RowId × Store :=
  let cleared := s.clear [c.document]
  let rows := number s.nextRow c.references
  (rows.map (·.id),
    { records := c.ids.foldl (fun records entry => records.insert entry.1 entry.2) cleared.records
      rows := cleared.rows ++ rows
      nextRow := s.nextRow + c.references.length })

def delete (s : Store) (ids : List RowId) : Store :=
  { s with rows := s.rows.filter fun row => !ids.contains row.id }

end Store
end Macromark
