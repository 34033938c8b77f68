import Macromark.OrderedMap
import Macromark.Record

/-!
# References

A reference leads from one identifier to another. A link of the author gives
one row for each identifier that it may mean; the rows of one link stand at one
site, have one kind, and compete with each other.
-/

namespace Macromark

inductive ReferenceKind where
  /-- From a header to one below it, or from an inclusion to the document. -/
  | structuralParent
  | crossReference
  /-- From a synonym to the header that it stands for. -/
  | synonym
  /-- A link in the title of a header. -/
  | titleInTitle
deriving DecidableEq, Repr

namespace ReferenceKind

def label : ReferenceKind → String
  | structuralParent => "structural-parent"
  | crossReference => "cross-reference"
  | synonym => "synonym"
  | titleInTitle => "title-in-title"

def rank : ReferenceKind → Nat
  | structuralParent => 0
  | crossReference => 1
  | synonym => 2
  | titleInTitle => 3

end ReferenceKind

structure Reference where
  /-- Empty where nothing around the link has an identifier. -/
  source : String
  target : String
  kind : ReferenceKind
  site : Site
  /-- Whether the target is another number of what the author wrote. -/
  inflected : Bool := false
deriving DecidableEq, Repr

/-- What the rows of one link have in common. -/
structure GroupKey where
  document : String
  position : Position
  kind : ReferenceKind
deriving DecidableEq, Repr

instance : LT GroupKey where
  lt a b := a.document < b.document ∨ a.document = b.document ∧
    (a.position < b.position ∨ a.position = b.position ∧ a.kind.rank < b.kind.rank)

instance (a b : GroupKey) : Decidable (a < b) :=
  inferInstanceAs (Decidable (a.document < b.document ∨ a.document = b.document ∧
    (a.position < b.position ∨ a.position = b.position ∧ a.kind.rank < b.kind.rank)))

namespace Reference

def targetLength (r : Reference) : Nat := r.target.length

def groupKey (r : Reference) : GroupKey := ⟨r.site.document, r.site.position, r.kind⟩

end Reference

/-- Everything that one document adds to the names shared by all. -/
structure Contribution where
  document : String
  ids : OrderedMap String IdRecord := []
  references : List Reference := []
deriving DecidableEq, Repr

end Macromark
