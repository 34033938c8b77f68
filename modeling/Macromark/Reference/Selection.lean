import Macromark.Diagnostic
import Macromark.OrderedMap
import Macromark.Reference

/-!
# Which reference a link keeps

Of the references of one link at most one is kept: among those that lead
somewhere the longest target wins, then the number as written, then the one
noted first. Whether a reference leads somewhere is for the caller to say. A
link of which nothing is kept is reported under its shortest target.
-/

namespace Macromark

structure Unresolved where
  key : GroupKey
  target : String
deriving DecidableEq, Repr

/-- References by their place in the list that was looked at. -/
structure Selection where
  selected : List Nat
  rejected : List Nat
  unresolved : List Unresolved
deriving DecidableEq, Repr

namespace Selection

/-- A reference and its place. -/
abbrev Placed := Reference × Nat

def groups (references : List Reference) : OrderedMap GroupKey (List Placed) :=
  references.zipIdx.foldl (fun groups placed =>
    let key := placed.1.groupKey
    groups.insert key ((groups.get? key).getD [] ++ [placed])) []

def triedBefore (a b : Placed) : Bool :=
  b.1.targetLength < a.1.targetLength ||
    (a.1.targetLength == b.1.targetLength && (!a.1.inflected || b.1.inflected))

/-- Whether the target of `a` is nearer to what the author wrote than that of `b`. -/
def closer (a b : Placed) : Bool :=
  a.1.targetLength < b.1.targetLength ||
    (a.1.targetLength == b.1.targetLength && !a.1.inflected && b.1.inflected)

def closest : List Placed → String
  | [] => ""
  | first :: rest =>
    let best := rest.foldl (fun best next => if closer next best then next else best) first
    best.1.target

def ranked (members : List Placed) : List Placed := members.mergeSort triedBefore

/-- The ranks of the first references of a link that lead somewhere: of those whose target is in
the number as written, and of the others. -/
structure Leading where
  exact : Option Nat
  inflected : Option Nat
deriving DecidableEq, Repr

/-- A reference counts if nothing of its kind was found at a lower rank. -/
def Leading.note (resolves : Reference → Bool) (leading : Leading) (entry : Placed × Nat) :
    Leading :=
  let (placed, rank) := entry
  let found := if resolves placed.1 then some rank else none
  if placed.1.inflected then { leading with inflected := leading.inflected.or found }
  else { leading with exact := leading.exact.or found }

def Leading.first? : Leading → Option Nat
  | ⟨some exact, some inflected⟩ => some (if inflected < exact then inflected else exact)
  | ⟨some exact, none⟩ => some exact
  | ⟨none, inflected⟩ => inflected

def leading (resolves : Reference → Bool) (ranked : List Placed) : Leading :=
  ranked.zipIdx.foldl (Leading.note resolves) ⟨none, none⟩

def winner? (resolves : Reference → Bool) (members : List Placed) : Option Placed :=
  let ranked := ranked members
  (leading resolves ranked).first?.bind (ranked[·]?)

def selectGroup (resolves : Reference → Bool) (key : GroupKey) (members : List Placed) :
    Selection :=
  let places := members.map Prod.snd
  match winner? resolves members with
  | some winner => ⟨[winner.2], places.filter (· != winner.2), []⟩
  | none => ⟨[], places, [⟨key, closest (ranked members)⟩]⟩

def sorted (places : List Nat) : List Nat := places.mergeSort (· ≤ ·)

def combine (selections : List Selection) : Selection :=
  ⟨sorted (selections.flatMap (·.selected)), sorted (selections.flatMap (·.rejected)),
    selections.flatMap (·.unresolved)⟩

end Selection

def select (resolves : Reference → Bool) (references : List Reference) : Selection :=
  Selection.combine <|
    (Selection.groups references).map fun (key, members) =>
      Selection.selectGroup resolves key members

-- ----------------------------------------------------------------------------
-- What becomes of the links of a document
-- ----------------------------------------------------------------------------

inductive Resolution where
  | target (id : String)
  | unknown (id : String)
deriving DecidableEq, Repr

namespace Selection

def targets (document : String) (sites : OrderedMap Position Nat) (references : List Reference)
    (s : Selection) : List (Nat × Resolution) :=
  s.selected.filterMap fun place => do
    let r ← references[place]?
    if r.kind = .crossReference ∧ r.site.document = document then
      (sites.get? r.site.position).map (·, .target r.target)
    else none

def unknowns (document : String) (sites : OrderedMap Position Nat) (s : Selection) :
    List (Nat × Resolution) :=
  s.unresolved.filterMap fun u =>
    if u.key.kind = .crossReference ∧ u.key.document = document then
      (sites.get? u.key.position).map (·, .unknown u.target)
    else none

def resolutions (document : String) (sites : OrderedMap Position Nat)
    (references : List Reference) (s : Selection) : OrderedMap Nat Resolution :=
  (s.targets document sites references ++ s.unknowns document sites).foldl
    (fun map entry => map.insert entry.1 entry.2) []

/-- Only links and inclusions are reported: the author wrote nothing else. -/
def problem? (u : Unresolved) : Option Problem :=
  match u.key.kind with
  | .crossReference => some (.unresolvedLink u.target)
  | .structuralParent => some (.missingDocument u.target)
  | .synonym | .titleInTitle => none

def diagnostics (s : Selection) : List Diagnostic :=
  s.unresolved.filterMap fun u =>
    (problem? u).map fun problem => ⟨problem, u.key.position, u.key.document⟩

end Selection
end Macromark
