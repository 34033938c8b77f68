import Macromark.Record

/-!
# Macro definitions

A definition says which arguments a macro takes, how it is rendered and how
its uses are numbered, named and grouped. A registry holds one definition for
each name, and nothing else in the compiler knows about single macros, the
reserved names apart.
-/

namespace Macromark

-- ----------------------------------------------------------------------------
-- Sets of names
-- ----------------------------------------------------------------------------

abbrev NameSet := List String

namespace NameSet

def insert (name : String) : NameSet → NameSet
  | [] => [name]
  | head :: rest =>
    if name < head then name :: head :: rest
    else if name = head then head :: rest
    else head :: insert name rest

def ofList (names : List String) : NameSet := names.foldr insert []

@[simp] theorem mem_insert {name x : String} {set : NameSet} :
    x ∈ insert name set ↔ x = name ∨ x ∈ set := by
  induction set with
  | nil => simp [insert]
  | cons head rest ih =>
    simp only [insert]
    split
    · simp
    · split
      · next h => subst h; simp
      · simp only [List.mem_cons, ih]
        constructor
        · rintro (h | h | h) <;> simp [h]
        · rintro (h | h | h) <;> simp [h]

@[simp] theorem mem_ofList {x : String} {names : List String} :
    x ∈ ofList names ↔ x ∈ names := by
  induction names with
  | nil => simp [ofList]
  | cons head rest ih =>
    rw [show ofList (head :: rest) = insert head (ofList rest) from rfl]
    simp [ih]

end NameSet

-- ----------------------------------------------------------------------------
-- Definitions
-- ----------------------------------------------------------------------------

inductive Rendering where
  | toplevel
  | header
  /-- An element on a line of its own. -/
  | block (tag : String)
  | inline (tag : String)
  | lineBreak
  | link
  | crossReference
  | code
  | table
  | image
  | contents
  | inclusion
deriving DecidableEq, Repr

/-- The container that a run of neighbouring macros is put into, except where
they already stand in it or in one of the containers to skip. -/
structure Gathering where
  container : String
  skip : NameSet
deriving DecidableEq, Repr

structure MacroDef where
  name : String
  rendering : Rendering
  positional : List String := []
  named : NameSet := []
  /-- May stand inside a paragraph. -/
  phrasing : Bool := false
  gathering : Option Gathering := none
  /-- The first words of identifiers that are derived from a title. -/
  idStem : String := ""
  /-- The words before the number, as in `Table 2`. -/
  caption : String := ""
  linkStyle : LinkStyle := .short
deriving DecidableEq, Repr

namespace MacroDef

def argumentNames (d : MacroDef) : List String := d.positional ++ d.named

def declares (d : MacroDef) (argument : String) : Bool := d.argumentNames.contains argument

/-- No argument is declared twice. -/
def Coherent (d : MacroDef) : Prop := d.argumentNames.Nodup

instance (d : MacroDef) : Decidable d.Coherent := by unfold Coherent; infer_instance

theorem declares_iff {d : MacroDef} {argument : String} :
    d.declares argument = true ↔ argument ∈ d.argumentNames := by
  simp [declares]

end MacroDef

structure Registry where
  macros : List MacroDef
deriving DecidableEq, Repr

namespace Registry

def empty : Registry := ⟨[]⟩

def get? (r : Registry) (name : String) : Option MacroDef := r.macros.find? (·.name == name)

def contains (r : Registry) (name : String) : Bool := (r.get? name).isSome

def register (r : Registry) (d : MacroDef) : Registry :=
  ⟨d :: r.macros.filter (·.name != d.name)⟩

def ofList (definitions : List MacroDef) : Registry := definitions.foldl register empty

def names (r : Registry) : NameSet := .ofList (r.macros.map (·.name))

def isPhrasing (r : Registry) (name : String) : Bool := ((r.get? name).map (·.phrasing)).getD false

/-- Whether some macro is put into `name`, or is left alone in it. -/
def isContainer (r : Registry) (name : String) : Bool :=
  r.macros.any fun d => d.gathering.any fun g => g.container == name || g.skip.contains name

inductive Fault where
  | missingRegistry
  /-- A macro that the compiler writes on its own is not defined. -/
  | missingMacro (name : String)
deriving DecidableEq, Repr

def Fault.message : Fault → String
  | missingRegistry => "no macro registry was supplied"
  | missingMacro name => s!"macro registry does not define required macro '{name}'"

/-- The document and the paragraph have to be defined. -/
def check (r : Registry) : Except Fault Unit :=
  if !r.contains MacroName.toplevel then .error (.missingMacro MacroName.toplevel)
  else if !r.contains MacroName.paragraph then .error (.missingMacro MacroName.paragraph)
  else .ok ()

def Coherent (r : Registry) : Prop := ∀ d ∈ r.macros, d.Coherent

-- ----------------------------------------------------------------------------
-- Lookup
-- ----------------------------------------------------------------------------

@[simp] theorem get?_empty (name : String) : empty.get? name = none := rfl

theorem name_of_get? {r : Registry} {name : String} {d : MacroDef} (h : r.get? name = some d) :
    d.name = name := by
  simpa using List.find?_some h

end Registry
end Macromark
