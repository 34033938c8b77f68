import Macromark.OrderedMap
import Macromark.Outline.Level
import Macromark.Text.Basic
import Macromark.Text.Position
import Macromark.Tree

/-!
# Records of identifiers

What a link needs to know about its target, whether that stands in the same
document or in another one, and how the link names it. The index of a document
says which node carries an identifier; it is taken by the first node that
claims it.
-/

namespace Macromark.MacroName

-- ----------------------------------------------------------------------------
-- Reserved macro names
-- ----------------------------------------------------------------------------

def toplevel : String := "toplevel"
def paragraph : String := "p"
def header : String := "h"
def crossReference : String := "x"
def inclusion : String := "Include"

end Macromark.MacroName

namespace Macromark

-- ----------------------------------------------------------------------------
-- Link styles
-- ----------------------------------------------------------------------------

inductive LinkStyle where
  /-- The caption and the number, then the quoted title. -/
  | full
  /-- The title alone. -/
  | short
deriving DecidableEq, Repr, Inhabited

inductive LinkFault where
  | unknownTarget (id : String)
  | unknownStyle (style : String)
  | emptyBody
  /-- A link in the title of a header to something else than a header. -/
  | titleTarget (id : String)
deriving DecidableEq, Repr

def LinkFault.message : LinkFault → String
  | unknownTarget id => s!"cross reference to unknown id: \"{id}\""
  | unknownStyle style => s!"unknown cross reference style: \"{style}\""
  | emptyBody => "empty cross reference body"
  | titleTarget id =>
    s!"cross reference inside a header title must target a header: \"{id}\""

namespace LinkStyle

def name : LinkStyle → String
  | full => "full"
  | short => "short"

/-- The style that an argument asks for. A blank argument asks for none and
leaves the choice to the target. -/
def parse (text : String) : Except LinkFault (Option LinkStyle) :=
  let style := Text.trim text
  if style = "" then .ok none
  else if style = "full" then .ok (some .full)
  else if style = "short" then .ok (some .short)
  else .error (.unknownStyle style)

end LinkStyle

-- ----------------------------------------------------------------------------
-- Records
-- ----------------------------------------------------------------------------

structure IdRecord where
  id : String
  /-- The document in which the identifier is defined. -/
  document : String
  macroName : String
  /-- The title as plain text, empty if there is none. -/
  title : String := ""
  caption : String := ""
  count : Option Nat := none
  linkStyle : LinkStyle := .short
  isHeader : Bool := false
  level : Option Level := none
  /-- Whether the identifier is a scope for those below it. -/
  isScope : Bool := false
  /-- The header that a synonym stands for. -/
  synonymOf : Option String := none
  location : Site
deriving DecidableEq, Repr

namespace IdRecord

def define (id macroName : String) (location : Site) : IdRecord :=
  { id, document := location.document, macroName, location }

def isDocument (r : IdRecord) : Bool := r.macroName == MacroName.toplevel

end IdRecord

/-- The caption and the number of a target that has both. -/
def IdRecord.numberedCaption? (r : IdRecord) : Option String :=
  match r.count with
  | some count => if r.caption = "" then none else some s!"{r.caption} {count}"
  | none => none

def linkText (r : IdRecord) (style : LinkStyle) : Except LinkFault String :=
  let title := Text.trim r.title
  let number := match style with
    | .full => r.numberedCaption?
    | .short => none
  match number with
  | some number => .ok (if title = "" then number else s!"{number}. \"{title}\"")
  | none => if title = "" then .error .emptyBody else .ok title

-- ----------------------------------------------------------------------------
-- The index of a document
-- ----------------------------------------------------------------------------

structure Index where
  entries : OrderedMap String (NodeId × IdRecord)
deriving DecidableEq, Repr

namespace Index

def empty : Index := ⟨[]⟩

def contains (i : Index) (id : String) : Bool := i.entries.contains id

def node? (i : Index) (id : String) : Option NodeId := (i.entries.get? id).map Prod.fst

def record? (i : Index) (id : String) : Option IdRecord := (i.entries.get? id).map Prod.snd

/-- Enters a record under its own identifier, or gives back the earlier one. -/
def insert (i : Index) (node : NodeId) (record : IdRecord) : Except IdRecord Index :=
  match i.record? record.id with
  | some previous => .error previous
  | none => .ok ⟨i.entries.insert record.id (node, record)⟩

def modify (i : Index) (id : String) (f : IdRecord → IdRecord) : Index :=
  ⟨i.entries.modify id fun entry => (entry.1, f entry.2)⟩

def erase (i : Index) (id : String) : Index := ⟨i.entries.erase id⟩

def records (i : Index) : OrderedMap String IdRecord :=
  i.entries.map fun entry => (entry.1, entry.2.2)

def size (i : Index) : Nat := i.entries.length

end Index
end Macromark
