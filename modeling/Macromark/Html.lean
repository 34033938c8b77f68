import Macromark.Text.Basic

/-!
# HTML

A small HTML as a tree of elements and text. Writing escapes all text, so what
is written is balanced whatever the text holds. The value of an attribute is
kept as it is written.
-/

namespace Macromark

/-- How a character stands in the content of an element. -/
def escapeTextChar (c : Char) : List Char :=
  if c = '&' then "&amp;".toList
  else if c = '<' then "&lt;".toList
  else if c = '>' then "&gt;".toList
  else [c]

def escapeText (s : String) : String := .ofList (s.toList.flatMap escapeTextChar)

/-- How a character stands between the quotes of an attribute. -/
def escapeAttributeChar (c : Char) : List Char :=
  if c = '"' then "&quot;".toList else escapeTextChar c

def escapeAttribute (s : String) : String := .ofList (s.toList.flatMap escapeAttributeChar)

structure Html.Attribute where
  name : String
  /-- What stands between the quotes. -/
  written : String
deriving DecidableEq, Repr

inductive Html where
  | text (text : String)
  /-- An element that has no content. -/
  | void (tag : String) (attributes : List Html.Attribute)
  | element (tag : String) (attributes : List Html.Attribute) (content : List Html)
deriving Repr

namespace Html

def Attribute.of (name value : String) : Attribute := ⟨name, escapeAttribute value⟩

def Attribute.write (a : Attribute) : String := s!" {a.name}=\"{a.written}\""

def openingTag (tag : String) (attributes : List Attribute) : String :=
  s!"<{tag}{String.join (attributes.map Attribute.write)}>"

mutual
def write : Html → String
  | text s => escapeText s
  | void tag attributes => openingTag tag attributes
  | element tag attributes content =>
    openingTag tag attributes ++ writeAll content ++ s!"</{tag}>"
def writeAll : List Html → String
  | [] => ""
  | h :: rest => h.write ++ writeAll rest
end

def isNothing (content : List Html) : Bool :=
  content.all fun h => match h with
    | text s => s.isEmpty
    | _ => false

def marker (message : String) : Html :=
  element "span" [.of "class" "error-message"] [text message]

-- ----------------------------------------------------------------------------
-- Trimming
-- ----------------------------------------------------------------------------

/-- Takes white space off the beginning. An element begins with a bracket. -/
def trimStart : List Html → List Html
  | text s :: rest =>
    match s.toList.dropWhile Text.isSpace with
    | [] => trimStart rest
    | kept => text (.ofList kept) :: rest
  | content => content

/-- Takes white space off the end of a row that is written backwards. -/
def trimBackwards : List Html → List Html
  | text s :: rest =>
    match Text.dropEnd Text.isSpace s.toList with
    | [] => trimBackwards rest
    | kept => text (.ofList kept) :: rest
  | content => content

def trim (content : List Html) : List Html := (trimBackwards (trimStart content).reverse).reverse

-- ----------------------------------------------------------------------------
-- Laws
-- ----------------------------------------------------------------------------

@[simp] theorem writeAll_nil : writeAll [] = "" := by simp [writeAll]

@[simp] theorem writeAll_cons (h : Html) (rest : List Html) :
    writeAll (h :: rest) = h.write ++ writeAll rest := by simp [writeAll]

@[simp] theorem writeAll_append (first second : List Html) :
    writeAll (first ++ second) = writeAll first ++ writeAll second := by
  induction first with
  | nil => simp
  | cons h rest ih => simp [ih, String.append_assoc]

end Html
end Macromark
