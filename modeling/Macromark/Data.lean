import Macromark.Text.Quoted

/-!
# Data

What a listing holds, before it is written in some notation: scalars, lists
and records. A record keeps the order of its fields. `Data.json` writes every
item and every field on a line of its own, `Data.yaml` is in a module of its own.
-/

namespace Macromark

-- ----------------------------------------------------------------------------
-- Data
-- ----------------------------------------------------------------------------

inductive Data where
  | null
  | bool (value : Bool)
  | nat (value : Nat)
  | text (value : String)
  | list (items : List Data)
  | record (fields : List (String × Data))
deriving Repr

namespace Data

def ofOption {α : Type} (f : α → Data) : Option α → Data
  | some a => f a
  | none => null

def ofList {α : Type} (f : α → Data) (items : List α) : Data := list (items.map f)

def margin (width : Nat) : String := .ofList (List.replicate width ' ')

end Data
end Macromark

namespace Macromark.Data

-- ----------------------------------------------------------------------------
-- JSON
-- ----------------------------------------------------------------------------

def jsonEscape : Char → Option (List Char)
  | '"' => some ['\\', '"']
  | '\\' => some ['\\', '\\']
  | '\x08' => some ['\\', 'b']
  | '\x0c' => some ['\\', 'f']
  | '\n' => some ['\\', 'n']
  | '\r' => some ['\\', 'r']
  | '\t' => some ['\\', 't']
  | _ => none

/-- Control characters are escaped and all others stand for themselves. -/
def jsonChar (c : Char) : List Char :=
  match jsonEscape c with
  | some escape => escape
  | none =>
    if c.toNat < 0x20 then
      let digits := Text.hexadecimal c.toNat
      ['\\', 'u'] ++ List.replicate (4 - digits.length) '0' ++ digits
    else [c]

def jsonText (s : String) : String := .ofList ('"' :: s.toList.flatMap jsonChar ++ ['"'])

mutual
/-- The text of a value whose first line begins `indent` spaces in. -/
def jsonAt (indent : Nat) : Data → String
  | null => "null"
  | bool value => if value then "true" else "false"
  | nat value => toString value
  | text value => jsonText value
  | list [] => "[]"
  | list items => "[\n" ++ jsonItems (indent + 2) items ++ margin indent ++ "]"
  | record [] => "\x7b\x7d"
  | record fields => "\x7b\n" ++ jsonFields (indent + 2) fields ++ margin indent ++ "\x7d"
def jsonItems (indent : Nat) : List Data → String
  | [] => ""
  | item :: rest =>
    margin indent ++ jsonAt indent item ++ (if rest.isEmpty then "\n" else ",\n") ++
      jsonItems indent rest
def jsonFields (indent : Nat) : List (String × Data) → String
  | [] => ""
  | (name, value) :: rest =>
    margin indent ++ jsonText name ++ ": " ++ jsonAt indent value ++
      (if rest.isEmpty then "\n" else ",\n") ++ jsonFields indent rest
end

def json (data : Data) : String := data.jsonAt 0 ++ "\n"

end Macromark.Data
