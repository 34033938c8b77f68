import Macromark.Data
import Macromark.Text.Numeral

/-!
# Data as YAML

The block style: a line for every item and every field. A text is written plain
if it reads back as the same text, and else in the first style that can hold it:
a literal block for lines, single quotes, and double quotes with escapes for
everything.
-/

namespace Macromark.Yaml

/-- How a text is set off from the notation around it. -/
inductive Style where
  | plain
  | singleQuoted
  | doubleQuoted
  | literal
deriving DecidableEq, Repr

-- ----------------------------------------------------------------------------
-- Texts that read back as something else
-- ----------------------------------------------------------------------------

/-- Words for nothing, for truth values and for numbers that are no numerals. -/
def reservedWords : List String := [
  "", "~", "null", "Null", "NULL", "true", "True", "TRUE", "false", "False", "FALSE",
  "y", "Y", "yes", "Yes", "YES", "n", "N", "no", "No", "NO", "on", "On", "ON", "off", "Off", "OFF",
  ".inf", ".Inf", ".INF", "+.inf", "+.Inf", "+.INF", "-.inf", "-.Inf", "-.INF",
  ".nan", ".NaN", ".NAN"]

def isReserved (cs : List Char) : Bool :=
  reservedWords.contains (.ofList cs) || Numeral.isBased cs || Numeral.isDecimal cs ||
    Numeral.isPadded cs

-- ----------------------------------------------------------------------------
-- Characters
-- ----------------------------------------------------------------------------

/-- Ends a line: the newline and the two separators of Unicode. -/
def isBreak (c : Char) : Bool := c = '\n' || c = '\u2028' || c = '\u2029'

/-- Has to be escaped. -/
def isSpecial (c : Char) : Bool :=
  let n := c.toNat
  c ≠ '\n' && (n < 0x20 || 0x7f ≤ n && n < 0xa0 || n = 0xfeff || n = 0xfffe || n = 0xffff)

/-- White space as far as the indicators are concerned. -/
def isBlank (c : Char) : Bool :=
  c = ' ' || c = '\t' || c = '\r' || c = '\u0085' || isBreak c

/-- Has a meaning of its own at the beginning of a plain text. -/
def isIndicator (c : Char) : Bool := "#,[]\x7b\x7d&*!|>'\"%@\u0060".toList.contains c

/-- Whether nothing but white space follows directly. -/
def blankAhead : List Char → Bool
  | [] => true
  | c :: _ => isBlank c

-- ----------------------------------------------------------------------------
-- What a style can hold
-- ----------------------------------------------------------------------------

def hasPair (first second : Char → Bool) : List Char → Bool
  | a :: b :: rest => first a && second b || hasPair first second (b :: rest)
  | _ => false

def spaceBeforeBreak (cs : List Char) : Bool := hasPair (· = ' ') isBreak cs

def spaceAfterBreak (cs : List Char) : Bool := hasPair isBreak (· = ' ') cs

/-- Whether a text begins like something other than a text. -/
def startsIndicated : List Char → Bool
  | [] => false
  | cs@(c :: rest) =>
    ['-', '-', '-'].isPrefixOf cs || ['.', '.', '.'].isPrefixOf cs || isIndicator c ||
      (c = '?' || c = ':' || c = '-') && blankAhead rest

/-- Whether a key or a comment seems to begin inside of a text. -/
def insideIndicated : List Char → Bool
  | a :: b :: rest =>
    b = ':' && blankAhead rest || isBlank a && b = '#' || insideIndicated (b :: rest)
  | _ => false

def allowsPlain (cs : List Char) : Bool :=
  !(cs.head?.any isBlank || cs.getLast?.any isBlank || cs.any isBreak || cs.any isSpecial ||
    startsIndicated cs || insideIndicated cs)

def allowsSingleQuotes (cs : List Char) : Bool :=
  !(cs.any isSpecial || spaceBeforeBreak cs || spaceAfterBreak cs)

def allowsLiteral (cs : List Char) : Bool :=
  !(cs.any isSpecial || spaceBeforeBreak cs || cs.getLast? = some ' ')

def style (cs : List Char) : Style :=
  if cs.contains '\n' then if allowsLiteral cs then .literal else .doubleQuoted
  else if !isReserved cs && allowsPlain cs then .plain
  else if allowsSingleQuotes cs then .singleQuoted
  else .doubleQuoted

-- ----------------------------------------------------------------------------
-- Writing
-- ----------------------------------------------------------------------------

/-- Digits in upper case, with leading zeros up to `width`. -/
def hexadecimal (width n : Nat) : List Char :=
  let digits := (Nat.toDigits 16 n).map Char.toUpper
  List.replicate (width - digits.length) '0' ++ digits

def escape : Char → List Char
  | '\x00' => ['\\', '0']
  | '\x07' => ['\\', 'a']
  | '\x08' => ['\\', 'b']
  | '\t' => ['\\', 't']
  | '\n' => ['\\', 'n']
  | '\x0b' => ['\\', 'v']
  | '\x0c' => ['\\', 'f']
  | '\r' => ['\\', 'r']
  | '\x1b' => ['\\', 'e']
  | '"' => ['\\', '"']
  | '\\' => ['\\', '\\']
  | '\u0085' => ['\\', 'N']
  | '\u2028' => ['\\', 'L']
  | '\u2029' => ['\\', 'P']
  | c =>
    let n := c.toNat
    if n ≤ 0xff then ['\\', 'x'] ++ hexadecimal 2 n
    else if n ≤ 0xffff then ['\\', 'u'] ++ hexadecimal 4 n
    else ['\\', 'U'] ++ hexadecimal 8 n

def doubleQuotedChar (c : Char) : List Char :=
  if isSpecial c || isBreak c || c = '"' || c = '\\' then escape c else [c]

/-- Goes in by `indent` at the beginning of every line that is not empty. A
break stands for itself. -/
def layLines (indent : Nat) (onChar : Char → List Char) : (atStart : Bool) → List Char → List Char
  | _, [] => []
  | atStart, c :: rest =>
    if isBreak c then c :: layLines indent onChar true rest
    else (if atStart then List.replicate indent ' ' else []) ++ onChar c ++
      layLines indent onChar false rest

def singleQuotedChar (c : Char) : List Char := if c = '\'' then ['\'', '\''] else [c]

/-- A quote at the beginning of a line goes in as well. -/
def singleQuoted (indent : Nat) (cs : List Char) : List Char :=
  let closing := if cs.getLast?.any isBreak then List.replicate indent ' ' ++ ['\''] else ['\'']
  '\'' :: layLines indent singleQuotedChar false cs ++ closing

/-- Says how far a block goes in where its first line cannot show it, and
whether the line breaks at its end count: none, one or all of them. -/
def literalHints (cs : List Char) : List Char :=
  let indentation := if cs.head?.any (fun c => c = ' ' || isBreak c) then ['2'] else []
  let chomping := match cs.reverse with
    | [] => ['-']
    | [c] => if isBreak c then ['+'] else ['-']
    | c :: d :: _ => if !isBreak c then ['-'] else if isBreak d then ['+'] else []
  indentation ++ chomping

def literal (indent : Nat) (cs : List Char) : List Char :=
  '|' :: literalHints cs ++ '\n' :: layLines indent ([·]) true cs

/-- A text and the end of its last line, where further lines of it go in by
`indent`. -/
def scalar (indent : Nat) (cs : List Char) : List Char :=
  match style cs with
  | .plain => cs ++ ['\n']
  | .singleQuoted => singleQuoted indent cs ++ ['\n']
  | .doubleQuoted => '"' :: cs.flatMap doubleQuotedChar ++ ['"', '\n']
  | .literal => literal indent cs ++ if cs.getLast?.any isBreak then [] else ['\n']

end Macromark.Yaml

namespace Macromark.Data

-- ----------------------------------------------------------------------------
-- Blocks
-- ----------------------------------------------------------------------------

/-- A value that fits on the line of its name or dash. -/
def yamlScalar (indent : Nat) : Data → String
  | bool value => if value then "true\n" else "false\n"
  | nat value => toString value ++ "\n"
  | text value => .ofList (Yaml.scalar indent value.toList)
  | list _ => "[]\n"
  | record _ => "\x7b\x7d\n"
  | null => "null\n"

mutual
/-- The lines of a value at a margin. The first one follows what is written
there already. -/
def yamlAt (indent : Nat) : Data → String
  | list (item :: rest) => "- " ++ yamlAt (indent + 2) item ++ yamlItems indent rest
  | record ((name, value) :: rest) =>
    name ++ ":" ++ yamlField indent value ++ yamlFields indent rest
  | scalar => yamlScalar indent scalar
def yamlItems (indent : Nat) : List Data → String
  | [] => ""
  | item :: rest =>
    margin indent ++ "- " ++ yamlAt (indent + 2) item ++ yamlItems indent rest
def yamlFields (indent : Nat) : List (String × Data) → String
  | [] => ""
  | (name, value) :: rest =>
    margin indent ++ name ++ ":" ++ yamlField indent value ++ yamlFields indent rest
/-- A value behind the colon of its name. -/
def yamlField (indent : Nat) : Data → String
  | list (item :: rest) =>
    "\n" ++ margin indent ++ "- " ++ yamlAt (indent + 2) item ++ yamlItems indent rest
  | record ((name, value) :: rest) =>
    "\n" ++ margin (indent + 2) ++ name ++ ":" ++ yamlField (indent + 2) value ++
      yamlFields (indent + 2) rest
  | scalar => " " ++ yamlScalar (indent + 2) scalar
end

def yaml (data : Data) : String := data.yamlAt 0

end Macromark.Data
