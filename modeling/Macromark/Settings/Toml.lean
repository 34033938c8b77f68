import Macromark.Text.Basic
import Macromark.Text.Numeral

/-!
# Settings files

The notation of settings files, a part of TOML: every line is blank, heads a
table or sets a key of the current table to a string, a whole number or a truth
value. A line is cut into symbols first; a file is its lines one after the
other, together with what each key has been used for.
-/

namespace Macromark

-- ----------------------------------------------------------------------------
-- Keys
-- ----------------------------------------------------------------------------

inductive SettingValue where
  | flag (value : Bool)
  | number (value : Int)
  | text (value : String)
deriving DecidableEq, Repr

abbrev Key := List String

namespace Key

/-- May stand in a name of a written path. -/
def isNameChar (c : Char) : Bool := c.isAlphanum || c = '_' || c = '-' || c = ' '

def parse? (text : String) : Option Key :=
  let parts := Text.split '.' text.toList
  if parts.all fun part => !part.isEmpty && part.all isNameChar then some (parts.map .ofList)
  else none

def write (key : Key) : String := ".".intercalate key

def Overlaps (a b : Key) : Prop := a <+: b ∨ b <+: a

instance (a b : Key) : Decidable (a.Overlaps b) := inferInstanceAs (Decidable (_ ∨ _))

end Key
end Macromark

namespace Macromark.Toml

inductive Symbol where
  | opening
  | closing
  | equals
  | point
  /-- A word without quotes: a name, a number or a truth value. -/
  | bare (word : List Char)
  | quoted (text : List Char)
deriving DecidableEq, Repr

inductive Statement where
  | blank
  | table (key : Key)
  | entry (key : Key) (value : SettingValue)
deriving DecidableEq, Repr

inductive Fault where
  | malformed (line : Nat)
  /-- The line uses a key in another way than a line before it. -/
  | conflict (line : Nat)
deriving DecidableEq, Repr

-- ----------------------------------------------------------------------------
-- Symbols
-- ----------------------------------------------------------------------------

def isControl (c : Char) : Bool := c ≠ '\t' && (c.toNat < 0x20 || c.toNat = 0x7f)

def isBareChar (c : Char) : Bool := c.isAlphanum || c = '_' || c = '-'

/-- A number may have a sign that no name has. -/
def isWordChar (c : Char) : Bool := isBareChar c || c = '+'

/-- The character of a code point in hexadecimal digits. -/
def codePoint? (digits : List Char) : Option Char :=
  let n := Numeral.value 16 digits
  if digits.all Numeral.isHexDigit && decide n.isValidChar then some (Char.ofNat n) else none

def escaped? : Char → Option Char
  | 'b' => some '\x08'
  | 't' => some '\t'
  | 'n' => some '\n'
  | 'f' => some '\x0c'
  | 'r' => some '\r'
  | '"' => some '"'
  | '\\' => some '\\'
  | _ => none

/-- The text up to a double quote, and what follows the quote. -/
def basicText : List Char → Option (List Char × List Char)
  | [] => none
  | '"' :: rest => some ([], rest)
  | '\\' :: 'u' :: a :: b :: c :: d :: rest => do
    let char ← codePoint? [a, b, c, d]
    let (text, rest) ← basicText rest
    return (char :: text, rest)
  | '\\' :: 'U' :: a :: b :: c :: d :: e :: f :: g :: h :: rest => do
    let char ← codePoint? [a, b, c, d, e, f, g, h]
    let (text, rest) ← basicText rest
    return (char :: text, rest)
  | '\\' :: c :: rest => do
    let char ← escaped? c
    let (text, rest) ← basicText rest
    return (char :: text, rest)
  | c :: rest =>
    if isControl c || c = '\\' then none
    else (basicText rest).map fun (text, rest) => (c :: text, rest)

def literalText : List Char → Option (List Char × List Char)
  | [] => none
  | '\'' :: rest => some ([], rest)
  | c :: rest =>
    if isControl c then none
    else (literalText rest).map fun (text, rest) => (c :: text, rest)

def symbol? : List Char → Option (Symbol × List Char)
  | '[' :: rest => some (.opening, rest)
  | ']' :: rest => some (.closing, rest)
  | '=' :: rest => some (.equals, rest)
  | '.' :: rest => some (.point, rest)
  | '"' :: rest => (basicText rest).map fun (text, rest) => (.quoted text, rest)
  | '\'' :: rest => (literalText rest).map fun (text, rest) => (.quoted text, rest)
  | cs =>
    match cs.takeWhile isWordChar with
    | [] => none
    | word => some (.bare word, cs.dropWhile isWordChar)

/-- Reads at most `steps` symbols. White space and a comment at the end do not
count. -/
def symbolsIn? : Nat → List Char → Option (List Symbol)
  | 0, _ => none
  | steps + 1, cs =>
    match cs.dropWhile (fun c => c = ' ' || c = '\t') with
    | [] => some []
    | '#' :: comment => if comment.any isControl then none else some []
    | cs => do
      let (symbol, rest) ← symbol? cs
      let others ← symbolsIn? steps rest
      return symbol :: others

/-- The symbols of a line. Every one of them takes a character at least. -/
def symbols? (line : List Char) : Option (List Symbol) := symbolsIn? (line.length + 1) line

-- ----------------------------------------------------------------------------
-- Values
-- ----------------------------------------------------------------------------

/-- Digits without the underscores that may stand between two of them. -/
def joinDigits? (isDigit : Char → Bool) : List Char → Option (List Char)
  | [] => none
  | [c] => if isDigit c then some [c] else none
  | c :: '_' :: rest => if isDigit c then (joinDigits? isDigit rest).map (c :: ·) else none
  | c :: rest => if isDigit c then (joinDigits? isDigit rest).map (c :: ·) else none

/-- A number that 64 bits can hold. -/
def bounded? (n : Int) : Option Int :=
  if Int64.minValue.toInt ≤ n ∧ n ≤ Int64.maxValue.toInt then some n else none

/-- A decimal number has no leading zero; one in another base has no sign. -/
def number? (word : List Char) : Option Int :=
  match Numeral.splitBase word with
  | some (base, digits) => do
    let digits ← joinDigits? (Numeral.isDigitOf base) digits
    bounded? (Numeral.value base digits)
  | none => do
    let (sign, digits) := Numeral.splitSign word
    let digits ← joinDigits? Char.isDigit digits
    if digits.head? = some '0' ∧ digits ≠ ['0'] then none
    else
      let n : Int := Numeral.value 10 digits
      bounded? (if sign = some '-' then -n else n)

def value? : Symbol → Option SettingValue
  | .quoted text => some (.text (.ofList text))
  | .bare word =>
    if word = "true".toList then some (.flag true)
    else if word = "false".toList then some (.flag false)
    else (number? word).map .number
  | _ => none

-- ----------------------------------------------------------------------------
-- Statements
-- ----------------------------------------------------------------------------

def name? : Symbol → Option String
  | .bare word => if word.all isBareChar then some (.ofList word) else none
  | .quoted text => some (.ofList text)
  | _ => none

def key? : List Symbol → Option (Key × List Symbol)
  | [] => none
  | symbol :: .point :: rest => do
    let name ← name? symbol
    let (names, rest) ← key? rest
    return (name :: names, rest)
  | symbol :: rest => (name? symbol).map fun name => ([name], rest)

def statement? : List Symbol → Option Statement
  | [] => some .blank
  | .opening :: rest =>
    match key? rest with
    | some (key, [.closing]) => some (.table key)
    | _ => none
  | symbols =>
    match key? symbols with
    | some (key, [.equals, symbol]) => (value? symbol).map (.entry key)
    | _ => none

/-- A line may end in a carriage return. -/
def dropReturn (line : List Char) : List Char :=
  if line.getLast? = some '\r' then line.dropLast else line

def line? (line : List Char) : Option Statement := (symbols? (dropReturn line)).bind statement?

-- ----------------------------------------------------------------------------
-- Files
-- ----------------------------------------------------------------------------

/-- What a key has been used for. -/
inductive Role where
  | value
  /-- A table with a heading of its own. -/
  | headed
  /-- A table that a key with points in it has made. -/
  | dotted
deriving DecidableEq, Repr

structure Reading where
  /-- The table that entries go to. -/
  here : Key := []
  roles : List (Key × Role) := []
  entries : List (Key × SettingValue) := []

namespace Reading

def role? (r : Reading) (key : Key) : Option Role :=
  (r.roles.find? fun entry => entry.1 = key).map (·.2)

/-- Whether a key, or one within it, has been used. -/
def mentions (r : Reading) (key : Key) : Bool :=
  r.roles.any fun entry => key.isPrefixOf entry.1

/-- The keys above `key` down to it, those within `within` only. -/
def containers (within key : Key) : List Key :=
  (List.range key.length).tail.map fun depth => within ++ key.take depth

/-- A table is headed once, and not if keys with points have made it. -/
def head? (r : Reading) (key : Key) : Option Reading :=
  if r.role? key = none ∧ ∀ above ∈ containers [] key, r.role? above ≠ some .value then
    some { r with here := key, roles := r.roles ++ [(key, .headed)] }
  else none

/-- A key is set once. The tables that its points lead through belong to no
heading. -/
def set? (r : Reading) (key : Key) (value : SettingValue) : Option Reading :=
  let above := containers r.here key
  let passable := above.all fun table =>
    let role := r.role? table
    role ≠ some .value && role ≠ some .headed
  let owned := above.getLast?.all fun table =>
    r.role? table = some .dotted || !r.mentions table
  let full := r.here ++ key
  if passable && owned && !r.mentions full then
    let made := (above.filter (!r.mentions ·)).map (·, Role.dotted)
    some { r with
      roles := r.roles ++ made ++ [(full, .value)]
      entries := r.entries ++ [(full, value)] }
  else none

def step? (r : Reading) : Statement → Option Reading
  | .blank => some r
  | .table key => r.head? key
  | .entry key value => r.set? key value

def readLines (r : Reading) (number : Nat) : List (List Char) → Except Fault Reading
  | [] => .ok r
  | line :: rest =>
    match line? line with
    | none => .error (.malformed number)
    | some statement =>
      match r.step? statement with
      | none => .error (.conflict number)
      | some r => r.readLines (number + 1) rest

end Reading

/-- A byte order mark may stand in front of a file. -/
def dropMark : List Char → List Char
  | '\ufeff' :: rest => rest
  | cs => cs

def read (text : String) : Except Fault (List (Key × SettingValue)) :=
  (Reading.readLines {} 1 (Text.split '\n' (dropMark text.toList))).map (·.entries)

def Fault.message : Fault → String
  | malformed line => s!"line {line} is malformed"
  | conflict line => s!"line {line} contradicts a line above it"

end Macromark.Toml
