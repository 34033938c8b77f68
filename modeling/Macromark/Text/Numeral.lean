/-!
# Numerals

What digits stand for, and the texts that a reader of plain data takes for a
number: decimal numbers that a double can hold, and whole numbers of 128 bits
in another base.
-/

namespace Macromark.Numeral

def digitValue (c : Char) : Nat :=
  if c.isDigit then c.toNat - '0'.toNat else c.toLower.toNat - 'a'.toNat + 10

def isHexDigit (c : Char) : Bool := c.isDigit || 'a' ≤ c.toLower && c.toLower ≤ 'f'

def isDigitOf (base : Nat) (c : Char) : Bool := isHexDigit c && digitValue c < base

def value (base : Nat) (digits : List Char) : Nat :=
  digits.foldl (fun n c => n * base + digitValue c) 0

def splitSign : List Char → Option Char × List Char
  | '+' :: rest => (some '+', rest)
  | '-' :: rest => (some '-', rest)
  | cs => (none, cs)

-- ----------------------------------------------------------------------------
-- Whole numbers in another base
-- ----------------------------------------------------------------------------

/-- The base that a number announces, and its digits. -/
def splitBase : List Char → Option (Nat × List Char)
  | '0' :: 'x' :: digits => some (16, digits)
  | '0' :: 'o' :: digits => some (8, digits)
  | '0' :: 'b' :: digits => some (2, digits)
  | _ => none

def isBased (cs : List Char) : Bool :=
  let (sign, rest) := splitSign cs
  match splitBase rest with
  | none => false
  | some (base, digits) =>
    !digits.isEmpty && digits.all (isDigitOf base) &&
      (if sign = some '-' then value base digits ≤ Nat.pow 2 127
        else value base digits < Nat.pow 2 128)

-- ----------------------------------------------------------------------------
-- Decimal numbers
-- ----------------------------------------------------------------------------

/-- Digits, the last of which counts ten to the power of the exponent. -/
structure Decimal where
  digits : List Char
  exponent : Int
deriving DecidableEq, Repr

/-- The exponent behind the digits, zero where there is none. -/
def exponent? : List Char → Option Int
  | [] => some 0
  | e :: rest =>
    let (sign, digits) := splitSign rest
    if (e = 'e' || e = 'E') && !digits.isEmpty && digits.all Char.isDigit then
      let n : Int := value 10 digits
      some (if sign = some '-' then -n else n)
    else none

/-- Reads a number without a sign. At least one digit stands before the
exponent, on either side of the point. -/
def decimal? (cs : List Char) : Option Decimal :=
  let whole := cs.takeWhile Char.isDigit
  let (fraction, rest) := match cs.dropWhile Char.isDigit with
    | '.' :: rest => (rest.takeWhile Char.isDigit, rest.dropWhile Char.isDigit)
    | rest => ([], rest)
  if whole.isEmpty && fraction.isEmpty then none
  else (exponent? rest).map fun e => ⟨whole ++ fraction, e - fraction.length⟩

/-- The least number that rounds to infinity: half a unit above the greatest
double. -/
def overflow : Nat := Nat.pow 2 1024 - Nat.pow 2 970

def Decimal.isFinite (d : Decimal) : Bool :=
  let significant := d.digits.dropWhile (· = '0')
  let magnitude := significant.length + d.exponent
  if significant.isEmpty || magnitude ≤ 308 then true
  else if 309 < magnitude then false
  else
    let n := value 10 significant
    if 0 ≤ d.exponent then n * Nat.pow 10 d.exponent.toNat < overflow
    else n < overflow * Nat.pow 10 (-d.exponent).toNat

def isDecimal (cs : List Char) : Bool :=
  (decimal? (splitSign cs).2).any Decimal.isFinite

/-- Digits that begin with a superfluous zero. -/
def isPadded (cs : List Char) : Bool :=
  match (splitSign cs).2 with
  | '0' :: digits => !digits.isEmpty && digits.all Char.isDigit
  | _ => false

end Macromark.Numeral
