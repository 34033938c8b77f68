import Macromark.Text.Basic
import Macromark.Text.Numeral

/-!
# Header levels

A level is a positive number of 64 bits. Its text may have a plus sign and
leading zeros, and white space around it, but no other sign and no separators.
-/

namespace Macromark

abbrev Level := UInt64

/-- Why a run breaks off without an answer. -/
inductive Abort where
  | overflow
deriving DecidableEq, Repr

def Abort.message : Abort → String
  | overflow => "attempt to add with overflow"

namespace Level

/-- The level below. The sum is checked: there is none below the last of 64 bits. -/
def next (level : Level) : Except Abort Level :=
  if level.toNat + 1 < UInt64.size then .ok (level + 1) else .error .overflow

def unsigned : List Char → List Char
  | '+' :: rest => rest
  | cs => cs

def parse? (text : String) : Option Level :=
  let digits := unsigned (Text.trimChars text.toList)
  if digits ≠ [] ∧ digits.all Char.isDigit then
    let n := Numeral.value 10 digits
    if 0 < n ∧ n < UInt64.size then some (UInt64.ofNat n) else none
  else none

theorem parse?_pos {text : String} {level : Level} (h : parse? text = some level) :
    0 < level.toNat := by
  simp only [parse?] at h
  split at h
  · split at h
    · next hn =>
      injection h with h
      subst h
      rw [UInt64.toNat_ofNat_of_lt' hn.2]
      exact hn.1
    · simp at h
  · simp at h

end Level
end Macromark
