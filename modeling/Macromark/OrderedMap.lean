/-!
# Ordered maps

A finite map as the list of its entries in ascending order of the keys. Each
operation is stated by what it does to `get?`; those laws need no order.
-/

namespace Macromark

abbrev OrderedMap (κ α : Type) := List (κ × α)

namespace OrderedMap

variable {κ α : Type} [DecidableEq κ]

def get? : OrderedMap κ α → κ → Option α
  | [], _ => none
  | (k, a) :: rest, key => if k = key then some a else get? rest key

def contains (m : OrderedMap κ α) (key : κ) : Bool := (get? m key).isSome

def insert [LT κ] [∀ a b : κ, Decidable (a < b)] (key : κ) (value : α) :
    OrderedMap κ α → OrderedMap κ α
  | [] => [(key, value)]
  | (k, a) :: rest =>
    if key < k then (key, value) :: (k, a) :: rest
    else if key = k then (key, value) :: rest
    else (k, a) :: insert key value rest

def erase (m : OrderedMap κ α) (key : κ) : OrderedMap κ α := m.filter fun entry => entry.1 ≠ key

def modify (m : OrderedMap κ α) (key : κ) (f : α → α) : OrderedMap κ α :=
  m.map fun entry => if entry.1 = key then (entry.1, f entry.2) else entry

def keys (m : OrderedMap κ α) : List κ := m.map Prod.fst

def values (m : OrderedMap κ α) : List α := m.map Prod.snd

@[simp] theorem get?_nil (key : κ) : get? ([] : OrderedMap κ α) key = none := rfl

theorem get?_insert [LT κ] [∀ a b : κ, Decidable (a < b)] (m : OrderedMap κ α) (key other : κ)
    (value : α) :
    get? (insert key value m) other = if key = other then some value else get? m other := by
  induction m with
  | nil => simp [insert, get?]
  | cons entry rest ih =>
    obtain ⟨k, a⟩ := entry
    simp only [insert]
    split
    · simp only [get?]
    · split
      · next h => subst h; simp only [get?]; split <;> rfl
      · next h =>
        simp only [get?, ih]
        by_cases hk : k = other
        · subst hk; simp [h]
        · simp [hk]

theorem get?_erase (m : OrderedMap κ α) (key other : κ) :
    get? (erase m key) other = if key = other then none else get? m other := by
  induction m with
  | nil => simp [erase, get?]
  | cons entry rest ih =>
    obtain ⟨k, a⟩ := entry
    simp only [erase, List.filter_cons] at ih ⊢
    by_cases h : k = key
    · subst h
      simp only [ne_eq, not_true_eq_false, decide_false, Bool.false_eq_true, if_false, ih, get?]
      split <;> rfl
    · simp only [ne_eq, h, not_false_eq_true, decide_true, if_true, get?, ih]
      by_cases hk : k = other
      · subst hk; simp [Ne.symm h]
      · simp [hk]

theorem get?_modify (m : OrderedMap κ α) (key other : κ) (f : α → α) :
    get? (modify m key f) other = if key = other then (get? m other).map f else get? m other := by
  induction m with
  | nil => simp [modify, get?]
  | cons entry rest ih =>
    obtain ⟨k, a⟩ := entry
    simp only [modify, List.map_cons] at ih ⊢
    by_cases h : k = key
    · subst h
      simp only [if_true, get?, ih]
      by_cases hk : k = other <;> simp [hk]
    · simp only [h, if_false, get?, ih]
      by_cases hk : k = other
      · subst hk; simp [Ne.symm h]
      · simp [hk]

end OrderedMap
end Macromark
