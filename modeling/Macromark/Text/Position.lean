/-!
# Positions in a text

Lines and columns count from one, and a column counts characters whatever
their encoded width. `Position.after` walks over text; `LineMap` answers the
same question for an offset in the UTF-8 encoding.
-/

namespace Macromark

structure Position where
  line : Nat
  column : Nat
deriving DecidableEq, Repr

namespace Position

def origin : Position := ⟨1, 1⟩

instance : Inhabited Position := ⟨origin⟩

def next (p : Position) (c : Char) : Position :=
  if c = '\n' then ⟨p.line + 1, 1⟩ else ⟨p.line, p.column + 1⟩

def after (p : Position) (text : List Char) : Position := text.foldl next p

instance : LT Position where
  lt p q := p.line < q.line ∨ p.line = q.line ∧ p.column < q.column

instance (p q : Position) : Decidable (p < q) :=
  inferInstanceAs (Decidable (p.line < q.line ∨ p.line = q.line ∧ p.column < q.column))

def write (p : Position) : String := s!"{p.line}:{p.column}"

@[simp] theorem after_nil (p : Position) : p.after [] = p := rfl

@[simp] theorem after_cons (p : Position) (c : Char) (text : List Char) :
    p.after (c :: text) = (p.next c).after text := rfl

theorem after_append (p : Position) (first second : List Char) :
    p.after (first ++ second) = (p.after first).after second := by
  simp [after]

end Position

namespace Text

-- ----------------------------------------------------------------------------
-- Offsets
-- ----------------------------------------------------------------------------

def byteLength : List Char → Nat
  | [] => 0
  | c :: rest => c.utf8Size + byteLength rest

/-- Cuts a text at an offset. There is no cut inside a character, and none
behind the end. -/
def cut? (offset : Nat) : List Char → Option (List Char × List Char)
  | [] => if offset = 0 then some ([], []) else none
  | c :: rest =>
    if offset = 0 then some ([], c :: rest)
    else if offset < c.utf8Size then none
    else (cut? (offset - c.utf8Size) rest).map fun (front, back) => (c :: front, back)

def slice? (text : List Char) (start stop : Nat) : Option (List Char) :=
  if stop < start then none
  else do
    let (_, behind) ← cut? start text
    let (between, _) ← cut? (stop - start) behind
    return between

@[simp] theorem byteLength_nil : byteLength [] = 0 := rfl

@[simp] theorem byteLength_cons (c : Char) (rest : List Char) :
    byteLength (c :: rest) = c.utf8Size + byteLength rest := rfl

@[simp] theorem byteLength_append (first second : List Char) :
    byteLength (first ++ second) = byteLength first + byteLength second := by
  induction first with
  | nil => simp
  | cons c rest ih => simp [ih, Nat.add_assoc]

end Text

/-- The encoded offset of every character of a text that begins at `start`. -/
def charOffsets (start : Nat) : List Char → List (Nat × Char)
  | [] => []
  | c :: rest => (start, c) :: charOffsets (start + c.utf8Size) rest

/-- The offsets behind the line ends of a text that begins at `start`. -/
def breakOffsets (start : Nat) (text : List Char) : List Nat :=
  ((charOffsets start text).filter (·.2 == '\n')).map (·.1 + 1)

structure LineMap where
  text : List Char
  lineStarts : Array Nat
deriving Repr

namespace LineMap

def ofText (text : List Char) : LineMap := ⟨text, (0 :: breakOffsets 0 text).toArray⟩

inductive Found where
  | here (index : Nat)
  /-- The number is not there, and would have to be entered at `index`. -/
  | missing (index : Nat)
deriving DecidableEq, Repr

/-- Looks for an offset between two indices, and halves the distance between
them until it is found or there is none. -/
def search (starts : Array Nat) (offset low high : Nat) (h : high ≤ starts.size) : Found :=
  if hlt : low < high then
    let middle := low + (high - low) / 2
    have hmiddle : middle < high := by omega
    have hsize : middle < starts.size := Nat.lt_of_lt_of_le hmiddle h
    if starts[middle] = offset then .here middle
    else if starts[middle] < offset then search starts offset (middle + 1) high h
    else search starts offset low middle (Nat.le_of_lt hsize)
  else .missing low
termination_by high - low

def lineAt? (map : LineMap) (offset : Nat) : Option Nat :=
  match search map.lineStarts offset 0 map.lineStarts.size (Nat.le_refl _) with
  | .here line => some line
  | .missing 0 => none
  | .missing (line + 1) => some line

/-- The line of `offset`, and the number of the characters between the start of
the line and `offset`. Behind the text, the end of the text. -/
def position? (map : LineMap) (offset : Nat) : Option Position := do
  let line ← map.lineAt? offset
  let start ← map.lineStarts[line]?
  let before ← Text.slice? map.text start (min offset (Text.byteLength map.text))
  return ⟨line + 1, before.length + 1⟩

/-- No character begins at an offset without a position; it counts as the origin. -/
def position (map : LineMap) (offset : Nat) : Position := (map.position? offset).getD .origin

end LineMap

-- ----------------------------------------------------------------------------
-- Sites
-- ----------------------------------------------------------------------------

structure Site where
  document : String
  position : Position
deriving DecidableEq, Repr

def Site.write (site : Site) : String :=
  if site.document = "" then site.position.write
  else s!"{site.document}:{site.position.write}"

end Macromark
