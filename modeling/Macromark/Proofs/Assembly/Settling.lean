import Macromark.Assembly.Arrangement
import Macromark.Proofs.Tree.Passage

/-!
# The assembly of a passage

What the assembly makes of a tree is described here without any numbers: what
is implied in a passage is put into it, from the outside to the inside
(`Passage.settle`). `Passage.tidy` is the visit of one macro. The marks of the
nodes that the author wrote are kept, and new nodes are marked as `fresh`.
-/

namespace Macromark
namespace Passage

variable {α : Type}

-- ----------------------------------------------------------------------------
-- What a passage is taken for
-- ----------------------------------------------------------------------------

def isBlank : Passage α → Bool
  | .text _ words => Text.isBlank words
  | _ => false

def isBreak : Passage α → Bool
  | .paragraphBreak _ => true
  | _ => false

def isPhrasing (registry : Registry) : Passage α → Bool
  | .text .. | .error .. => true
  | .call _ name .. => registry.isPhrasing name
  | .paragraphBreak _ => false

/-- The container that a passage asks for where it stands in `owner`. -/
def container? (registry : Registry) (owner : String) : Passage α → Option String
  | .call _ name .. => do
    let definition ← registry.get? name
    let gathering ← definition.gathering
    if gathering.container = owner ∨ gathering.skip.contains owner then none
    else some gathering.container
  | _ => none

-- ----------------------------------------------------------------------------
-- New macros
-- ----------------------------------------------------------------------------

variable (registry : Registry) (fresh : α)

def impliedSlots : List String → Option (List (Passage α)) → List (Slot (Passage α))
  | [], _ => []
  | name :: names, content =>
    let given := if name = "content" then content else none
    let left := if name = "content" then none else content
    match given with
    | some (p :: ps) => ⟨name, true, p :: ps⟩ :: impliedSlots names left
    | _ => ⟨name, given.isSome, [.text fresh ""]⟩ :: impliedSlots names left

def implied? (name : String) (content : List (Passage α)) : Option (Passage α) :=
  match registry.get? name with
  | none => none
  | some definition =>
    if definition.declares "content" then
      some (.call fresh name true (impliedSlots fresh definition.argumentNames (some content)))
    else none

-- ----------------------------------------------------------------------------
-- Containers
-- ----------------------------------------------------------------------------

def rowBehind (isMember isBlank : Passage α → Bool) (rest : List (Passage α)) :
    List (Passage α) :=
  Text.dropEnd (fun p => !isMember p) (rest.takeWhile fun p => isMember p || isBlank p)

def gatherRows (owner : String) : List (Passage α) → List (Passage α)
  | [] => []
  | p :: rest =>
    match p.container? registry owner with
    | none => p :: gatherRows owner rest
    | some container =>
      let isMember (other : Passage α) : Bool := other.container? registry owner == some container
      let row := rowBehind isMember isBlank rest
      if row.isEmpty then p :: gatherRows owner rest
      else
        match implied? registry fresh container (p :: row.filter isMember) with
        | some wrapper => wrapper :: gatherRows owner (rest.drop row.length)
        | none => p :: row ++ gatherRows owner (rest.drop row.length)
termination_by ps => ps.length
decreasing_by all_goals simp only [List.length_drop, List.length_cons]; omega

def gather (owner : String) (content : List (Passage α)) : List (Passage α) :=
  gatherRows registry fresh owner
    (if registry.isContainer owner then content.filter (!·.isBlank) else content)

-- ----------------------------------------------------------------------------
-- Paragraphs
-- ----------------------------------------------------------------------------

def chunks : List (Passage α) → List (List (Passage α))
  | [] => [[]]
  | p :: rest =>
    if p.isBreak then [] :: chunks rest
    else
      match chunks rest with
      | first :: others => (p :: first) :: others
      | [] => [[p]]

def trimFront (cut : List Char → List Char) : List (Passage α) → List (Passage α)
  | [] => []
  | .text mark words :: rest =>
    match cut words.toList with
    | [] => trimFront cut rest
    | kept => .text mark (.ofList kept) :: rest
  | p :: rest => p :: rest

def trimChunk (chunk : List (Passage α)) : List (Passage α) :=
  (trimFront (Text.dropEnd isNewline) (trimFront (·.dropWhile isNewline) chunk).reverse).reverse

def wrapChunk (chunk : List (Passage α)) : List (Passage α) :=
  match trimChunk chunk with
  | [] => []
  | first :: rest =>
    if first.isPhrasing registry then
      match implied? registry fresh MacroName.paragraph (first :: rest) with
      | some paragraph => [paragraph]
      | none => first :: rest
    else first :: rest

def insertParagraphs (content : List (Passage α)) : List (Passage α) :=
  (chunks content).flatMap (wrapChunk registry fresh)

-- ----------------------------------------------------------------------------
-- Arguments, macros and all that stands in them
-- ----------------------------------------------------------------------------

def tidyContent (owner : String) (isRoot : Bool) (name : String) (content : List (Passage α)) :
    List (Passage α) :=
  let gathered := gather registry fresh owner content
  if content.any isBreak ∨ (isRoot ∧ name = "content") then
    insertParagraphs registry fresh gathered
  else gathered

end Passage

def Slot.tidy {α : Type} (registry : Registry) (fresh : α) (owner : String) (isRoot : Bool)
    (slot : Slot (Passage α)) : Slot (Passage α) :=
  { slot with content := Passage.tidyContent registry fresh owner isRoot slot.name slot.content }

namespace Passage

variable {α : Type} (registry : Registry) (fresh : α)

def tidy (isRoot : Bool) : Passage α → Passage α
  | .call mark name synthetic slots =>
    .call mark name synthetic (slots.map (·.tidy registry fresh name isRoot))
  | p => p

def mapContent (f : Passage α → Passage α) : Passage α → Passage α
  | .call mark name synthetic slots => .call mark name synthetic (slots.map (·.map f))
  | p => p

/-- Puts what is implied into a passage and into what stands in it then, down to a depth. -/
def settle : Nat → Bool → Passage α → Passage α
  | 0, _, p => p
  | depth + 1, isRoot, p => (p.tidy registry fresh isRoot).mapContent (settle depth false)

end Passage
end Macromark
