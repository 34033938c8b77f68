/-!
# Singular and plural

English rules for the last word of an identifier, so that a link may name its
target in the other number. A form that the rules get wrong does not name
anything.
-/

namespace Macromark.Inflection

def irregularPlurals : List (String × String) := [
  ("child", "children"), ("foot", "feet"), ("goose", "geese"), ("man", "men"),
  ("mouse", "mice"), ("person", "people"), ("tooth", "teeth"), ("woman", "women")]

def uncountables : List String :=
  ["equipment", "fish", "information", "news", "series", "sheep", "species"]

/-- Words in `ie`, whose plurals look like those of words in `y`. -/
def ieWords : List String :=
  ["brownie", "calorie", "cookie", "genie", "lie", "movie", "pie", "prairie", "rookie",
    "selfie", "tie", "zombie"]

def oesWords : List String :=
  ["echo", "embargo", "hero", "mosquito", "potato", "tomato", "torpedo", "veto", "volcano"]

def isVowel (c : Char) : Bool := c == 'a' || c == 'e' || c == 'i' || c == 'o' || c == 'u'

def stem? (ending : String) (word : String) : Option String :=
  if ending.toList.isSuffixOf word.toList then
    some (.ofList (word.toList.take (word.length - ending.length)))
  else none

def endsIn (ending word : String) : Bool := ending.toList.isSuffixOf word.toList

def lastIs (p : Char → Bool) (word : String) : Bool := word.toList.getLast?.any p

/-- The word before a plural `s` or `es` where the table of exceptions names it. -/
def listed? (table : List String) (ending word : String) : Option String :=
  (stem? ending word).filter table.contains

/-- Plurals in `uses` of words in `us`, but not those of words in `use`. -/
def usWord? (word : String) : Option String :=
  ((stem? "uses" word).filter (lastIs fun c => c != 'a' && c != 'o' && c != 'u')).map (· ++ "us")

/-- Plurals in `es` of words that end in a hissing sound. -/
def sibilantWord? (word : String) : Option String :=
  if ["sses", "xes", "zes", "ches", "shes"].any (endsIn · word) then stem? "es" word else none

def ysisWord? (word : String) : Option String :=
  if endsIn "yses" word then (stem? "es" word).map (· ++ "is") else none

/-- Words that end in `s` in the singular. -/
def isSingularInS (word : String) : Bool :=
  endsIn "ss" word || endsIn "us" word || endsIn "is" word

def nonempty (s : String) : Bool := s != ""

def singularWord (word : String) : String :=
  if uncountables.contains word then word
  else match irregularPlurals.find? (·.2 == word) with
    | some entry => entry.1
    | none =>
      if irregularPlurals.any (·.1 == word) then word
      else
        let regular :=
          (listed? ieWords "s" word)
            |>.or (listed? oesWords "es" word)
            |>.or (((stem? "ies" word).filter nonempty).map (· ++ "y"))
            |>.or (usWord? word)
            |>.or (sibilantWord? word)
            |>.or (ysisWord? word)
            |>.or (if isSingularInS word then some word else none)
            |>.or ((stem? "s" word).filter nonempty)
        regular.getD word

def pluralWord (word : String) : String :=
  if word = "" || uncountables.contains word then word
  else match irregularPlurals.find? (·.1 == word) with
    | some entry => entry.2
    | none =>
      if irregularPlurals.any (·.2 == word) || singularWord word != word then word
      else
        let regular :=
          ((stem? "is" word).map (· ++ "es"))
            |>.or (if oesWords.contains word then some (word ++ "es") else none)
            |>.or (((stem? "y" word).filter (lastIs fun c => !isVowel c)).map (· ++ "ies"))
            |>.or (if ["s", "x", "z", "ch", "sh"].any (endsIn · word) then some (word ++ "es")
              else none)
        regular.getD (word ++ "s")

def onLastWord (inflect : String → String) (id : String) : String :=
  let last := (id.toList.reverse.takeWhile (· != '-')).reverse
  let before := id.toList.take (id.length - last.length)
  .ofList before ++ inflect (.ofList last)

def singularize (id : String) : String := onLastWord singularWord id

def pluralize (id : String) : String := onLastWord pluralWord id

/-- The other forms of an identifier, singular first. -/
def variants (id : String) : List String :=
  let singular := singularize id
  let plural := pluralize id
  let fits (form : String) : Bool := form != id && form != ""
  (if fits singular then [singular] else []) ++
    (if fits plural && plural != singular then [plural] else [])

end Macromark.Inflection
