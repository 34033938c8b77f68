import Macromark.Listing

/-!
# Arguments of the command

The words of a command line are paths, flags and options with a value. A flag
or an option is given once; the value of an option follows it, after an equals
sign or as the next word, and short ones may share a dash. A double dash ends
the flags and options.
-/

namespace Macromark

inductive CommandFlag where
  | bodyOnly
  | showTokens
  | showTree
  | showParse
  /-- Asks for more words on the stream for diagnostics, which has none to add. -/
  | verbose
deriving DecidableEq, Repr

inductive CommandOption where
  | config
  | format
  | index
  | outDir
deriving DecidableEq, Repr

namespace CommandFlag

def all : List CommandFlag := [bodyOnly, showTokens, showTree, showParse, verbose]

def long : CommandFlag → String
  | bodyOnly => "body-only"
  | showTokens => "show-tokens"
  | showTree => "show-ast"
  | showParse => "show-parse"
  | verbose => "verbose"

def short? : CommandFlag → Option Char
  | verbose => some 'v'
  | _ => none

end CommandFlag

namespace CommandOption

def all : List CommandOption := [config, format, index, outDir]

def long : CommandOption → String
  | config => "config"
  | format => "dump-format"
  | index => "index"
  | outDir => "out-dir"

def short? : CommandOption → Option Char
  | config => some 'c'
  | outDir => some 'o'
  | _ => none

end CommandOption

/-- Why a command line makes no sense. -/
inductive Misuse where
  | unknown (word : String)
  | missingValue (option : CommandOption)
  | unwantedValue (flag : CommandFlag)
  | repeated (name : String)
  | unknownFormat (name : String)
  | noPath
deriving DecidableEq, Repr

def Misuse.message : Misuse → String
  | unknown word => s!"unexpected argument \"{word}\""
  | missingValue option => s!"--{option.long} needs a value"
  | unwantedValue flag => s!"--{flag.long} takes no value"
  | repeated name => s!"--{name} is given more than once"
  | unknownFormat name => s!"\"{name}\" is not a listing format"
  | noPath => "no document is given"

-- ----------------------------------------------------------------------------
-- Items
-- ----------------------------------------------------------------------------

/-- What one or two words of a command line say. -/
inductive CommandItem where
  | path (path : String)
  | flag (flag : CommandFlag)
  | option (option : CommandOption) (value : String)
deriving DecidableEq, Repr

namespace CommandItem

structure Word where
  items : List CommandItem
  awaiting : Option CommandOption := none
deriving DecidableEq, Repr

/-- A long name, with a value after an equals sign. -/
def long? (cs : List Char) : Except Misuse Word :=
  let name := String.ofList (cs.takeWhile (· ≠ '='))
  let value := match cs.dropWhile (· ≠ '=') with
    | _ :: value => some (String.ofList value)
    | [] => none
  match CommandFlag.all.find? (·.long == name), CommandOption.all.find? (·.long == name), value with
  | some f, _, none => .ok ⟨[.flag f], none⟩
  | some f, _, some _ => .error (.unwantedValue f)
  | none, some o, some value => .ok ⟨[.option o value], none⟩
  | none, some o, none => .ok ⟨[], some o⟩
  | none, none, _ => .error (.unknown ("--" ++ .ofList cs))

/-- Short names one after the other. What follows an option is its value. -/
def short? : List Char → Except Misuse Word
  | [] => .ok ⟨[], none⟩
  | c :: rest =>
    match CommandFlag.all.find? (·.short? == some c),
        CommandOption.all.find? (·.short? == some c) with
    | some f, _ => do
      let word ← short? rest
      return { word with items := .flag f :: word.items }
    | none, some o =>
      match rest with
      | [] => .ok ⟨[], some o⟩
      | '=' :: value => .ok ⟨[.option o (.ofList value)], none⟩
      | value => .ok ⟨[.option o (.ofList value)], none⟩
    | none, none => .error (.unknown ("-" ++ .ofList [c]))

/-- A dash alone is a path. -/
def word? (word : String) : Except Misuse Word :=
  match word.toList with
  | '-' :: '-' :: name => long? name
  | '-' :: c :: rest => short? (c :: rest)
  | _ => .ok ⟨[.path word], none⟩

/-- Whether a word can be the value of the option before it. -/
def isValue (word : String) : Bool :=
  match word.toList with
  | '-' :: _ :: _ => false
  | _ => true

def readAll : List String → Except Misuse (List CommandItem)
  | [] => .ok []
  | "--" :: paths => .ok (paths.map .path)
  | word :: rest => do
    let ⟨items, awaiting⟩ ← word? word
    match awaiting, rest with
    | none, rest => return items ++ (← readAll rest)
    | some o, [] => .error (.missingValue o)
    | some o, value :: rest =>
      if isValue value then return items ++ .option o value :: (← readAll rest)
      else .error (.missingValue o)

end CommandItem

-- ----------------------------------------------------------------------------
-- Arguments
-- ----------------------------------------------------------------------------

structure Arguments where
  /-- At least one. -/
  paths : List String
  flags : List CommandFlag
  /-- The settings file to lay over the defaults. -/
  config : Option String
  format : Option ListingFormat
  index : Option String
  /-- Asks for files instead of output, even for one document. -/
  outDir : Option String
deriving DecidableEq, Repr

namespace Arguments

def values (items : List CommandItem) (option : CommandOption) : List String :=
  items.filterMap fun item =>
    match item with
    | .option o value => if o = option then some value else none
    | _ => none

def single? (items : List CommandItem) (option : CommandOption) :
    Except Misuse (Option String) :=
  match values items option with
  | [] => .ok none
  | [value] => .ok (some value)
  | _ => .error (.repeated option.long)

def format? : Option String → Except Misuse (Option ListingFormat)
  | none => .ok none
  | some name =>
    match ListingFormat.ofName? name with
    | some format => .ok (some format)
    | none => .error (.unknownFormat name)

def ofItems (items : List CommandItem) : Except Misuse Arguments := do
  let flags := items.filterMap fun item =>
    match item with
    | .flag flag => some flag
    | _ => none
  let paths := items.filterMap fun item =>
    match item with
    | .path path => some path
    | _ => none
  if let some flag := flags.find? fun flag => 1 < flags.count flag then
    throw (.repeated flag.long)
  let config ← single? items .config
  let format ← format? (← single? items .format)
  let index ← single? items .index
  let outDir ← single? items .outDir
  if paths.isEmpty then throw .noPath
  return { paths, flags, config, format, index, outDir }

def parse (words : List String) : Except Misuse Arguments := do
  ofItems (← CommandItem.readAll words)

end Arguments
end Macromark
