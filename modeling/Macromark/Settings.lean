import Macromark.Listing
import Macromark.Settings.Toml
import Macromark.Text.Lowercase

/-!
# Settings

Settings are laid over each other: first the defaults, then what each settings
file sets, then single overrides. Setting a key takes the place of everything
that was set at it, within it and on the way to it. Keys that no setting is
read from are ignored.
-/

namespace Macromark

structure Settings where
  /-- Leave out the page around a document. -/
  bodyOnly : Bool
  showTokens : Bool
  showTree : Bool
  showParse : Bool
  format : ListingFormat
  /-- The directory that the documents of a project are written to. -/
  outDir : String
  /-- The file name extension of written documents. -/
  extension : String
  /-- The document from which the others should be reached. -/
  index : String
deriving DecidableEq, Repr

inductive SettingsFault where
  /-- A settings file cannot be read. -/
  | unreadable (path : String)
  | file (fault : Toml.Fault)
  | badKey (text : String)
  | missing (key : Key)
  | notFlag (key : Key)
  | notFormat (key : Key)
deriving DecidableEq, Repr

def SettingsFault.message : SettingsFault → String
  | unreadable path => s!"settings file \"{path}\" not found"
  | file fault => fault.message
  | badKey text => s!"\"{text}\" is not a key"
  | missing key => s!"{key.write} is not set"
  | notFlag key => s!"{key.write} is neither on nor off"
  | notFormat key => s!"{key.write} is not a listing format"

-- ----------------------------------------------------------------------------
-- Layers
-- ----------------------------------------------------------------------------

/-- What is set. No key lies within another one. -/
abbrev Layers := List (Key × SettingValue)

namespace Layers

def assign (layers : Layers) (key : Key) (value : SettingValue) : Layers :=
  layers.filter (fun entry => ¬ key.Overlaps entry.1) ++ [(key, value)]

def get? (layers : Layers) (key : Key) : Option SettingValue :=
  (layers.find? fun entry => entry.1 = key).map (·.2)

/-- The names that are set directly within a key. -/
def namesWithin (layers : Layers) (key : Key) : List String :=
  (layers.filterMap fun entry =>
    if key.isPrefixOf entry.1 then (entry.1.drop key.length).head? else none).eraseDups

/-- The first name of a key in a file may be a path of its own. -/
def expand : Key → Key
  | [] => []
  | name :: rest => ((Key.parse? name).getD [name]) ++ rest

def addFile (layers : Layers) (text : String) : Except SettingsFault Layers :=
  match Toml.read text with
  | .ok entries => .ok (entries.foldl (fun l entry => l.assign (expand entry.1) entry.2) layers)
  | .error fault => .error (.file fault)

def override (layers : Layers) (text : String) (value : SettingValue) :
    Except SettingsFault Layers :=
  match Key.parse? text with
  | some key => .ok (layers.assign key value)
  | none => .error (.badKey text)

end Layers

-- ----------------------------------------------------------------------------
-- Reading
-- ----------------------------------------------------------------------------

namespace SettingValue

/-- How a setting is written in place of text. -/
def toText : SettingValue → String
  | flag value => if value then "true" else "false"
  | number value => toString value
  | text value => value

def onWords : List String := ["1", "true", "on", "yes"]

def offWords : List String := ["0", "false", "off", "no"]

/-- A number is on unless it is zero; a word may be in any case. -/
def toFlag? : SettingValue → Option Bool
  | flag value => some value
  | number value => some (value != 0)
  | text value =>
    let word := String.ofList (value.toList.flatMap Text.lowercase)
    if onWords.contains word then some true
    else if offWords.contains word then some false
    else none

end SettingValue

namespace Layers

def flag (layers : Layers) (key : Key) : Except SettingsFault Bool :=
  match layers.get? key with
  | none => .error (.missing key)
  | some setting =>
    match setting.toFlag? with
    | some value => .ok value
    | none => .error (.notFlag key)

def text (layers : Layers) (key : Key) : Except SettingsFault String :=
  match layers.get? key with
  | some setting => .ok setting.toText
  | none => .error (.missing key)

def choice? (layers : Layers) (key : Key) : Option String :=
  match layers.get? key, layers.namesWithin key with
  | some (.text word), _ => some word
  | none, [name] => some name
  | _, _ => none

/-- The name of a format may be in any case. -/
def format (layers : Layers) (key : Key) : Except SettingsFault ListingFormat :=
  match (layers.choice? key).bind fun word =>
    ListingFormat.ofName? (.ofList (word.toList.flatMap Text.lowercase)) with
  | some format => .ok format
  | none => .error (.notFormat key)

end Layers

namespace Settings

def bodyOnlyKey : Key := ["compile", "body_only"]
def showTokensKey : Key := ["debug", "show_tokens"]
def showTreeKey : Key := ["debug", "show_ast"]
def showParseKey : Key := ["debug", "show_parse"]
def formatKey : Key := ["debug", "dump_format"]
def outDirKey : Key := ["output", "out_dir"]
def extensionKey : Key := ["output", "extension"]
def indexKey : Key := ["project", "index"]

def defaults : Layers := [
  (bodyOnlyKey, .flag false),
  (showTokensKey, .flag false),
  (showTreeKey, .flag false),
  (showParseKey, .flag false),
  (formatKey, .text "text"),
  (outDirKey, .text "out"),
  (extensionKey, .text "html"),
  (indexKey, .text "index")]

def ofLayers (layers : Layers) : Except SettingsFault Settings := do
  return {
    bodyOnly := ← layers.flag bodyOnlyKey
    showTokens := ← layers.flag showTokensKey
    showTree := ← layers.flag showTreeKey
    showParse := ← layers.flag showParseKey
    format := ← layers.format formatKey
    outDir := ← layers.text outDirKey
    extension := ← layers.text extensionKey
    index := ← layers.text indexKey }

def compileOptions (s : Settings) (document : String) : CompileOptions :=
  { bodyOnly := s.bodyOnly, showTokens := s.showTokens, showTree := s.showTree
    showParse := s.showParse, document, extension := s.extension }

end Settings
end Macromark
