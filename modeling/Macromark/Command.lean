import Macromark.Command.Arguments
import Macromark.Command.Workspace
import Macromark.Project
import Macromark.Registry.Builtin
import Macromark.Settings

/-!
# The command

Compiles documents from files. A single document goes to the output; several
of them, or one with a directory to go to, are compiled as a project and
written to a file each. Everything is read before anything is written.
-/

namespace Macromark

/-- Why a command stops before its end. -/
inductive CommandFault where
  | misuse (why : Misuse)
  | settings (fault : SettingsFault)
  | file (path : String) (fault : FileFault)
  | registry (fault : Registry.Fault)
  | aborted (why : Abort)
deriving DecidableEq, Repr

def CommandFault.ofCompileFault : CompileFault → CommandFault
  | .registry fault => registry fault
  | .aborted why => aborted why

def CommandFault.message : CommandFault → String
  | misuse why => why.message
  | settings fault => s!"configuration error: {fault.message}"
  | file path fault => s!"{path}: {fault.message}"
  | registry fault => s!"compile error: {fault.message}"
  | aborted why => why.message

/-- The exit status: one for errors in documents, two for a command that stops
by itself, and that of the system for one that is broken off. -/
def exitStatus : Except CommandFault Bool → UInt32
  | .ok true => 0
  | .ok false => 1
  | .error (.aborted _) => 101
  | .error _ => 2

namespace Arguments

def sets (a : Arguments) (flag : CommandFlag) : Bool := a.flags.contains flag

/-- What the arguments set on top of all files. -/
def overrides (a : Arguments) : List (Key × SettingValue) :=
  let flag (f : CommandFlag) (key : Key) : List (Key × SettingValue) :=
    if a.sets f then [(key, .flag true)] else []
  let text (key : Key) (value : Option String) : List (Key × SettingValue) :=
    (value.map fun v => (key, .text v)).toList
  flag .bodyOnly Settings.bodyOnlyKey ++ flag .showTokens Settings.showTokensKey ++
    flag .showTree Settings.showTreeKey ++ flag .showParse Settings.showParseKey ++
    text Settings.formatKey (a.format.map (·.name)) ++ text Settings.indexKey a.index ++
    text Settings.outDirKey a.outDir

/-- The settings of a command, given the text of its settings file. -/
def settings (a : Arguments) (file : Option String) : Except SettingsFault Settings := do
  let layers ← match file with
    | some text => Settings.defaults.addFile text
    | none => pure Settings.defaults
  Settings.ofLayers (a.overrides.foldl (fun l entry => l.assign entry.1 entry.2) layers)

end Arguments

namespace Command

def project (settings : Settings) (sources : List (String × String)) : Project :=
  sources.foldl (fun p source => p.add (Path.documentName source.1) source.2)
    { registry := Registry.builtin, store := .empty, indexName := some settings.index }

/-- Where the output of a document goes. -/
def target (settings : Settings) (name : String) : String :=
  Path.join settings.outDir s!"{name}.{settings.extension}"

def reportText (diagnostics : List Diagnostic) : String :=
  String.join (diagnostics.map fun d => d.write ++ "\n")

variable {m : Type → Type} [Monad m] (files : FileAccess m)

def orStop {α : Type} (path : String) (action : m (Except FileFault α)) :
    ExceptT CommandFault m α := do
  match ← action with
  | .ok a => return a
  | .error fault => throw (.file path fault)

/-- The text of a settings file, whose name may lack its extension. -/
def readSettings (path : String) : ExceptT CommandFault m String := do
  match ← files.read path with
  | .ok text => return text
  | .error _ =>
    match ← files.read (path ++ ".toml") with
    | .ok text => return text
    | .error _ => throw (.settings (.unreadable path))

def readSettings? : Option String → ExceptT CommandFault m (Option String)
  | some path => some <$> readSettings files path
  | none => return none

def readSources (paths : List String) : ExceptT CommandFault m (List (String × String)) :=
  paths.mapM fun path => do return (path, ← orStop path (files.read path))

def runSingle (settings : Settings) (path : String) : ExceptT CommandFault m Bool := do
  let source ← orStop path (files.read path)
  match compile (some Registry.builtin) none
      (settings.compileOptions (Path.documentName path)) source with
  | .error fault => throw (.ofCompileFault fault)
  | .ok compiled =>
    files.print (compiled.writeListings settings.format ++ compiled.output)
    files.report (reportText compiled.diagnostics)
    return !compiled.hasErrors

/-- Writes a document of a project to its file. -/
def writeDocument (settings : Settings) (d : CompiledDocument) : ExceptT CommandFault m Unit := do
  let path := target settings d.name
  files.print (d.output.writeListings settings.format)
  orStop path (files.write path d.output.output)
  files.report (reportText d.output.diagnostics)

/-- Compiles documents to files. Answers whether there are no errors. -/
def runProject (settings : Settings) (paths : List String) : ExceptT CommandFault m Bool := do
  let sources ← readSources files paths
  match (project settings sources).compile (settings.compileOptions "") with
  | .error fault => throw (.ofCompileFault fault)
  | .ok (output, _) =>
    orStop settings.outDir (files.makeDirectories settings.outDir)
    for d in output.documents do
      writeDocument files settings d
    files.report (reportText output.diagnostics)
    return !output.hasErrors

def runArguments (a : Arguments) : ExceptT CommandFault m Bool := do
  let file ← readSettings? files a.config
  match a.settings file with
  | .error fault => throw (.settings fault)
  | .ok settings =>
    match a.paths, a.outDir with
    | [path], none => runSingle files settings path
    | paths, _ => runProject files settings paths

def run (words : List String) : ExceptT CommandFault m Bool :=
  match Arguments.parse words with
  | .ok a => runArguments files a
  | .error why => throw (.misuse why)

end Command
end Macromark
