import Macromark.Text.Basic

/-!
# Files

What a command needs of the world around it, and a world that is a value: a
workspace is a directory with everything in it, and what a command has written
to its streams. A file is known by its components from that directory; places
outside begin with double points, and nothing is known to be in those
directories.
-/

namespace Macromark.Path

-- ----------------------------------------------------------------------------
-- Paths
-- ----------------------------------------------------------------------------

def components (path : String) : List String :=
  ((Text.split '/' path.toList).filter (!·.isEmpty)).map .ofList

def isAbsolute (path : String) : Bool := path.toList.head? = some '/'

/-- The last component that is not the directory itself. -/
def fileName? (path : String) : Option String :=
  match ((components path).filter (· ≠ ".")).getLast? with
  | some ".." => none
  | name => name

/-- Cuts at the last point, unless nothing would be left. -/
def stem (name : String) : String :=
  let before := (name.toList.reverse.dropWhile (· ≠ '.')).drop 1
  if before.isEmpty then name else .ofList before.reverse

def documentName (path : String) : String := ((fileName? path).map stem).getD ""

def join (directory file : String) : String :=
  if directory = "" || directory.toList.getLast? = some '/' then directory ++ file
  else directory ++ "/" ++ file

end Macromark.Path

namespace Macromark

-- ----------------------------------------------------------------------------
-- File access
-- ----------------------------------------------------------------------------

inductive FileFault where
  | notFound
  | alreadyExists
  | notDirectory
  | isDirectory
  | other (message : String)
deriving DecidableEq, Repr

/-- The words of the operating system, with its number for the fault. -/
def FileFault.message : FileFault → String
  | notFound => "No such file or directory (os error 2)"
  | alreadyExists => "File exists (os error 17)"
  | notDirectory => "Not a directory (os error 20)"
  | isDirectory => "Is a directory (os error 21)"
  | other message => message

structure FileAccess (m : Type → Type) where
  read : (path : String) → m (Except FileFault String)
  /-- Makes a directory and those above it, unless they are there. -/
  makeDirectories : (path : String) → m (Except FileFault Unit)
  write : (path text : String) → m (Except FileFault Unit)
  print : (text : String) → m Unit
  /-- Writes to the stream for diagnostics. -/
  report : (text : String) → m Unit

-- ----------------------------------------------------------------------------
-- Workspaces
-- ----------------------------------------------------------------------------

structure Workspace where
  files : List (List String × String)
  directories : List (List String) := []
  printed : String := ""
  reported : String := ""
deriving DecidableEq, Repr

namespace Workspace

inductive Entry where
  | file (text : String)
  | directory
deriving DecidableEq, Repr

def text? (w : Workspace) (place : List String) : Option String :=
  (w.files.find? fun entry => entry.1 = place).map (·.2)

def hasDirectory (w : Workspace) (place : List String) : Bool :=
  place.all (· == "..") || w.directories.any place.isPrefixOf ||
    w.files.any fun entry => entry.1 ≠ place && place.isPrefixOf entry.1

def entry? (w : Workspace) (place : List String) : Option Entry :=
  match w.text? place with
  | some text => some (.file text)
  | none => if w.hasDirectory place then some .directory else none

-- ----------------------------------------------------------------------------
-- Walking
-- ----------------------------------------------------------------------------

/-- A place whose components are looked up in it has to be a directory. -/
def requireDirectory (w : Workspace) (place : List String) : Except FileFault Unit :=
  match w.entry? place with
  | some .directory => .ok ()
  | some (.file _) => .error .notDirectory
  | none => .error .notFound

def parent (place : List String) : List String :=
  if place.all (· == "..") then place ++ [".."] else place.dropLast

/-- The place that components lead to from `here`. Nothing needs to be there,
but what leads to it has to be. -/
def walk (w : Workspace) (here : List String) : List String → Except FileFault (List String)
  | [] => .ok here
  | "." :: rest => do
    w.requireDirectory here
    w.walk here rest
  | ".." :: rest => do
    w.requireDirectory here
    w.walk (parent here) rest
  | name :: rest => do
    w.requireDirectory here
    w.walk (here ++ [name]) rest

def locate (w : Workspace) (path : String) : Except FileFault (List String) := do
  if path = "" || Path.isAbsolute path then .error .notFound
  else
    let place ← w.walk [] (Path.components path)
    if path.toList.getLast? = some '/' then w.requireDirectory place
    return place

-- ----------------------------------------------------------------------------
-- Files and directories
-- ----------------------------------------------------------------------------

def read (w : Workspace) (path : String) : Except FileFault String := do
  match w.entry? (← w.locate path) with
  | some (.file text) => .ok text
  | some .directory => .error .isDirectory
  | none => .error .notFound

def put (w : Workspace) (place : List String) (text : String) : Workspace :=
  { w with files := w.files.filter (fun entry => entry.1 ≠ place) ++ [(place, text)] }

def write (w : Workspace) (path text : String) : Except FileFault Workspace := do
  let place ← w.locate path
  match w.entry? place with
  | some .directory => .error .isDirectory
  | _ => .ok (w.put place text)

/-- Makes the directories that components lead through, one after the other. -/
def make (w : Workspace) (here : List String) : List String → Except FileFault Workspace
  | [] => .ok w
  | "." :: rest => w.make here rest
  | ".." :: rest => w.make (parent here) rest
  | name :: rest =>
    let place := here ++ [name]
    match w.entry? place with
    | some .directory => w.make place rest
    | some (.file _) => .error (if rest.isEmpty then .alreadyExists else .notDirectory)
    | none => { w with directories := w.directories ++ [place] }.make place rest

def makeDirectories (w : Workspace) (path : String) : Except FileFault Workspace :=
  if Path.isAbsolute path then .error .notFound else w.make [] (Path.components path)

-- ----------------------------------------------------------------------------
-- Access
-- ----------------------------------------------------------------------------

def commit (change : Workspace → Except FileFault Workspace) :
    StateM Workspace (Except FileFault Unit) := fun w =>
  match change w with
  | .ok w => (.ok (), w)
  | .error fault => (.error fault, w)

def access : FileAccess (StateM Workspace) where
  read path := do return (← get).read path
  makeDirectories path := commit (·.makeDirectories path)
  write path text := commit (·.write path text)
  print text := modify fun w => { w with printed := w.printed ++ text }
  report text := modify fun w => { w with reported := w.reported ++ text }

theorem text?_put (w : Workspace) (place other : List String) (text : String) :
    (w.put place text).text? other = if place = other then some text else w.text? other := by
  have hf : place ≠ other →
      (w.files.filter fun entry => entry.1 ≠ place).find? (fun entry => entry.1 = other) =
        w.files.find? fun entry => entry.1 = other := by
    intro h
    rw [List.find?_filter]
    congr 1
    funext entry
    by_cases he : entry.1 = other <;> simp [he, Ne.symm h]
  by_cases h : place = other
  · subst h
    simp only [text?, put, List.find?_append]
    rw [List.find?_eq_none.2 (by simp)]
    simp
  · simp only [text?, put, List.find?_append, hf h]
    simp [h]

end Workspace
end Macromark
