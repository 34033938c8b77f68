import Macromark.Command

/-!
# The program

The command on the files of the machine. Everything that it decides is decided
in `Command`; here are only the calls that read and write.
-/

namespace Macromark

/-- The fault behind an error of the machine. The two faults about directories
differ by their numbers only. -/
def FileFault.ofError : IO.Error → FileFault
  | .noFileOrDirectory .. => .notFound
  | .alreadyExists .. => .alreadyExists
  | .inappropriateType _ code details =>
    if code = 20 then .notDirectory else if code = 21 then .isDirectory else .other details
  | error => .other (toString error)

def FileFault.catching {α : Type} (action : IO α) : IO (Except FileFault α) := do
  try return .ok (← action)
  catch error => return .error (.ofError error)

def machineAccess : FileAccess IO where
  read path := FileFault.catching (IO.FS.readFile path)
  makeDirectories path :=
    if path = "" then return .ok () else FileFault.catching (IO.FS.createDirAll path)
  write path text := FileFault.catching (IO.FS.writeFile path text)
  print text := IO.print text
  report text := IO.eprint text

end Macromark

def main (words : List String) : IO UInt32 := do
  let outcome ← (Macromark.Command.run Macromark.machineAccess words).run
  match outcome with
  | .ok _ => pure ()
  | .error (.aborted why) => IO.eprintln why.message
  | .error fault => IO.eprintln s!"Error: {fault.message}"
  return Macromark.exitStatus outcome
