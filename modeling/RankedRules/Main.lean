/-
The program.

The files that the command reads are read first, the configuration before the models that it
names; what the command then does is computed from them.
-/
import RankedRules.Query.Command

namespace RankedRules

/-- Why a file cannot be read. -/
def FileFault.ofError : IO.Error → FileFault
  | .noFileOrDirectory .. => .missing
  | .inappropriateType _ code _ =>
    -- The system's number for "is a directory".
    if code == 21 then .directory else .notDirectory
  | error => .other (toString error)

/-- Reads a file, or says why it cannot be read. -/
def readName (name : String) : IO (Except FileFault String) := do
  try
    return .ok (← IO.FS.readFile name)
  catch error =>
    return .error (FileFault.ofError error)

/-- The files that the arguments lead to, when some have been read. -/
def snapshot (arguments : List String) (taken : List (String × Except FileFault String)) :
    IO (List (String × Except FileFault String)) := do
  let mut taken := taken
  for name in Command.names (Files.ofSnapshot taken) arguments do
    if (taken.lookup name).isNone then
      taken := (name, ← readName name) :: taken
  return taken

end RankedRules

open RankedRules

/-- Runs the command and prints what it says. -/
def main (arguments : List String) : IO UInt32 := do
  let taken ← snapshot arguments (← snapshot arguments [])
  let output := Command.runArguments (Files.ofSnapshot taken) arguments
  (← IO.getStdout).putStr output.out
  (← IO.getStderr).putStr output.err
  return output.code.toUInt32
