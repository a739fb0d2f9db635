import Sugod.Command
import Std.Time.DateTime.Timestamp

/-!
# The command line

Reads the arguments, the named file and the standard input, and writes what the command reports.
The clock is read once, when the command starts.
-/

set_option autoImplicit false

namespace Sugod.Main

/-- A number of steps that no run takes in a lifetime. -/
def steps : Nat :=
  Nat.pow 2 62

/-- The seconds since the epoch. -/
def now : IO Float := do
  let t ← Std.Time.Timestamp.now
  pure (Float.ofInt t.toNanosecondsSinceUnixEpoch.val / 1000000000)

/-- Why a file could not be read. -/
def readFailure : IO.Error → ReadFailure
  | .noFileOrDirectory _ _ _ => .notFound
  | .inappropriateType _ 21 _ => .isDirectory
  | .permissionDenied _ _ _ => .denied
  | e => .other (toString e)

/-- Reads the file with a name. -/
def readFile (name : String) : IO (Except ReadFailure ByteArray) := do
  try
    let bytes ← IO.FS.readBinFile name
    pure (.ok bytes)
  catch e => pure (.error (readFailure e))

/-- Answers a request. -/
def answer (request : Command.Request) : IO Report := do
  let clock ← now
  let readings := fun _ => clock
  let result ←
    match request with
    | .usage => pure (some Command.usage)
    | .file name => do
      let contents ← readFile name
      let stdin ← (← IO.getStdin).readBinToEnd
      pure (Command.runFile steps readings name contents stdin)
    | .piped => do
      let stdin ← (← IO.getStdin).readBinToEnd
      pure (Command.runPiped steps readings stdin)
  match result with
  | some report => pure report
  | none => throw (IO.userError "out of steps")

end Sugod.Main

/-- Runs the command. -/
def main (args : List String) : IO UInt32 := do
  let report ← Sugod.Main.answer (Sugod.Command.Request.ofArgs args)
  IO.print report.stdout
  IO.eprint report.stderr
  pure report.exitCode.toUInt32
