import Sugod.Session
import Sugod.Piped

/-!
# The command

What the command does, as a function of its arguments, the named file and the standard input. With
a file name it runs that file and the program reads the standard input line by line. Without one,
the standard input holds the program and its input. Reports go to the error stream.
-/

set_option autoImplicit false

namespace Sugod

/-- Why a file or a stream could not be read. -/
inductive ReadFailure where
  | notFound
  | isDirectory
  | denied
  | notText
  | other (text : String)

/-- The wording of a failure to read. -/
def ReadFailure.message : ReadFailure → String
  | notFound => "No such file or directory (os error 2)"
  | isDirectory => "Is a directory (os error 21)"
  | denied => "Permission denied (os error 13)"
  | notText => ConsoleFailure.notText.message
  | other text => text

/-- What the command writes to its two output streams, and its exit code. -/
structure Report where
  stdout : String
  stderr : String
  exitCode : Nat

namespace Command

/-- What the arguments ask for. -/
inductive Request where
  | usage
  | file (name : String)
  | piped

/-- Reads the arguments: at most one, the name of a file. -/
def Request.ofArgs : List String → Request
  | [] => .piped
  | [name] => .file name
  | _ => .usage

/-- How to use the command. -/
def usageText : String :=
  "usage: bisaya [file]\n" ++
  "Piped without a file, the lines after KATAPUSAN are read by DAWAT.\n"

/-- The answer to wrong arguments. -/
def usage : Report :=
  ⟨"", usageText, 64⟩

/-- The answer when a file or a stream could not be read. -/
def unreadable (name : String) (failure : ReadFailure) : Report :=
  ⟨"", "error: could not read " ++ name ++ ": " ++ failure.message ++ "\n",
    Outcome.runtimeError.exitCode⟩

/-- The text that bytes encode. -/
def decode (bytes : ByteArray) : Except ReadFailure String :=
  match String.fromUTF8? bytes with
  | some text => .ok text
  | none => .error .notText

/-- One line of a stream without the line end; it has to be text. -/
def decodeLine (bytes : List UInt8) : Except ConsoleFailure String :=
  match String.fromUTF8? ⟨bytes.toArray⟩ with
  | some text => .ok (String.ofList (Text.dropEnd Text.isLineEnd text.toList))
  | none => .error .notText

/-- The lines of a stream. -/
def streamLines (bytes : ByteArray) : List (Except ConsoleFailure String) :=
  Text.linesOfRows decodeLine decodeLine (Text.split 10 bytes.data.toList)

/-- The report on a finished run. -/
def report (result : Except RunError Unit × Session) : Report :=
  { stdout := result.2.console.output
    stderr :=
      match result.1 with
      | .ok () => ""
      | .error e => e.message ++ "\n"
    exitCode := (Outcome.ofResult result.1).exitCode }

/-- Runs a program whose input lines are given. -/
def runWith (steps : Nat) (clock : Nat → Float) (program : String)
    (input : List (Except ConsoleFailure String)) : Option Report :=
  ((Session.start { input := input, readings := clock }).run steps program).map report

/-- Runs a file; the program reads the standard input. -/
def runFile (steps : Nat) (clock : Nat → Float) (name : String)
    (contents : Except ReadFailure ByteArray) (stdin : ByteArray) : Option Report :=
  match contents >>= decode with
  | .error failure => some (unreadable name failure)
  | .ok program => runWith steps clock program (streamLines stdin)

/-- Runs the program that the standard input holds on the input behind it. -/
def runPiped (steps : Nat) (clock : Nat → Float) (stdin : ByteArray) : Option Report :=
  match decode stdin with
  | .error failure => some (unreadable "stdin" failure)
  | .ok source =>
    let piped := Piped.ofSource source.toList
    runWith steps clock (String.ofList piped.program)
      (piped.input.map fun line => .ok (String.ofList line))

end Command

end Sugod
