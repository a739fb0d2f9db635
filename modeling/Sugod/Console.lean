/-!
# The console

What a program reads from and writes to: a queue of input lines, the texts written so far, and the
readings of a clock. A console can refuse to work: every read may fail, a line may be unreadable,
and only a number of writes may succeed. A write that fails adds nothing.
-/

set_option autoImplicit false

namespace Sugod

/-- Why the console did not work. -/
inductive ConsoleFailure where
  | write
  | read
  | notText
  deriving DecidableEq

/-- The wording of a console failure. -/
def ConsoleFailure.message : ConsoleFailure → String
  | write => "write failed"
  | read => "read failed"
  | notText => "stream did not contain valid UTF-8"

/-- The state of a console.

* `input` is the queue of lines, each a text or the reason why it cannot be read;
* `readsFail` says that every read fails, whatever is queued;
* `writes` are the texts written so far, the latest first;
* `writesLeft` is the number of writes that still succeed, if it is limited;
* `readings` are the values of the clock and `ticks` is how many have been taken. -/
structure Console where
  input : List (Except ConsoleFailure String) := []
  readsFail : Bool := false
  writes : List String := []
  writesLeft : Option Nat := none
  readings : Nat → Float := fun _ => 0
  ticks : Nat := 0

namespace Console

/-- Takes the next input line; there is none at the end of the input. -/
def read (c : Console) : Except ConsoleFailure (Option String) × Console :=
  if c.readsFail then (.error .read, c)
  else
    match c.input with
    | [] => (.ok none, c)
    | .ok line :: rest => (.ok (some line), { c with input := rest })
    | .error e :: rest => (.error e, { c with input := rest })

/-- Writes a text. -/
def write (text : String) (c : Console) : Except ConsoleFailure Unit × Console :=
  match c.writesLeft with
  | none => (.ok (), { c with writes := text :: c.writes })
  | some 0 => (.error .write, c)
  | some (n + 1) => (.ok (), { c with writes := text :: c.writes, writesLeft := some n })

/-- Takes a reading of the clock. -/
def tick (c : Console) : Float × Console :=
  (c.readings c.ticks, { c with ticks := c.ticks + 1 })

/-- Queues a line behind the others. -/
def queue (line : String) (c : Console) : Console :=
  { c with input := c.input ++ [.ok line] }

/-- All that has been written. -/
def output (c : Console) : String :=
  String.join c.writes.reverse

/-- The console with nothing written yet. -/
def clear (c : Console) : Console :=
  { c with writes := [] }

end Console

end Sugod
