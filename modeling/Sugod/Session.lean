import Sugod.Eval
import Sugod.Token.Scan
import Sugod.Grammar.Program

/-!
# Sessions

A session keeps the variables and the console from one program to the next. Running a source scans
it, parses it and executes it; an error of scanning or parsing keeps it from being executed at all.
A program that ends without having displayed anything is acknowledged by a line of its own.

Executing is given a number of steps. The result is `none` if they did not suffice.
-/

set_option autoImplicit false

namespace Sugod

/-- Why a source did not run to its end. -/
inductive RunError where
  | scan (errors : List ScanError)
  | parse (e : ParseError)
  | fault (f : Fault)
  deriving DecidableEq

/-- How a run ended, as seen from outside. -/
inductive Outcome where
  | success
  | syntaxError
  | runtimeError
  deriving DecidableEq

/-- The exit code of an outcome. -/
def Outcome.exitCode : Outcome → Nat
  | success => 0
  | syntaxError => 65
  | runtimeError => 70

namespace RunError

/-- The report of an error; errors of scanning stand on a line each. -/
def message : RunError → String
  | scan errors => "\n".intercalate (errors.map ScanError.message)
  | parse e => e.message
  | fault f => f.message

/-- The outcome of a run that ended with an error. -/
def outcome : RunError → Outcome
  | scan _ => .syntaxError
  | parse _ => .syntaxError
  | fault _ => .runtimeError

end RunError

/-- The outcome of a run. -/
def Outcome.ofResult : Except RunError Unit → Outcome
  | .ok () => .success
  | .error e => e.outcome

/-- The variables and the console of a session. -/
structure Session where
  env : Env
  console : Console

/-- A fault, or a return outside of any function, which is one. -/
def Interrupt.toFault : Interrupt → Fault
  | .fault f => f
  | .returned _ line => ⟨.unexpectedReturn, line⟩

/-- The text that acknowledges a program that displayed nothing. -/
def acknowledgement : String :=
  "No Error.\n"

namespace Session

/-- An environment in which the built-in functions are defined. -/
def initialEnv : Env :=
  Builtin.all.foldl (fun env b => env.defineGlobal b.name (.builtin b)) {}

/-- A new session on a console. -/
def start (console : Console) : Session :=
  ⟨initialEnv, console⟩

/-- The state in which a program starts. -/
def state (s : Session) : State :=
  ⟨s.env, s.console, 0, false⟩

/-- The session after a program. -/
def ofState (st : State) : Session :=
  ⟨st.env, st.console⟩

/-- Writes the acknowledgement if nothing was displayed. -/
def acknowledge (st : State) : Except Fault Unit × Session :=
  if st.displayed then (.ok (), ofState st)
  else
    match st.console.write acknowledgement with
    | (.ok (), console) => (.ok (), ⟨st.env, console⟩)
    | (.error e, console) => (.error ⟨.console e, 0⟩, ⟨st.env, console⟩)

/-- Executes a program. -/
def interpret (steps : Nat) (program : Program) (s : Session) :
    Option (Except Fault Unit × Session) :=
  match Eval.stmts steps program s.state with
  | .done () st => some (acknowledge st)
  | .stop i st => some (.error i.toFault, ofState st)
  | .spent => none

/-- Scans and parses a source. -/
def read (source : String) : Except RunError Program :=
  let scan := Scan.ofSource source
  if scan.errors.isEmpty then
    match Grammar.parse scan.tokens with
    | .ok program => .ok program
    | .error e => .error (.parse e)
  else .error (.scan scan.errors)

/-- Runs a source. -/
def run (steps : Nat) (source : String) (s : Session) : Option (Except RunError Unit × Session) :=
  match read source with
  | .error e => some (.error e, s)
  | .ok program =>
    match s.interpret steps program with
    | none => none
    | some (.ok (), s') => some (.ok (), s')
    | some (.error f, s') => some (.error (.fault f), s')

end Session

end Sugod
