import LoopLang.Evaluation
import LoopLang.Parser

set_option autoImplicit false

/-! # From a source text to a result

A source text is parsed as a whole before anything of it is evaluated. What goes wrong is either
the report of the parse or the one error of the run. -/

namespace LoopLang

/-- A run that stops for another kind of error, but for the same reason otherwise. -/
def Halt.map {ε ε' : Type} (f : ε → ε') : Halt ε → Halt ε'
  | error e => error (f e)
  | brokenStack => brokenStack
  | outOfFuel => outOfFuel

/-- What can go wrong between a source text and its result. -/
inductive Failure where
  /-- The text does not parse; nothing of it was evaluated. -/
  | parse (diagnostics : List Diagnostic)
  /-- The program fails. -/
  | runtime (e : RuntimeError)
deriving DecidableEq, Repr

namespace Failure

/-- The text of the parse report or of the error itself. -/
def cause : Failure → String
  | parse diagnostics => Diagnostic.report diagnostics
  | runtime e => e.message

/-- The text that tells a failure. -/
def message (f : Failure) : String :=
  match f with
  | parse _ => f.cause
  | runtime _ => "runtime error: " ++ f.cause

end Failure

/-- Parses a source text and runs its `main` with the arguments. -/
def interpret (fuel : Nat) (source : String) (args : List Int64) :
    Except (Halt Failure) Int64 :=
  match Program.parse source with
  | .error diagnostics => throw (.error (.parse diagnostics))
  | .ok program => (program.evaluate fuel args).mapError (Halt.map .runtime)

end LoopLang
