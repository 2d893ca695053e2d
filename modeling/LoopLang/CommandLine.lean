import LoopLang.Decimal
import LoopLang.Interpretation

set_option autoImplicit false

/-! # The command line

The command takes the name of a source file and the integers for `main`, and writes the result to
the standard output. What reads the words of the command line is a parameter: it either finds a file
and integers, or it has an answer of its own, and then no file is opened. -/

namespace LoopLang.CommandLine

/-! ## Arguments and responses -/

/-- What the command leaves behind. -/
structure Response where
  exit : Nat
  stdout : String
  stderr : String
deriving DecidableEq, Repr

/-- The name of a source file, and the integers for the parameters of `main`. -/
structure Args where
  file : String
  args : List Int64
deriving DecidableEq, Repr

/-- What reads the words of a command line. Where they are no arguments, it answers itself. -/
abbrev Reader := List String → Except Response Args

/-! ## Runs -/

/-- The response to a source text; none if the run needs more fuel. -/
def respondToSource (fuel : Nat) (source : String) (args : List Int64) : Option Response :=
  match interpret fuel source args with
  | .ok v => some ⟨0, Decimal.text v ++ "\n", ""⟩
  | .error (.error failure) => some ⟨1, "", failure.message ++ "\n"⟩
  | .error .brokenStack => none
  | .error .outOfFuel => none

/-- The response to a file that cannot be read. -/
def unreadable (file reason : String) : Response :=
  ⟨1, "", "Error: failed to open " ++ file ++ "\n\nCaused by:\n    " ++ reason ++ "\n"⟩

/-- The response to a command line that this reader reads, if files have these contents or cannot be
read for these reasons; none if the run needs more fuel. -/
def respond (read : Reader) (fuel : Nat) (contents : String → Except String ByteArray)
    (words : List String) : Option Response :=
  match read words with
  | .error response => some response
  | .ok ⟨file, args⟩ =>
    match contents file with
    | .error reason => some (unreadable file reason)
    | .ok bytes =>
      match String.fromUTF8? bytes with
      | none => some (unreadable file "stream did not contain valid UTF-8")
      | some source => respondToSource fuel source args

end LoopLang.CommandLine
