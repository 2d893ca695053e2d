import LoopLang.Position

set_option autoImplicit false

/-! # Errors of a run

What can be wrong with a program that parses. Three errors concern the set-up of a program and are
found before anything is evaluated: two functions of one name, no `main`, and a wrong number of
arguments for `main`. The others point at the node that is to blame. -/

namespace LoopLang

/-- The places from which a pending `recur` cannot travel on to its loop. -/
inductive RecurSite where
  | argument | unary | binary | condition | binding
deriving DecidableEq, Repr

/-- Why `recur` is refused at a place. -/
def RecurSite.reason : RecurSite → String
  | argument => "recur may not appear inside an argument"
  | unary => "recur may not be used with a unary operator"
  | binary => "recur may not be used with a binary operator"
  | condition => "recur may not appear as a condition"
  | binding => "recur may not appear in a binding"

/-- Why a run fails. -/
inductive RuntimeError where
  /-- A variable that no binding in scope introduces. -/
  | unboundVariable (name : String) (pos : Position)
  /-- A call of a function that the program does not have. -/
  | undefinedFunction (name : String) (pos : Position)
  /-- A function whose name an earlier one has. -/
  | duplicateFunction (name : String) (pos : Position)
  /-- No function is called `main`. -/
  | noMain
  /-- The program is given another number of arguments than `main` has parameters. -/
  | mainArity (expected got : Nat)
  /-- A call passes another number of arguments than the function has parameters. -/
  | callArity (name : String) (expected got : Nat) (pos : Position)
  /-- A `recur` passes another number of arguments than its loop has bindings. -/
  | recurArity (expected got : Nat) (pos : Position)
  /-- A `recur` from which a value is needed on the spot. -/
  | recurIn (site : RecurSite) (pos : Position)
  /-- A `recur` that reaches the end of a function without meeting a loop. -/
  | escapedRecur (name : String) (pos : Position)
deriving DecidableEq, Repr

/-- The line that tells an error. -/
def RuntimeError.message : RuntimeError → String
  | unboundVariable name pos => pos.text ++ ": variable '" ++ name ++ "' not defined"
  | undefinedFunction name pos => pos.text ++ ": function '" ++ name ++ "' not defined"
  | duplicateFunction name pos =>
    pos.text ++ ": function '" ++ name ++ "' defined more than once"
  | noMain => "no 'main' function defined"
  | mainArity expected got =>
    "main expects " ++ expected.repr ++ " argument(s), got " ++ got.repr
  | callArity name expected got pos =>
    pos.text ++ ": function '" ++ name ++ "' expects " ++ expected.repr ++ " argument(s), got "
      ++ got.repr
  | recurArity expected got pos =>
    pos.text ++ ": recur has wrong amount of arguments: loop binds " ++ expected.repr
      ++ ", recur passes " ++ got.repr
  | recurIn site pos => pos.text ++ ": " ++ site.reason
  | escapedRecur name pos =>
    pos.text ++ ": recur appeared after function ended (in '" ++ name ++ "')"

end LoopLang
