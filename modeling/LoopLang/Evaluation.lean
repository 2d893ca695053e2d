import LoopLang.RuntimeError
import LoopLang.Stack

set_option autoImplicit false

/-! # Evaluation

Arithmetic is that of 64-bit words and wraps around; zero is false, every other number is true, and
tests give one or zero. Operands, arguments and bindings are evaluated from left to right, each
exactly once, also those of `&&` and `||`. An expression ends with a value, or with a pending
`recur` on its way to the nearest loop, which only the branches of a conditional and the bodies of
`let`s let through.

A run may go on for ever, so it is given fuel: at most so many nested evaluations, and at most so
many rounds of each loop. Running out of fuel is an outcome of its own, apart from every error of
the program. So is a stack that does not hold what is to be popped or replaced. -/

namespace LoopLang

/-! ## Outcomes -/

/-- Why a run stops without a value. -/
inductive Halt (ε : Type) where
  /-- Something is wrong with the program or its arguments. -/
  | error (e : ε)
  /-- The stack does not hold the bindings that are to be popped or replaced. -/
  | brokenStack
  /-- The run needs more fuel. -/
  | outOfFuel
deriving DecidableEq, Repr

/-- What an expression ends with. -/
inductive Ending where
  | value (v : Int64)
  /-- The values of a `recur` at `pos`, on their way to the nearest loop. -/
  | pending (values : List Int64) (pos : Position)
deriving DecidableEq, Repr

/-- Steps of a run, which work on the stack. A run that stops leaves the stack as it stands then. -/
abbrev Run := EStateM (Halt RuntimeError) Stack

/-! ## Operators -/

/-- One if a test holds, and otherwise zero. -/
def truth (b : Bool) : Int64 := if b then 1 else 0

/-- The result of an operator on one value. -/
def UnaryOp.apply : UnaryOp → Int64 → Int64
  | not, v => truth (v == 0)
  | neg, v => -v

/-- The result of an operator on two values. -/
def BinaryOp.apply : BinaryOp → Int64 → Int64 → Int64
  | and, l, r => truth (l != 0 && r != 0)
  | or, l, r => truth (l != 0 || r != 0)
  | less, l, r => truth (l < r)
  | equal, l, r => truth (l == r)
  | add, l, r => l + r
  | mul, l, r => l * r

/-! ## Steps on the stack -/

namespace Run

variable {α : Type}

/-- The run fails. -/
def fail (e : RuntimeError) : Run α := throw (.error e)

/-- Reads a variable. -/
def fetch (name : String) (pos : Position) : Run Int64 := do
  match (← get).get? name with
  | some v => return v
  | none => fail (.unboundVariable name pos)

/-- Enters a binding. -/
def push (name : String) (value : Int64) : Run Unit := do
  set ((← get).push name value)

/-- Leaves a scope of `count` bindings. -/
def pop (count : Nat) : Run Unit := do
  match (← get).pop? count with
  | some s => set s
  | none => throw .brokenStack

/-- Takes a step and then leaves a scope of `count` bindings, also if the step fails. -/
def thenPop (x : Run α) (count : Nat) : Run α := fun s =>
  match x s with
  | .ok a t => (do pop count; return a : Run α) t
  | .error (.error e) t => (do pop count; fail e : Run α) t
  | .error halt t => .error halt t

/-- Gives new values to the bindings of a loop. -/
def rebind (base : Nat) (names : List String) (values : List Int64) : Run Unit := do
  match (← get).rebind? base names values with
  | some s => set s
  | none => throw .brokenStack

/-! ## Parts of expressions

Each is given the evaluation `ev` of its sub-expressions. -/

/-- Evaluates an expression where a value is needed on the spot. -/
def value (ev : Expr → Run Ending) (site : RecurSite) (e : Expr) : Run Int64 := do
  match ← ev e with
  | .value v => return v
  | .pending _ pos => fail (.recurIn site pos)

/-- Evaluates arguments in order. -/
def args (ev : Expr → Run Ending) : List Expr → Run (List Int64)
  | [] => return []
  | e :: es => do
    let v ← value ev .argument e
    let vs ← args ev es
    return v :: vs

/-- Evaluates bindings in order and enters each, so that the later ones see it. -/
def bindings (ev : Expr → Run Ending) : List Binding → Run Unit
  | [] => return ()
  | b :: bs => do
    let v ← value ev .binding b.value
    push b.name v
    bindings ev bs

/-- Runs the body of a loop until it ends with a value, for at most so many rounds. The bindings of
the loop are called `names` and lie on the stack above the height `base`. -/
def rounds (ev : Expr → Run Ending) (base : Nat) (names : List String) (body : Expr) :
    Nat → Run Int64
  | 0 => throw .outOfFuel
  | n + 1 => do
    match ← ev body with
    | .value v => return v
    | .pending values pos =>
      if values.length = names.length then
        rebind base names values
        rounds ev base names body n
      else
        fail (.recurArity names.length values.length pos)

/-- Runs the body of a function on a stack of its own, which holds just the parameters. -/
def enter (ev : Expr → Run Ending) (f : Function) (values : List Int64) :
    Except (Halt RuntimeError) Int64 :=
  match ev f.body (.ofArgs f.params values) with
  | .ok (.value v) _ => return v
  | .ok (.pending _ pos) _ => throw (.error (.escapedRecur f.name pos))
  | .error halt _ => throw halt

end Run

/-! ## Programs -/

namespace Program

/-- The function of this name. -/
def lookup? (p : Program) (name : String) : Option Function :=
  p.functions.find? fun f => f.name == name

/-- The first function whose name one of the `earlier` names or a function before it has. -/
def firstDuplicate? (earlier : List String) : List Function → Option Function
  | [] => none
  | f :: fs => if f.name ∈ earlier then some f else firstDuplicate? (f.name :: earlier) fs

/-- The first function whose name an earlier one has. -/
def duplicate? (p : Program) : Option Function :=
  firstDuplicate? [] p.functions

/-- Calls the function of this name. It has to exist, and to take as many arguments. -/
def call (p : Program) (ev : Expr → Run Ending) (name : String) (pos : Position)
    (values : List Int64) : Except (Halt RuntimeError) Int64 :=
  match p.lookup? name with
  | none => throw (.error (.undefinedFunction name pos))
  | some f =>
    if values.length = f.params.length then
      Run.enter ev f values
    else
      throw (.error (.callArity name f.params.length values.length pos))

/-- Evaluates an expression of a program. -/
def eval (p : Program) : Nat → Expr → Run Ending
  | 0, _ => throw .outOfFuel
  | fuel + 1, e => do
    let ev := p.eval fuel
    match e with
    | .integer _ n => return .value n
    | .var token name => return .value (← Run.fetch name token.pos)
    | .call token name args =>
      let values ← Run.args ev args
      return .value (← ofExcept (p.call ev name token.pos values))
    | .cond _ test thenBranch elseBranch =>
      let t ← Run.value ev .condition test
      if t = 0 then ev elseBranch else ev thenBranch
    | .unary _ op operand =>
      let v ← Run.value ev .unary operand
      return .value (op.apply v)
    | .binary _ op lhs rhs =>
      let l ← Run.value ev .binary lhs
      let r ← Run.value ev .binary rhs
      return .value (op.apply l r)
    | .letIn _ bindings body =>
      Run.bindings ev bindings
      Run.thenPop (ev body) bindings.length
    | .loop _ bindings body =>
      let base := (← get).length
      Run.bindings ev bindings
      let v ← Run.rounds ev base (bindings.map Binding.name) body fuel
      Run.pop bindings.length
      return .value v
    | .recur token args =>
      let values ← Run.args ev args
      return .pending values token.pos

/-- Runs a program: calls `main` with the arguments, if no two functions share a name, there is a
`main`, and it takes as many arguments. -/
def evaluate (p : Program) (fuel : Nat) (args : List Int64) : Except (Halt RuntimeError) Int64 :=
  match p.duplicate? with
  | some f => throw (.error (.duplicateFunction f.name f.token.pos))
  | none =>
    match p.lookup? "main" with
    | none => throw (.error .noMain)
    | some main =>
      if args.length = main.params.length then
        Run.enter (p.eval fuel) main args
      else
        throw (.error (.mainArity main.params.length args.length))

end Program

end LoopLang
