import LoopLang.Token

set_option autoImplicit false

/-! # Syntax trees

A program is a list of functions, and the body of a function is one expression. Every node keeps
the token it begins with, or its operator's token; evaluation looks at names, numbers and token
places only, so that trees built by hand may hold any tokens. -/

namespace LoopLang

/-! ## Operators -/

/-- The operators with one operand. -/
inductive UnaryOp where
  | not | neg
deriving DecidableEq, Repr

namespace UnaryOp

/-- The operator that a token stands for in front of an operand. -/
def ofTokenKind? : TokenKind → Option UnaryOp
  | .symbol .bang => some not
  | .symbol .minus => some neg
  | _ => none

/-- How an operator is written. -/
def text : UnaryOp → String
  | not => "!"
  | neg => "-"

end UnaryOp

/-- The operators with two operands. -/
inductive BinaryOp where
  | and | or | less | equal | add | mul
deriving DecidableEq, Repr

namespace BinaryOp

/-- The operator that a token stands for between two operands. -/
def ofTokenKind? : TokenKind → Option BinaryOp
  | .symbol .andAnd => some and
  | .symbol .orOr => some or
  | .symbol .less => some less
  | .symbol .equalEqual => some equal
  | .symbol .plus => some add
  | .symbol .star => some mul
  | _ => none

/-- How tightly an operator binds its operands; a larger number binds tighter, and zero is looser
than every operator. -/
def precedence : BinaryOp → Nat
  | and | or => 1
  | less | equal => 2
  | add => 3
  | mul => 4

/-- How an operator is written. -/
def text : BinaryOp → String
  | and => "&&"
  | or => "||"
  | less => "<"
  | equal => "=="
  | add => "+"
  | mul => "*"

theorem precedence_pos (op : BinaryOp) : 0 < op.precedence := by
  cases op <;> decide

end BinaryOp

/-! ## Trees -/

/-- A name at the place where it is introduced. -/
structure Ident where
  token : Token
  name : String
deriving DecidableEq, Repr

mutual

/-- Expressions. The names introduced by `letIn` and `loop` are seen by the later bindings and by
the body; `recur` starts the nearest loop again with new values for its names. -/
inductive Expr where
  | integer (token : Token) (value : Int64)
  | var (token : Token) (name : String)
  | call (token : Token) (name : String) (args : List Expr)
  | cond (token : Token) (test thenBranch elseBranch : Expr)
  | unary (token : Token) (op : UnaryOp) (operand : Expr)
  | binary (token : Token) (op : BinaryOp) (lhs rhs : Expr)
  | letIn (token : Token) (bindings : List Binding) (body : Expr)
  | loop (token : Token) (bindings : List Binding) (body : Expr)
  | recur (token : Token) (args : List Expr)

/-- A name and the expression that gives its value. -/
structure Binding where
  ident : Ident
  value : Expr

end

namespace Expr

/-- The token kept at the root of an expression. -/
def token : Expr → Token
  | integer t _ | var t _ | call t _ _ | cond t _ _ _ | unary t _ _ | binary t _ _ _
  | letIn t _ _ | loop t _ _ | recur t _ => t

end Expr

/-- The name that a binding introduces. -/
def Binding.name (b : Binding) : String := b.ident.name

/-- A named function of some parameters. -/
structure Function where
  token : Token
  ident : Ident
  params : List Ident
  body : Expr

/-- The name of a function. -/
def Function.name (f : Function) : String := f.ident.name

/-- A program, its functions in the order of their definitions. -/
structure Program where
  functions : List Function

end LoopLang
