import LoopLang.Decimal
import LoopLang.Expr

set_option autoImplicit false

/-! # Prefix text of trees

Trees are shown in prefix form: numbers and names stand for themselves, and every other node is a
parenthesised list that begins with its operator or with a word for its sort. Items of a list are
one blank apart, so an empty list still leaves the blank in front of it. -/

namespace LoopLang

mutual

/-- The prefix text of an expression. -/
def Expr.text : Expr → String
  | .integer _ n => Decimal.text n
  | .var _ name => name
  | .call _ name args => "(call " ++ name ++ " " ++ " ".intercalate (Expr.texts args) ++ ")"
  | .cond _ test thenBranch elseBranch =>
    "(if " ++ test.text ++ " " ++ thenBranch.text ++ " " ++ elseBranch.text ++ ")"
  | .unary _ op operand => "(" ++ op.text ++ " " ++ operand.text ++ ")"
  | .binary _ op lhs rhs => "(" ++ op.text ++ " " ++ lhs.text ++ " " ++ rhs.text ++ ")"
  | .letIn _ bindings body =>
    "(let (" ++ " ".intercalate (Binding.texts bindings) ++ ") " ++ body.text ++ ")"
  | .loop _ bindings body =>
    "(loop (" ++ " ".intercalate (Binding.texts bindings) ++ ") " ++ body.text ++ ")"
  | .recur _ args => "(recur " ++ " ".intercalate (Expr.texts args) ++ ")"

/-- The prefix texts of the expressions of a list. -/
def Expr.texts : List Expr → List String
  | [] => []
  | e :: es => e.text :: Expr.texts es

/-- The prefix texts of the bindings of a list: a name and an expression in parentheses. -/
def Binding.texts : List Binding → List String
  | [] => []
  | ⟨ident, value⟩ :: bs => ("(" ++ ident.name ++ " " ++ value.text ++ ")") :: Binding.texts bs

end

/-- The prefix text of a function. -/
def Function.text (f : Function) : String :=
  "(fun " ++ f.name ++ " (" ++ " ".intercalate (f.params.map Ident.name) ++ ") "
    ++ f.body.text ++ ")"

end LoopLang
