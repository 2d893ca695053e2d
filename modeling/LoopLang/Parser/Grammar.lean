import LoopLang.Decimal
import LoopLang.Parser.Basic

set_option autoImplicit false

/-! # The grammar

    program    = function+
    function   = "let" identifier identifier+ "=" expression "end"
    expression = primary (operator primary)*
    primary    = integer | identifier | identifier arguments
               | ("!" | "-") primary
               | "(" expression ")"
               | "if" expression "then" expression "else" expression "end"
               | ("let" | "loop") bindings "in" expression "end"
               | "recur" arguments
    arguments  = ("(" expression ")")+
    bindings   = identifier "=" expression ("and" identifier "=" expression)*

One production for each rule. Operators associate to the left, and `operation` climbs their
precedences: it goes on as long as operators bind tighter than a threshold, and takes the right
operand of each with the operator's own precedence as the threshold. Every choice is made by the
current token alone. A production that recurs or repeats does so only behind a token it has taken;
the steps it is given bound how often. -/

namespace LoopLang.Parser

/-! ## Names -/

/-- An identifier. -/
def identifier : Production Ident := do
  match ← acceptKind .identifier with
  | some token => return ⟨token, token.literal⟩
  | none => giveUp .expectedIdentifier

/-- Identifiers, as many as there are. -/
def identifiers : Nat → Production (List Ident)
  | 0 => outOfSteps
  | n + 1 => do
    if ← looksAt .identifier then
      let first ← identifier
      let others ← identifiers n
      return first :: others
    else
      return []

/-! ## Lists of expressions and bindings -/

/-- Arguments: expressions, each in parentheses of its own. -/
def arguments (expression : Production Expr) : Nat → Production (List Expr)
  | 0 => outOfSteps
  | n + 1 => do
    let _ ← require (.symbol .leftParen)
    let first ← expression
    let _ ← require (.symbol .rightParen)
    if ← looksAt (.symbol .leftParen) then
      let others ← arguments expression n
      return first :: others
    else
      return [first]

/-- Bindings: names with the expressions of their values. -/
def bindings (expression : Production Expr) : Nat → Production (List Binding)
  | 0 => outOfSteps
  | n + 1 => do
    let ident ← identifier
    let _ ← require (.symbol .assign)
    let value ← expression
    match ← acceptKind (.keyword .andKw) with
    | some _ =>
      let others ← bindings expression n
      return ⟨ident, value⟩ :: others
    | none => return [⟨ident, value⟩]

/-! ## Operators -/

/-- The operator that a token stands for, if it binds tighter than the threshold. -/
def operatorAbove (threshold : Nat) (kind : TokenKind) : Option BinaryOp :=
  (BinaryOp.ofTokenKind? kind).filter fun op => threshold < op.precedence

/-- Goes on behind a left operand with operators that bind tighter than the threshold. -/
def climb (primary : Production Expr) : Nat → Nat → Expr → Production Expr
  | 0, _, _ => outOfSteps
  | n + 1, threshold, lhs => do
    match ← accept (operatorAbove threshold) with
    | none => return lhs
    | some (token, op) =>
      let operand ← primary
      let rhs ← climb primary n op.precedence operand
      climb primary n threshold (.binary token op lhs rhs)

/-- Primaries joined by operators that bind tighter than the threshold. -/
def operation (primary : Production Expr) (n threshold : Nat) : Production Expr := do
  let first ← primary
  climb primary n threshold first

/-! ## Primaries -/

/-- What a primary expression can begin with. -/
inductive Head where
  | integer
  | name
  | unary (op : UnaryOp)
  | group
  | cond
  | letIn
  | loop
  | recur
deriving DecidableEq, Repr

/-- The primary expression that a token begins, if any. -/
def Head.ofTokenKind? : TokenKind → Option Head
  | .integer => some integer
  | .identifier => some name
  | .symbol .leftParen => some group
  | .keyword .ifKw => some cond
  | .keyword .letKw => some letIn
  | .keyword .loopKw => some loop
  | .keyword .recurKw => some recur
  | kind => (UnaryOp.ofTokenKind? kind).map unary

/-- The value of an integer literal, which has to be in range. -/
def integerLiteral (token : Token) : Production Expr :=
  match Decimal.read? token.literal with
  | some value => return .integer token value
  | none => throw (.failed ⟨token.pos, .literalOutOfRange token.literal⟩)

/-- A call if arguments follow the name, and otherwise a variable. -/
def nameOrCall (expression : Production Expr) (n : Nat) (token : Token) : Production Expr := do
  if ← looksAt (.symbol .leftParen) then
    let args ← arguments expression n
    return .call token token.literal args
  else
    return .var token token.literal

/-- The rest of an expression in parentheses, which leave no node of their own. -/
def group (expression : Production Expr) : Production Expr := do
  let inner ← expression
  let _ ← require (.symbol .rightParen)
  return inner

/-- The rest of a conditional. -/
def conditional (expression : Production Expr) (token : Token) : Production Expr := do
  let test ← expression
  let _ ← require (.keyword .thenKw)
  let thenBranch ← expression
  let _ ← require (.keyword .elseKw)
  let elseBranch ← expression
  let _ ← require (.keyword .endKw)
  return .cond token test thenBranch elseBranch

/-- The rest of a `let` or `loop`, whose node is made by `node`. -/
def bindingForm (expression : Production Expr) (n : Nat) (node : List Binding → Expr → Expr) :
    Production Expr := do
  let names ← bindings expression n
  let _ ← require (.keyword .inKw)
  let body ← expression
  let _ ← require (.keyword .endKw)
  return node names body

/-- A primary expression. -/
def primary : Nat → Production Expr
  | 0 => outOfSteps
  | n + 1 => do
    let expression := operation (primary n) n 0
    match ← accept Head.ofTokenKind? with
    | none => giveUp .expectedExpression
    | some (token, .integer) => integerLiteral token
    | some (token, .name) => nameOrCall expression n token
    | some (token, .unary op) =>
      let operand ← primary n
      return .unary token op operand
    | some (_, .group) => group expression
    | some (token, .cond) => conditional expression token
    | some (token, .letIn) => bindingForm expression n (.letIn token)
    | some (token, .loop) => bindingForm expression n (.loop token)
    | some (token, .recur) =>
      let args ← arguments expression n
      return .recur token args

/-- An expression. -/
def expression (n : Nat) : Production Expr :=
  operation (primary n) n 0

/-- An expression with nothing behind it. -/
def wholeExpression (n : Nat) : Production Expr := do
  let e ← expression n
  let _ ← require .eof
  return e

/-! ## Functions -/

/-- The rest of a function, behind its `let`. -/
def signatureAndBody (n : Nat) (token : Token) : Production Function := do
  let ident ← identifier
  let first ← identifier
  let others ← identifiers n
  let _ ← require (.symbol .assign)
  let body ← expression n
  let _ ← require (.keyword .endKw)
  return ⟨token, ident, first :: others, body⟩

/-- A function. -/
def function (n : Nat) : Production Function := do
  let token ← require (.keyword .letKw)
  signatureAndBody n token

/-- A function if there is one; otherwise its diagnostic is noted, and the parser moves on to where
the next function most likely begins. -/
def functionOrSkip (n : Nat) : Production (Option Function) := fun p =>
  match function n p with
  | .ok f q => .ok (some f) q
  | .error (.failed d) q => .ok none (q.note d).recover
  | .error .outOfSteps q => .error .outOfSteps q

/-- All functions up to the end of the text. -/
def functions (n : Nat) : Nat → Production (List Function)
  | 0 => outOfSteps
  | rounds + 1 => do
    let found ← functionOrSkip n
    if ← looksAt .eof then
      return found.toList
    else
      let others ← functions n rounds
      return found.toList ++ others

end LoopLang.Parser
