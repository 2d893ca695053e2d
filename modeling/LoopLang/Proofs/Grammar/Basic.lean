import LoopLang.Decimal
import LoopLang.Expr

set_option autoImplicit false

/-! # The grammar as derivations

Which lists of tokens are expressions, functions and programs, and of which trees, by one rule for
each way to write one. Operators are layered: an expression of tier `k` joins expressions of tier
`k + 1` from the left by the operators of that tier, and tier 5 holds the primaries. Parentheses
leave no node of their own. Neither the productions of the parser nor its precedences occur here. -/

namespace LoopLang.Grammar

/-! ## Single tokens -/

/-- A run of decimal digits whose value is at most `2^63 - 1`, and that value. -/
structure Number (t : Token) (v : Int64) : Prop where
  kind : t.kind = .integer
  nonempty : t.literal.toList ≠ []
  digits : t.literal.toList.all Char.isDigit = true
  inRange : Decimal.value t.literal.toList ≤ 9223372036854775807
  value : v = Int64.ofInt (Decimal.value t.literal.toList)

/-- The name that a token introduces. -/
def ident (t : Token) : Ident := ⟨t, t.literal⟩

/-- A sign in front of an operand. -/
inductive Prefixes : TokenKind → UnaryOp → Prop where
  | not : Prefixes (.symbol .bang) .not
  | neg : Prefixes (.symbol .minus) .neg

/-- A sign between two operands, and its tier. -/
inductive Joins : Nat → TokenKind → BinaryOp → Prop where
  | and : Joins 1 (.symbol .andAnd) .and
  | or : Joins 1 (.symbol .orOr) .or
  | less : Joins 2 (.symbol .less) .less
  | equal : Joins 2 (.symbol .equalEqual) .equal
  | add : Joins 3 (.symbol .plus) .add
  | mul : Joins 4 (.symbol .star) .mul

/-! ## Expressions -/

mutual

/-- Primary expressions. -/
inductive Primary : List Token → Expr → Prop where
  | integer {t v} (number : Number t v) : Primary [t] (.integer t v)
  | var {t} (name : t.kind = .identifier) : Primary [t] (.var t t.literal)
  | call {t ts es} (name : t.kind = .identifier) (args : Arguments ts es) :
      Primary (t :: ts) (.call t t.literal es)
  | unary {t op ts e} (sign : Prefixes t.kind op) (operand : Primary ts e) :
      Primary (t :: ts) (.unary t op e)
  | group {l ts r e} (left : l.kind = .symbol .leftParen) (inner : Tier 1 ts e)
      (right : r.kind = .symbol .rightParen) : Primary (l :: (ts ++ [r])) e
  | cond {i ts t us l vs r c a b} (ifKw : i.kind = .keyword .ifKw) (test : Tier 1 ts c)
      (thenKw : t.kind = .keyword .thenKw) (thenBranch : Tier 1 us a)
      (elseKw : l.kind = .keyword .elseKw) (elseBranch : Tier 1 vs b)
      (endKw : r.kind = .keyword .endKw) :
      Primary (i :: (ts ++ t :: (us ++ l :: (vs ++ [r])))) (.cond i c a b)
  | letIn {l ts i us r bs e} (letKw : l.kind = .keyword .letKw) (bindings : Bindings ts bs)
      (inKw : i.kind = .keyword .inKw) (body : Tier 1 us e) (endKw : r.kind = .keyword .endKw) :
      Primary (l :: (ts ++ i :: (us ++ [r]))) (.letIn l bs e)
  | loop {l ts i us r bs e} (loopKw : l.kind = .keyword .loopKw) (bindings : Bindings ts bs)
      (inKw : i.kind = .keyword .inKw) (body : Tier 1 us e) (endKw : r.kind = .keyword .endKw) :
      Primary (l :: (ts ++ i :: (us ++ [r]))) (.loop l bs e)
  | recur {t ts es} (recurKw : t.kind = .keyword .recurKw) (args : Arguments ts es) :
      Primary (t :: ts) (.recur t es)

/-- Expressions whose operators are of this tier or a later one, but for those in parentheses. -/
inductive Tier : Nat → List Token → Expr → Prop where
  | primary {ts e} (operand : Primary ts e) : Tier 5 ts e
  | next {k ts e} (operand : Tier (k + 1) ts e) : Tier k ts e
  | join {k ls t rs op a b} (lhs : Tier k ls a) (sign : Joins k t.kind op)
      (rhs : Tier (k + 1) rs b) : Tier k (ls ++ t :: rs) (.binary t op a b)

/-- Arguments, each in parentheses of its own. -/
inductive Arguments : List Token → List Expr → Prop where
  | last {l ts r e} (left : l.kind = .symbol .leftParen) (arg : Tier 1 ts e)
      (right : r.kind = .symbol .rightParen) : Arguments (l :: (ts ++ [r])) [e]
  | cons {l ts r us e es} (left : l.kind = .symbol .leftParen) (arg : Tier 1 ts e)
      (right : r.kind = .symbol .rightParen) (others : Arguments us es) :
      Arguments (l :: (ts ++ r :: us)) (e :: es)

/-- Bindings, joined by `and`. -/
inductive Bindings : List Token → List Binding → Prop where
  | last {t s ts e} (name : t.kind = .identifier) (assign : s.kind = .symbol .assign)
      (value : Tier 1 ts e) : Bindings (t :: s :: ts) [⟨ident t, e⟩]
  | cons {t s ts a us e bs} (name : t.kind = .identifier) (assign : s.kind = .symbol .assign)
      (value : Tier 1 ts e) (andKw : a.kind = .keyword .andKw) (others : Bindings us bs) :
      Bindings (t :: s :: (ts ++ a :: us)) (⟨ident t, e⟩ :: bs)

end

/-- Expressions. -/
def Expression (ts : List Token) (e : Expr) : Prop := Tier 1 ts e

/-! ## Programs -/

/-- Functions: a name, one parameter or more, and a body. -/
inductive Function : List Token → LoopLang.Function → Prop where
  | mk {l t ps s ts r e} (letKw : l.kind = .keyword .letKw) (name : t.kind = .identifier)
      (params : ∀ p ∈ ps, p.kind = .identifier) (nonempty : ps ≠ [])
      (assign : s.kind = .symbol .assign) (body : Expression ts e)
      (endKw : r.kind = .keyword .endKw) :
      Function (l :: t :: (ps ++ s :: (ts ++ [r]))) ⟨l, ident t, ps.map ident, e⟩

/-- One function or more, one behind the other. -/
inductive Functions : List Token → List LoopLang.Function → Prop where
  | last {ts f} (function : Function ts f) : Functions ts [f]
  | cons {ts us f fs} (function : Function ts f) (others : Functions us fs) :
      Functions (ts ++ us) (f :: fs)

/-- Programs. -/
def Program (ts : List Token) (p : LoopLang.Program) : Prop := Functions ts p.functions

/-! ## Tiers -/

/-- A later tier is part of every earlier one. -/
theorem Tier.mono {j k : Nat} {ts : List Token} {e : Expr} (h : Tier k ts e) (le : j ≤ k) :
    Tier j ts e := by
  induction le with
  | refl => exact h
  | step _ ih => exact ih h.next

/-- Tier 5 holds the primaries: no operator is of this tier or a later one. -/
theorem Joins.lt {k : Nat} {kind : TokenKind} {op : BinaryOp} (h : Joins k kind op) : k < 5 := by
  cases h <;> decide

theorem Tier.toPrimary {k : Nat} {ts : List Token} {e : Expr} (h : Tier k ts e) (le : 5 ≤ k) :
    Primary ts e := by
  match h with
  | .primary operand => exact operand
  | .next operand => exact operand.toPrimary (Nat.le_succ_of_le le)
  | .join _ sign _ => exact absurd sign.lt (Nat.not_lt.mpr le)

end LoopLang.Grammar
