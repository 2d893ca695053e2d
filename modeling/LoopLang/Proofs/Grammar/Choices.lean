import LoopLang.Proofs.Grammar.Basic
import LoopLang.Parser.Progress

set_option autoImplicit false

/-! # Choices by one token

Every choice of the parser looks at the current token only. These lemmas tell, choice by choice,
which rule of the grammar the token stands for: the value of a number, the sign and its tier, the
kind of primary expression. The two equations of `climb` go with them. -/

namespace LoopLang.Grammar

/-! ## Tokens -/

/-- The tier of a sign is its precedence. -/
theorem joins_iff {k : Nat} {kind : TokenKind} {op : BinaryOp} :
    Joins k kind op ↔ BinaryOp.ofTokenKind? kind = some op ∧ op.precedence = k := by
  constructor
  · rintro (_ | _) <;> exact ⟨rfl, rfl⟩
  · rintro ⟨found, rfl⟩
    unfold BinaryOp.ofTokenKind? at found
    split at found <;> cases found <;> constructor

theorem prefixes_iff {kind : TokenKind} {op : UnaryOp} :
    Prefixes kind op ↔ UnaryOp.ofTokenKind? kind = some op := by
  constructor
  · rintro (_ | _) <;> rfl
  · intro found
    unfold UnaryOp.ofTokenKind? at found
    split at found <;> cases found <;> constructor

/-- Numbers are the digits that are read. -/
theorem number_iff {t : Token} {v : Int64} (kind : t.kind = .integer)
    (nonempty : t.literal.toList ≠ []) (digits : t.literal.toList.all Char.isDigit = true) :
    Number t v ↔ Decimal.read? t.literal = some v := by
  have largest : Int64.maxValue.toInt = 9223372036854775807 := by decide
  -- without a sign in front, only the upper bound can fail
  rw [Decimal.read?_digits nonempty digits, largest]
  constructor
  · intro number
    have inRange := number.inRange
    rw [if_pos (by omega), number.value]
  · intro read
    split at read
    · next inRange => exact ⟨kind, nonempty, digits, by omega, by cases read; rfl⟩
    · cases read

end LoopLang.Grammar

namespace LoopLang.Parser

/-! ## Heads -/

/-- The tokens that begin a primary expression with this head. -/
def Head.Begins (kind : TokenKind) : Head → Prop
  | .integer => kind = .integer
  | .name => kind = .identifier
  | .unary op => Grammar.Prefixes kind op
  | .group => kind = .symbol .leftParen
  | .cond => kind = .keyword .ifKw
  | .letIn => kind = .keyword .letKw
  | .loop => kind = .keyword .loopKw
  | .recur => kind = .keyword .recurKw

theorem Head.begins_iff {kind : TokenKind} {head : Head} :
    head.Begins kind ↔ Head.ofTokenKind? kind = some head := by
  constructor
  · intro begins
    cases head with
    | unary op => rcases begins with _ | _ <;> rfl
    | integer | name | group | cond | letIn | loop | recur =>
      rw [show kind = _ from begins]
      rfl
  · intro found
    unfold Head.ofTokenKind? at found
    split at found
    -- the last case is that of every kind without a head of its own
    case h_8 =>
      obtain ⟨op, sign, rfl⟩ := Option.map_eq_some_iff.mp found
      exact Grammar.prefixes_iff.mpr sign
    all_goals
      cases found
      rfl

/-- What is read behind the token `t` that begins a primary expression. -/
def Head.rest (n : Nat) (t : Token) : Head → Production Expr
  | .integer => integerLiteral t
  | .name => nameOrCall (operation (primary n) n 0) n t
  | .unary op => primary n >>= fun operand => pure (.unary t op operand)
  | .group => Parser.group (operation (primary n) n 0)
  | .cond => conditional (operation (primary n) n 0) t
  | .letIn => bindingForm (operation (primary n) n 0) n (.letIn t)
  | .loop => bindingForm (operation (primary n) n 0) n (.loop t)
  | .recur => arguments (operation (primary n) n 0) n >>= fun args => pure (.recur t args)

/-- A primary expression goes on as its head tells. -/
theorem primary_of_begins {n : Nat} {p : Parser} {head : Head}
    (begins : head.Begins p.current.kind) :
    primary (n + 1) p = head.rest n p.current p.step := by
  have found := Head.begins_iff.mp begins
  rw [primary, bind_apply]
  simp only [accept, found]
  cases head <;> rfl

/-! ## Operators -/

/-- The current token is no operator that binds tighter than the threshold. -/
def StopsAt (threshold : Nat) (p : Parser) : Prop :=
  ∀ op, BinaryOp.ofTokenKind? p.current.kind = some op → op.precedence ≤ threshold

theorem StopsAt.mono {j k : Nat} {p : Parser} (h : p.StopsAt j) (le : j ≤ k) : p.StopsAt k :=
  fun op found => Nat.le_trans (h op found) le

theorem stopsAt_precedence {p : Parser} {op : BinaryOp}
    (found : BinaryOp.ofTokenKind? p.current.kind = some op) : p.StopsAt op.precedence := by
  intro op' found'
  obtain rfl := Option.some.inj (found.symm.trans found')
  exact Nat.le_refl _

/-- Nothing binds tighter than a product. -/
theorem stopsAt_four (p : Parser) : p.StopsAt 4 := by
  intro op _
  cases op <;> decide

theorem operatorAbove_eq_some_iff {threshold : Nat} {kind : TokenKind} {op : BinaryOp} :
    operatorAbove threshold kind = some op ↔
      BinaryOp.ofTokenKind? kind = some op ∧ threshold < op.precedence := by
  simp [operatorAbove, Option.filter_eq_some_iff]

theorem operatorAbove_eq_none_iff {threshold : Nat} {p : Parser} :
    operatorAbove threshold p.current.kind = none ↔ p.StopsAt threshold := by
  simp [operatorAbove, Option.filter_eq_none_iff, StopsAt]

/-- Where no operator binds tighter, the left operand is all. -/
theorem climb_of_stopsAt {operand : Production Expr} {n threshold : Nat} {lhs : Expr} {p : Parser}
    (stops : p.StopsAt threshold) : climb operand (n + 1) threshold lhs p = .ok lhs p := by
  have notTaken := operatorAbove_eq_none_iff.mpr stops
  unfold climb
  rw [bind_apply]
  simp only [accept, notTaken]
  rfl

/-- Where one does, its right operand joins the left one, and the climb goes on. -/
theorem climb_of_operator {operand : Production Expr} {n threshold : Nat} {lhs : Expr} {p : Parser}
    {op : BinaryOp} (found : BinaryOp.ofTokenKind? p.current.kind = some op)
    (above : threshold < op.precedence) :
    climb operand (n + 1) threshold lhs p =
      (operation operand n op.precedence >>= fun rhs =>
        climb operand n threshold (.binary p.current op lhs rhs)) p.step := by
  have taken := operatorAbove_eq_some_iff.mpr ⟨found, above⟩
  unfold operation
  rw [bind_assoc, climb, bind_apply]
  simp only [accept, taken]

end LoopLang.Parser
