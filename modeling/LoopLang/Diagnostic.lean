import LoopLang.Token

set_option autoImplicit false

/-! # Diagnostics

What can be wrong with a source text, and how it is said. A diagnostic has a place and a cause.
Two causes are lexical: a character that begins no token, and an `&` or `|` that is not doubled.
The others are found while parsing. A report counts its diagnostics and then tells each of them
behind a line break and its number, from one on. Characters of the source text go into a message as
they are, so the message of a lone operator in front of a newline has a line break itself. -/

namespace LoopLang

/-- The reason for a diagnostic. -/
inductive Cause where
  /-- Another token than the only possible one: the text of the one and the name of the other. -/
  | unexpectedToken (found expected : String)
  /-- A character that begins no token. -/
  | strayChar (char : Char)
  /-- An operator character that is not doubled, and what stands behind it. -/
  | loneOperator (char : Char) (next : Option Char)
  /-- An integer literal beyond the largest 64-bit number. -/
  | literalOutOfRange (literal : String)
  /-- A token that begins no expression. -/
  | expectedExpression (found : String)
  /-- Another token than an identifier. -/
  | expectedIdentifier (found : String)
deriving DecidableEq, Repr

namespace Cause

/-- The wording of a cause. -/
def message : Cause → String
  | unexpectedToken found expected =>
    "unexpected token '" ++ found ++ "', expected '" ++ expected ++ "'"
  | strayChar char => "unexpected character: " ++ char.toString
  | loneOperator char (some next) =>
    "expected '" ++ char.toString ++ char.toString ++ "', got '" ++ next.toString ++ "' instead"
  | loneOperator char none =>
    "expected '" ++ char.toString ++ char.toString ++ "', got end of input"
  | literalOutOfRange literal => "integer literal out of range: " ++ literal
  | expectedExpression found => "expected expression, got '" ++ found ++ "'"
  | expectedIdentifier found => "expected identifier, got '" ++ found ++ "'"

/-- Whether a cause lies in the characters alone, whatever the grammar. -/
def isLexical : Cause → Bool
  | strayChar _ | loneOperator _ _ => true
  | _ => false

end Cause

/-- One lexical or syntax error. -/
structure Diagnostic where
  pos : Position
  cause : Cause
deriving DecidableEq, Repr

namespace Diagnostic

/-- What is told of a diagnostic: its place, and the wording of its cause. -/
def message (d : Diagnostic) : String :=
  "syntax error: " ++ d.pos.text ++ ": " ++ d.cause.message

/-- A diagnostic as it is told in a report: a line break, its number and its message. -/
def numbered (number : Nat) (d : Diagnostic) : String :=
  "\n" ++ number.repr ++ ": " ++ d.message

/-- The whole report: a headline with the count, then the numbered diagnostics. -/
def report (ds : List Diagnostic) : String :=
  "Generated " ++ ds.length.repr ++ " error(s):"
    ++ String.join (ds.zipIdx.map fun (d, index) => d.numbered (index + 1))

/-! ### Order -/

/-- Puts a diagnostic in front of the first one whose place does not come before its own. -/
def insertByPlace (d : Diagnostic) : List Diagnostic → List Diagnostic
  | [] => [d]
  | e :: es => if d.pos.notAfter e.pos then d :: e :: es else e :: insertByPlace d es

/-- The diagnostics by place; those at one place stay in the order they were noted in. -/
def inOrder (ds : List Diagnostic) : List Diagnostic :=
  ds.foldr insertByPlace []

theorem insertByPlace_perm (d : Diagnostic) (ds : List Diagnostic) :
    (insertByPlace d ds).Perm (d :: ds) := by
  induction ds with
  | nil => exact .refl _
  | cons e es ih =>
    unfold insertByPlace
    split
    · exact .refl _
    · exact (ih.cons e).trans (.swap d e es)

/-- Ordering loses no diagnostic and adds none. -/
theorem inOrder_perm (ds : List Diagnostic) : (inOrder ds).Perm ds := by
  induction ds with
  | nil => exact .refl _
  | cons d ds ih => exact (insertByPlace_perm d _).trans (ih.cons d)

theorem insertByPlace_pairwise {d : Diagnostic} {ds : List Diagnostic}
    (sorted : ds.Pairwise fun d e => d.pos.notAfter e.pos) :
    (insertByPlace d ds).Pairwise fun d e => d.pos.notAfter e.pos := by
  induction ds with
  | nil => exact List.pairwise_singleton _ _
  | cons e es ih =>
    obtain ⟨first, later⟩ := List.pairwise_cons.mp sorted
    unfold insertByPlace
    split
    · next before =>
      refine List.pairwise_cons.mpr ⟨fun f mem => ?_, sorted⟩
      cases mem with
      | head => exact before
      | tail _ mem => exact Position.notAfter_trans before (first f mem)
    · next behind =>
      refine List.pairwise_cons.mpr ⟨fun f mem => ?_, ih later⟩
      have old := (insertByPlace_perm d es).mem_iff.mp mem
      cases old with
      | head => exact Position.notAfter_of_not behind
      | tail _ old => exact first f old

/-- No place comes after a later one. -/
theorem inOrder_pairwise (ds : List Diagnostic) :
    (inOrder ds).Pairwise fun d e => d.pos.notAfter e.pos := by
  induction ds with
  | nil => exact List.Pairwise.nil
  | cons d ds ih => exact insertByPlace_pairwise ih

end Diagnostic

end LoopLang
