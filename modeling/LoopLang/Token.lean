import LoopLang.Position

set_option autoImplicit false

/-! # Tokens

The words of the language: nine keywords, eleven symbols, integer literals, identifiers, and the
end of the text. A token keeps the text it was read from and the place of its first character.
Every keyword and every symbol has one spelling, and no two share theirs. -/

namespace LoopLang

/-! ## Keywords and symbols -/

/-- The reserved words. -/
inductive Keyword where
  | letKw | andKw | inKw | ifKw | thenKw | elseKw | recurKw | loopKw | endKw
deriving DecidableEq, Repr

namespace Keyword

/-- All reserved words. -/
def all : List Keyword :=
  [letKw, andKw, inKw, ifKw, thenKw, elseKw, recurKw, loopKw, endKw]

/-- How a reserved word is written. -/
def spelling : Keyword → String
  | letKw => "let"
  | andKw => "and"
  | inKw => "in"
  | ifKw => "if"
  | thenKw => "then"
  | elseKw => "else"
  | recurKw => "recur"
  | loopKw => "loop"
  | endKw => "end"

/-- The reserved word that is written as `name`, if there is one. -/
def ofName? (name : String) : Option Keyword :=
  all.find? fun k => k.spelling == name

theorem mem_all (k : Keyword) : k ∈ all := by
  cases k <;> decide

theorem ofName?_spelling (k : Keyword) : ofName? k.spelling = some k := by
  cases k <;> rfl

theorem ofName?_eq_some_iff {name : String} {k : Keyword} :
    ofName? name = some k ↔ name = k.spelling := by
  constructor
  · intro found
    have same := List.find?_some found
    exact (beq_iff_eq.mp same).symm
  · rintro rfl
    exact ofName?_spelling k

end Keyword

/-- The operators and brackets. -/
inductive Symbol where
  | assign | andAnd | orOr | bang | less | equalEqual | plus | star | minus
  | leftParen | rightParen
deriving DecidableEq, Repr

namespace Symbol

/-- All symbols, each before those whose spelling begins its own. -/
def all : List Symbol :=
  [equalEqual, andAnd, orOr, assign, bang, less, plus, star, minus, leftParen, rightParen]

/-- How a symbol is written. -/
def spelling : Symbol → String
  | assign => "="
  | andAnd => "&&"
  | orOr => "||"
  | bang => "!"
  | less => "<"
  | equalEqual => "=="
  | plus => "+"
  | star => "*"
  | minus => "-"
  | leftParen => "("
  | rightParen => ")"

/-- The longest symbol that a text begins with. -/
def atFront? (text : List Char) : Option Symbol :=
  all.find? fun s => s.spelling.toList.isPrefixOf text

theorem mem_all (s : Symbol) : s ∈ all := by
  cases s <;> decide

/-- A symbol is found only where it is written. -/
theorem spelling_isPrefix_of_atFront? {text : List Char} {s : Symbol}
    (found : atFront? text = some s) : s.spelling.toList <+: text := by
  have front := List.find?_some found
  exact List.isPrefixOf_iff_prefix.mp front

end Symbol

/-! ## Tokens -/

/-- What a token stands for. -/
inductive TokenKind where
  | eof
  | integer
  | identifier
  | symbol (s : Symbol)
  | keyword (k : Keyword)
deriving DecidableEq, Repr

/-- The name of a kind of token: a spelling where there is only one. -/
def TokenKind.text : TokenKind → String
  | eof => "EOF"
  | integer => "integer"
  | identifier => "identifier"
  | symbol s => s.spelling
  | keyword k => k.spelling

/-- The kind of a word: a reserved word, or else an identifier. -/
def TokenKind.ofWord (word : String) : TokenKind :=
  match Keyword.ofName? word with
  | some k => keyword k
  | none => identifier

/-- A classified piece of source text and the place of its first character. -/
structure Token where
  kind : TokenKind
  literal : String
  pos : Position
deriving DecidableEq, Repr

namespace Token

/-- The token that stands for the end of a text, at the place behind its last character. -/
def endOfText (pos : Position) : Token := ⟨.eof, "", pos⟩

/-- How a token is shown in a message: its own text where its kind has many spellings. -/
def text (t : Token) : String :=
  match t.kind with
  | .integer | .identifier => t.literal
  | kind => kind.text

end Token

end LoopLang
