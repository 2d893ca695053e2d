import LoopLang.Cursor
import LoopLang.Expr

set_option autoImplicit false

/-! # The state of a parse

A parser looks at one token and holds the results that are still to come, with the lexical
diagnostics among them. `Parser.step` moves on to the next token and notes the diagnostics that it
passes. A `Production` reads a part of the grammar: it ends with a tree, with the diagnostic that
makes it give up, or, if it was not given enough steps, without a result. The steps are there only
to make the recursion plain; the parser always gives enough of them. -/

namespace LoopLang

/-! ## State -/

/-- The token that is looked at and all that is known about the rest of the parse. -/
structure Parser where
  /-- The results that are still to come, up to the end of the text. -/
  pending : List (Except Diagnostic Token)
  /-- The place of the end of the text. -/
  endPos : Position
  /-- The token that is looked at. -/
  current : Token
  /-- The kind of the token in front of it. -/
  previous : TokenKind
  /-- The diagnostics noted and not yet reported, the latest first. -/
  noted : List Diagnostic

namespace Parser

/-- A parser that has not looked at any of its results. -/
def ofResults (results : List (Except Diagnostic Token)) (endPos : Position) : Parser :=
  ⟨results, endPos, .endOfText .nowhere, .eof, []⟩

/-- A parser for all that is left behind a cursor. -/
def ofCursor (c : Cursor) : Parser := ofResults c.results c.endPos

/-- A parser for a source text. -/
def ofSource (source : String) : Parser := ofCursor (.ofSource source)

/-- The first token among the results, or else the end of the text, together with the results
behind it and the diagnostics noted so far and in front of it. -/
def firstToken (endPos : Position) : List (Except Diagnostic Token) → List Diagnostic →
    Token × List (Except Diagnostic Token) × List Diagnostic
  | [], noted => (.endOfText endPos, [], noted)
  | .ok t :: later, noted => (t, later, noted)
  | .error d :: later, noted => firstToken endPos later (d :: noted)

/-- Moves on to the next token. -/
def step (p : Parser) : Parser :=
  let (token, pending, noted) := firstToken p.endPos p.pending p.noted
  { p with pending, current := token, previous := p.current.kind, noted }

/-- Notes a diagnostic. -/
def note (p : Parser) (d : Diagnostic) : Parser :=
  { p with noted := d :: p.noted }

/-- A bound for the number of tokens from the current one to the end of the text. -/
def size (p : Parser) : Nat :=
  p.pending.length + if p.current.kind = .eof then 0 else 1

/-- Moves on at most `n` times, up to a `let` behind an `end`, or to the end of the text. -/
def skipToFunction : Nat → Parser → Parser
  | 0, p => p
  | n + 1, p =>
    if p.current.kind = .eof ∨ (p.current.kind = .keyword .letKw ∧ p.previous = .keyword .endKw)
    then p
    else skipToFunction n p.step

/-- Moves on to where the next function most likely begins. -/
def recover (p : Parser) : Parser := skipToFunction p.size p

/-! ## Productions -/

/-- Why a production ends without a tree. -/
inductive Stop where
  /-- The tokens do not fit. -/
  | failed (d : Diagnostic)
  /-- More steps were needed than given. -/
  | outOfSteps
deriving DecidableEq

/-- A way to read some part of the grammar. -/
abbrev Production := EStateM Stop Parser

variable {α β : Type}

/-- Not enough steps were given. -/
def outOfSteps : Production α := throw .outOfSteps

/-- Gives up at the current token, for a reason that tells its text. -/
def giveUp (cause : String → Cause) : Production α := fun p =>
  .error (.failed ⟨p.current.pos, cause p.current.text⟩) p

/-- Takes the current token if its kind is among those with a value, and gives both. -/
def accept (value : TokenKind → Option β) : Production (Option (Token × β)) := fun p =>
  match value p.current.kind with
  | some b => .ok (some (p.current, b)) p.step
  | none => .ok none p

/-- Takes the current token if it is of the given kind. -/
def acceptKind (kind : TokenKind) : Production (Option Token) := fun p =>
  if p.current.kind = kind then .ok (some p.current) p.step else .ok none p

/-- Takes a token of the given kind, or gives up. -/
def require (kind : TokenKind) : Production Token := do
  match ← acceptKind kind with
  | some token => return token
  | none => giveUp fun found => .unexpectedToken found kind.text

/-- Whether the current token is of the given kind. -/
def looksAt (kind : TokenKind) : Production Bool := fun p =>
  .ok (p.current.kind == kind) p

end Parser

end LoopLang
