import LoopLang.Parser.Progress

set_option autoImplicit false

/-! # Parsing expressions and programs

Both ways to parse first move on to the next token, read their part of the grammar with more steps
than there are tokens left (which suffices by `wholeExpression_ne_outOfSteps` and
`functions_ne_error`), and then report all diagnostics noted on the way, lexical ones included: the
parse succeeds only if there are none. A report takes its diagnostics out of the parser, so that
the next parse starts with none. -/

namespace LoopLang.Parser

variable {α : Type}

/-- The diagnostics noted so far, by place. -/
def report (p : Parser) : List Diagnostic :=
  Diagnostic.inOrder p.noted.reverse

/-- The parser without its diagnostics. -/
def cleared (p : Parser) : Parser :=
  { p with noted := [] }

/-- Gives a tree, unless there are diagnostics to report. -/
def conclude (p : Parser) (tree : α) : Except (List Diagnostic) α × Parser :=
  if p.noted.isEmpty then (.ok tree, p) else (.error p.report, p.cleared)

/-- Parses a single expression up to the end of the text. -/
def parseExpression (p : Parser) : Except (List Diagnostic) Expr × Parser :=
  match result : wholeExpression (p.step.size + 1) p.step with
  | .ok e q => q.conclude e
  | .error (.failed d) q => (.error (q.note d).report, (q.note d).cleared)
  | .error .outOfSteps _ =>
    (wholeExpression_ne_outOfSteps (Nat.lt_succ_self _) result).elim

/-- Parses a whole program, one function or more. A function that does not parse leaves a
diagnostic, and the parse goes on with the next one. -/
def parseProgram (p : Parser) : Except (List Diagnostic) Program × Parser :=
  match result : functions (p.step.size + 1) (p.step.size + 1) p.step with
  | .ok found q => q.conclude ⟨found⟩
  | .error _ _ => (functions_ne_error (Nat.le_succ _) (Nat.lt_succ_self _) result).elim

end LoopLang.Parser

namespace LoopLang

/-- The expression written in a source text. -/
def Expr.parse (source : String) : Except (List Diagnostic) Expr :=
  (Parser.ofSource source).parseExpression.1

/-- The program written in a source text. -/
def Program.parse (source : String) : Except (List Diagnostic) Program :=
  (Parser.ofSource source).parseProgram.1

end LoopLang
