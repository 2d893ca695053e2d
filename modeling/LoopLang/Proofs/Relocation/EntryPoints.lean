import LoopLang.Proofs.Cursor.Places
import LoopLang.Proofs.Relocation.Lines

set_option autoImplicit false

/-! # An expression as the body of a function

A text is an expression exactly if it is the body of a function: written between the first line of a
`main` and its `end`, it leads to the same tree, one line further down. The lines are scanned on
their own, so the text can neither swallow the `end` behind it, by a comment or in a word, nor hide
a lexical fault; and the tokens derive the same tree wherever they stand. -/

namespace LoopLang

variable {f : Position → Position}

/-! ## Expressions at other places -/

namespace Parser

theorem carries_wholeExpression (n : Nat) :
    Carries f (Expr.relocate f) (wholeExpression n) (wholeExpression n) :=
  (carries_expression n).bind fun _ => (carries_require _).bind fun _ => carries_pure rfl

theorem parseExpression_relocate_eq_ok_iff {p : Parser} {e' : Expr} :
    (p.relocate f).parseExpression.1 = .ok e'
      ↔ ∃ e, p.parseExpression.1 = .ok e ∧ e' = e.relocate f := by
  rw [parseExpression_eq_ok_iff, step_relocate, size_relocate, carries_wholeExpression _ p.step]
  constructor
  · rintro ⟨q', read, clean⟩
    cases result : wholeExpression (p.step.size + 1) p.step with
    | ok e q =>
      rw [result] at read
      cases read
      have clean' : q.noted = [] := List.map_eq_nil_iff.mp clean
      exact ⟨e, parseExpression_eq_ok_iff.mpr ⟨q, result, clean'⟩, rfl⟩
    | error stop q =>
      rw [result] at read
      cases read
  · rintro ⟨e, parsed, rfl⟩
    obtain ⟨q, read, clean⟩ := parseExpression_eq_ok_iff.mp parsed
    refine ⟨q.relocate f, ?_, List.map_eq_nil_iff.mpr clean⟩
    rw [read]
    rfl

end Parser

namespace Grammar

/-- The tokens can be read from a text. -/
def Readable (ts : List Token) : Prop := ∀ t ∈ ts, t.kind ≠ .eof ∧ t.Lexed

theorem readable_of_results {source : String} {ts : List Token}
    (scanned : (Cursor.ofSource source).results = ts.map .ok) : Readable ts := by
  intro t mem
  exact Cursor.lexed_of_mem_results (scanned ▸ List.mem_map_of_mem mem)

theorem expression_iff_parse {ts : List Token} (readable : Readable ts) {p : Parser} {e : Expr}
    (fresh : p.noted = []) (tokens : p.pending = ts.map .ok) :
    Expression ts e ↔ p.parseExpression.1 = .ok e := by
  constructor
  · exact Parser.parseExpression_of_derives fresh tokens
  · intro parsed
    have scanned : ∀ t, .ok t ∈ p.pending → t.kind ≠ .eof ∧ t.Lexed := by
      intro t mem
      exact readable t (by simpa [tokens] using mem)
    obtain ⟨us, tokens', derived⟩ := Parser.derives_of_parseExpression scanned parsed
    have same : us = ts := by
      rw [← Lexical.tokens_map_ok us, ← tokens', tokens, Lexical.tokens_map_ok]
    rwa [same] at derived

/-- Tokens at other places derive the same trees, at these places. -/
theorem expression_relocate_iff {ts : List Token} (readable : Readable ts) {e' : Expr} :
    Expression (ts.map (Token.relocate f)) e' ↔ ∃ e, Expression ts e ∧ e' = e.relocate f := by
  have readable' : Readable (ts.map (Token.relocate f)) := by
    intro t mem
    obtain ⟨u, original, rfl⟩ := List.mem_map.mp mem
    exact readable u original
  have tokens : ((parserOf ts).relocate f).pending = (ts.map (Token.relocate f)).map .ok := by
    simp only [Parser.relocate, parserOf, Parser.ofResults, List.map_map]
    rfl
  rw [expression_iff_parse readable' rfl tokens, Parser.parseExpression_relocate_eq_ok_iff]
  have here : ∀ e, Expression ts e ↔ (parserOf ts).parseExpression.1 = .ok e := fun e =>
    expression_iff_parse readable rfl rfl
  simp only [here]

end Grammar

/-! ## The lines around the text -/

/-- A text as the body of a `main` with one parameter, on lines of its own. -/
def inMain (source : String) : String := "let main x =\n" ++ source ++ "\nend"

/-- The first line of this `main`. -/
def mainLine : List Token :=
  [⟨.keyword .letKw, "let", ⟨1, 1⟩⟩, ⟨.identifier, "main", ⟨1, 5⟩⟩, ⟨.identifier, "x", ⟨1, 10⟩⟩,
    ⟨.symbol .assign, "=", ⟨1, 12⟩⟩]

/-- Its last line. -/
def endLine (source : String) : Token :=
  ⟨.keyword .endKw, "end", Position.start.down (source.toList.count '\n' + 2)⟩

namespace Lexical

open LoopLang.Parser (relocateResult)

theorem results_inMain (s : String) :
    (Cursor.ofSource (inMain s)).results =
      mainLine.map .ok
        ++ ((Cursor.ofSource s).results.map (relocateResult (.down 1) ∘ closed)
          ++ [.ok (endLine s)]) := by
  have lines : inMain s = "let main x =" ++ "\n" ++ (s ++ "\n" ++ "end") := by
    simp only [inMain, String.append_assoc]
    rfl
  have first : (Cursor.ofSource "let main x =").results = mainLine.map .ok := by decide +kernel
  have last : (Cursor.ofSource "end").results = [.ok ⟨.keyword .endKw, "end", .start⟩] := by
    decide +kernel
  rw [lines, Cursor.results_newline, Cursor.results_newline, first, last]
  simp [closed, mainLine, relocateResult, Token.relocate, Position.down_down, endLine]

/-- No fault is hidden by the lines around a text. -/
theorem clean_of_inMain {s : String} {ts : List Token}
    (scanned : (Cursor.ofSource (inMain s)).results = ts.map .ok) :
    (Cursor.ofSource s).results = (tokensOf s).map .ok := by
  refine results_of_clean (List.eq_nil_iff_forall_not_mem.mpr fun d mem => ?_)
  rw [mem_faults] at mem
  obtain ⟨e, fault⟩ : ∃ e, relocateResult (.down 1) (closed (.error d)) = .error e := by
    unfold closed
    split <;> exact ⟨_, rfl⟩
  have inside : .error e ∈ (Cursor.ofSource (inMain s)).results := by
    rw [results_inMain, ← fault]
    simp only [List.mem_append, List.mem_map, Function.comp_apply]
    exact Or.inr (Or.inl ⟨_, mem, rfl⟩)
  rw [scanned] at inside
  simp at inside

/-- The tokens of a text stand between those of the lines around it, one line further down. -/
theorem results_inMain_of_tokens {s : String} {ts : List Token}
    (scanned : (Cursor.ofSource s).results = ts.map .ok) :
    (Cursor.ofSource (inMain s)).results =
      (mainLine ++ (ts.map (Token.relocate (.down 1)) ++ [endLine s])).map .ok := by
  rw [results_inMain, scanned]
  simp [closed, relocateResult]

end Lexical

/-! ## The two ways to parse -/

/-- The body of a `main` is parsed where the text on its own is. -/
theorem exists_main_of_parse {s : String} {e : Expr} (parsed : Expr.parse s = .ok e) :
    ∃ g, Program.parse (inMain s) = .ok ⟨[g]⟩ ∧ g.name = "main"
      ∧ g.params.map Ident.name = ["x"] ∧ g.body = e.relocate (.down 1) := by
  obtain ⟨ts, scanned, derived⟩ := Grammar.parse_expression_iff.mp parsed
  have body : Grammar.Expression (ts.map (Token.relocate (.down 1))) (e.relocate (.down 1)) :=
    (Grammar.expression_relocate_iff (Grammar.readable_of_results scanned)).mpr ⟨e, derived, rfl⟩
  have main := @Grammar.Function.mk mainLine[0] mainLine[1] [mainLine[2]] mainLine[3] _ (endLine s)
    _ rfl rfl (by simp [mainLine]) (by simp) rfl body rfl
  refine ⟨_, Grammar.parse_program_iff.mpr
    ⟨_, Lexical.results_inMain_of_tokens scanned, .last main⟩, rfl, rfl, rfl⟩

/-- Where a `main` with one parameter is all that is parsed, its body is what the text on its own is
parsed as. -/
theorem exists_parse_of_main {s : String} {g : Function}
    (parsed : Program.parse (inMain s) = .ok ⟨[g]⟩) (params : g.params.map Ident.name = ["x"]) :
    ∃ e, Expr.parse s = .ok e ∧ g.body = e.relocate (.down 1) := by
  obtain ⟨us, whole, derived⟩ := Grammar.parse_program_iff.mp parsed
  have scanned := Lexical.clean_of_inMain whole
  have split : mainLine ++ ((Lexical.tokensOf s).map (Token.relocate (.down 1)) ++ [endLine s])
      = us := by
    rw [← Lexical.tokens_map_ok us, ← whole, Lexical.results_inMain_of_tokens scanned,
      Lexical.tokens_map_ok]
  cases derived with
  | cons _ others => cases others
  | last main =>
    obtain @⟨l, t, ps, a, ts, r, body, _, _, _, _, _, inside, _⟩ := main
    obtain ⟨i, rfl⟩ : ∃ i, ps = [i] := by
      have one : ps.length = 1 := by simpa using congrArg List.length params
      exact List.length_eq_one_iff.mp one
    -- the first four tokens and the last one are those of the lines around the text
    simp only [mainLine, List.cons_append, List.nil_append, List.cons.injEq] at split
    obtain ⟨rfl, _⟩ := List.append_inj' split.2.2.2.2 rfl
    obtain ⟨e, derived, same⟩ :=
      (Grammar.expression_relocate_iff (Grammar.readable_of_results scanned)).mp inside
    exact ⟨e, Grammar.parse_expression_iff.mpr ⟨_, scanned, derived⟩, same⟩

/-- **The two entry points agree.** A text is parsed as an expression exactly if, between the first
line of a `main` with one parameter and its `end`, it is parsed as a program of this one function.
The body of the function is then the expression, with each of its tokens one line further down. -/
theorem entry_points_agree (s : String) :
    ((∃ e, Expr.parse s = .ok e) ↔
      ∃ g, Program.parse (inMain s) = .ok ⟨[g]⟩ ∧ g.name = "main"
        ∧ g.params.map Ident.name = ["x"])
    ∧ ∀ e g, Expr.parse s = .ok e → Program.parse (inMain s) = .ok ⟨[g]⟩ →
        g.body = e.relocate (.down 1) := by
  refine ⟨⟨?_, ?_⟩, ?_⟩
  · rintro ⟨e, parsed⟩
    obtain ⟨g, main, name, params, _⟩ := exists_main_of_parse parsed
    exact ⟨g, main, name, params⟩
  · rintro ⟨g, main, _, params⟩
    obtain ⟨e, parsed, _⟩ := exists_parse_of_main main params
    exact ⟨e, parsed⟩
  · intro e g parsed main
    obtain ⟨g', main', _, _, body⟩ := exists_main_of_parse parsed
    obtain rfl : g = g' := by simpa [main] using main'
    exact body

/-- A comment that is open at the end of the text, with the word `end` in it. -/
theorem entry_points_agree_comment :
    ∃ e g, Expr.parse "let a = f(x)(1) in\n a + 1 end # end" = .ok e
      ∧ Program.parse (inMain "let a = f(x)(1) in\n a + 1 end # end") = .ok ⟨[g]⟩
      ∧ g.body = e.relocate (.down 1) := by
  obtain ⟨e, parsed⟩ : ∃ e, Expr.parse "let a = f(x)(1) in\n a + 1 end # end" = .ok e := ⟨_, rfl⟩
  obtain ⟨g, main, _⟩ := (entry_points_agree _).1.mp ⟨e, parsed⟩
  exact ⟨e, g, parsed, main, (entry_points_agree _).2 e g parsed main⟩

end LoopLang
