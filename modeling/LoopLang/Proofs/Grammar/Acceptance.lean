import LoopLang.Parser
import LoopLang.Proofs.Grammar.Completeness
import LoopLang.Proofs.Grammar.Soundness

set_option autoImplicit false

/-! # The parser accepts its grammar

A text is parsed as a program exactly if it has no lexical fault and its tokens derive the program.
A function that does not parse leaves a diagnostic, and diagnostics are never lost on the way to the
end; so where none is left at the end, every function was read, one behind the other, and every
token that was scanned was taken. The same parse of the same tokens cannot end with two trees, so no
tokens derive two programs. -/

namespace LoopLang.Parser

variable {α : Type}

/-! ## The tokens in front of the end -/

/-- A step that leaves no diagnostic goes to the first result, which is a token, or to the end. -/
theorem step_of_clean {p : Parser} (clean : p.step.noted = []) :
    (p.pending = [] ∧ p.step.current.kind = .eof)
      ∨ p.pending = .ok p.step.current :: p.step.pending := by
  obtain ⟨ds, noted, rest⟩ := p.step_spec
  rw [clean] at noted
  obtain rfl : ds = [] := by simpa using (List.append_eq_nil_iff.mp noted.symm).1
  rcases rest with split | ⟨split, _, atEnd⟩
  · exact .inr split
  · exact .inl ⟨split, by rw [atEnd]; rfl⟩

/-- Where taking tokens leads to the end of the text without a diagnostic, these tokens are all that
there was. -/
theorem Passes.pending_eq {p q : Parser} {ts : List Token} (pass : p.step.Passes ts q)
    (scanned : ∀ t, .ok t ∈ p.pending → t.kind ≠ .eof) (notEnd : ∀ t ∈ ts, t.kind ≠ .eof)
    (atEnd : q.current.kind = .eof) (clean : q.noted = []) : p.pending = ts.map .ok := by
  induction ts generalizing p with
  | nil =>
    obtain rfl : q = p.step := pass
    rcases step_of_clean clean with ⟨empty, _⟩ | more
    · exact empty
    · -- a token that was scanned is not the end of the text
      exact absurd atEnd (scanned p.step.current (more ▸ List.mem_cons_self))
  | cons t ts ih =>
    have clean' : p.step.noted = [] := List.suffix_nil.mp (clean ▸ pass.noted)
    obtain ⟨rfl, pass⟩ := pass
    obtain ⟨here, others⟩ := List.forall_mem_cons.mp notEnd
    rcases step_of_clean clean' with ⟨_, ended⟩ | more
    · exact absurd ended here
    · have scanned' : ∀ t, .ok t ∈ p.step.pending → t.kind ≠ .eof := fun t mem =>
        scanned t (more ▸ List.mem_cons_of_mem _ mem)
      have rest := ih pass scanned' others
      rw [more, rest]
      rfl

/-- Tokens without faults among them can all be taken. -/
theorem passes_pending {p : Parser} {ts : List Token} (tokens : p.pending = ts.map .ok) :
    ∃ q, p.step.Passes ts q ∧ q.current = .endOfText p.endPos ∧ q.pending = []
      ∧ q.noted = p.noted := by
  induction ts generalizing p with
  | nil => exact ⟨p.step, rfl, by simp [step, tokens, firstToken]⟩
  | cons t ts ih =>
    have here : p.step.current = t := by simp [step, tokens, firstToken]
    have rest : p.step.pending = ts.map .ok := by simp [step, tokens, firstToken]
    obtain ⟨q, pass, atEnd, empty, noted⟩ := ih rest
    refine ⟨q, ⟨here, pass⟩, atEnd, empty, ?_⟩
    rw [noted]
    simp [step, tokens, firstToken]

/-! ## Functions -/

theorem skipToFunction_passes (n : Nat) (p : Parser) : ∃ ts, p.Passes ts (skipToFunction n p) := by
  induction n generalizing p with
  | zero => exact ⟨[], rfl⟩
  | succ n ih =>
    unfold skipToFunction
    split
    · exact ⟨[], rfl⟩
    · obtain ⟨ts, pass⟩ := ih p.step
      exact ⟨p.current :: ts, rfl, pass⟩

/-- Either a function is read, or its diagnostic is noted and some tokens are left out. -/
theorem functionOrSkip_eq_ok {n : Nat} {p q : Parser} {found : Option Function}
    (h : functionOrSkip n p = .ok found q) :
    (∃ f, function n p = .ok f q ∧ found = some f)
      ∨ ∃ d r ts, function n p = .error (.failed d) r ∧ found = none ∧ (r.note d).Passes ts q := by
  unfold functionOrSkip at h
  split at h
  · next f r read =>
    cases h
    exact Or.inl ⟨f, read, rfl⟩
  · next d r stopped =>
    cases h
    obtain ⟨ts, pass⟩ := skipToFunction_passes (r.note d).size (r.note d)
    exact Or.inr ⟨d, r, ts, stopped, rfl, pass⟩
  · cases h

theorem functions_eq_ok {n rounds : Nat} {p q : Parser} {fs : List Function}
    (h : functions n (rounds + 1) p = .ok fs q) :
    ∃ found r, functionOrSkip n p = .ok found r ∧
      ((r.current.kind = .eof ∧ fs = found.toList ∧ q = r)
        ∨ ∃ others, r.current.kind ≠ .eof ∧ functions n rounds r = .ok others q
            ∧ fs = found.toList ++ others) := by
  unfold functions at h
  rw [bind_apply] at h
  split at h
  · next found r first =>
    refine ⟨found, r, first, ?_⟩
    by_cases atEnd : r.current.kind = .eof
    · rw [bind_of_ok (looksAt_of_kind atEnd), if_pos rfl] at h
      cases h
      exact Or.inl ⟨atEnd, rfl, rfl⟩
    · rw [bind_of_ok (looksAt_of_ne atEnd), if_neg (by decide), bind_apply] at h
      split at h
      · next others r' rest =>
        cases h
        exact Or.inr ⟨others, atEnd, rest, rfl⟩
      · cases h
  · cases h

/-- A round takes tokens and, if it finds no function, leaves a diagnostic. -/
theorem functionOrSkip_passes {n : Nat} {p q : Parser} {found : Option Function} (lexed : p.Lexed)
    (h : functionOrSkip n p = .ok found q) :
    (∃ f ts, found = some f ∧ p.Passes ts q ∧ (∀ t ∈ ts, t.kind ≠ .eof) ∧ Grammar.Function ts f)
      ∨ (q.noted ≠ [] ∧ p.noted <:+ q.noted ∧ q.Lexed) := by
  rcases functionOrSkip_eq_ok h with ⟨f, read, rfl⟩ | ⟨d, r, ts, stopped, rfl, skipped⟩
  · obtain ⟨ts, pass, notEnd, derived⟩ := (yields_function n p lexed).of_ok read
    exact Or.inl ⟨f, ts, rfl, pass, notEnd, derived⟩
  · obtain ⟨us, pass, _, _⟩ := (yields_function n p lexed).of_failed stopped
    have lexed' : r.Lexed := lexed.passes pass
    have kept : d :: r.noted <:+ q.noted := skipped.noted
    have lexed'' : q.Lexed := Lexed.passes (p := r.note d) lexed' skipped
    refine Or.inr ⟨?_, pass.noted.trans ((List.suffix_cons d _).trans kept), lexed''⟩
    intro clean
    rw [clean] at kept
    exact absurd (List.suffix_nil.mp kept) (List.cons_ne_nil _ _)

/-- Functions that leave no diagnostic stand one behind the other in front of the end. -/
theorem functions_sound {n rounds : Nat} {p q : Parser} {fs : List Function} (lexed : p.Lexed)
    (h : functions n rounds p = .ok fs q) :
    p.noted <:+ q.noted ∧ (q.noted = [] → q.current.kind = .eof ∧
      ∃ ts, p.Passes ts q ∧ (∀ t ∈ ts, t.kind ≠ .eof) ∧ Grammar.Functions ts fs) := by
  induction rounds generalizing p fs with
  | zero => cases h
  | succ rounds ih =>
    obtain ⟨found, r, first, rest⟩ := functions_eq_ok h
    rcases functionOrSkip_passes lexed first with
      ⟨f, ts, rfl, pass, notEnd, derived⟩ | ⟨broken, kept, lexed'⟩
    · rcases rest with ⟨atEnd, rfl, rfl⟩ | ⟨others, _, more, rfl⟩
      · exact ⟨pass.noted, fun _ => ⟨atEnd, ts, pass, notEnd, .last derived⟩⟩
      · obtain ⟨kept, sound⟩ := ih (lexed.passes pass) more
        refine ⟨pass.noted.trans kept, fun clean => ?_⟩
        obtain ⟨atEnd, us, pass', notEnd', derived'⟩ := sound clean
        have notEnd'' : ∀ t ∈ ts ++ us, t.kind ≠ .eof := fun t mem =>
          (List.mem_append.mp mem).elim (notEnd t) (notEnd' t)
        exact ⟨atEnd, ts ++ us, pass.trans pass', notEnd'', .cons derived derived'⟩
    · -- the diagnostic of a function that is left out is still there at the end
      rcases rest with ⟨_, rfl, rfl⟩ | ⟨others, _, more, rfl⟩
      · exact ⟨kept, fun clean => absurd clean broken⟩
      · obtain ⟨kept', _⟩ := ih lexed' more
        refine ⟨kept.trans kept', fun clean => ?_⟩
        rw [clean] at kept'
        exact absurd (List.suffix_nil.mp kept') broken

theorem functions_of_function {n rounds : Nat} {p q : Parser} {f : Function}
    (read : function n p = .ok f q) :
    functions n (rounds + 1) p =
      if q.current.kind = .eof then .ok [f] q
      else (functions n rounds >>= fun others => pure (f :: others)) q := by
  have first : functionOrSkip n p = .ok (some f) q := by
    unfold functionOrSkip
    rw [read]
  rw [functions, bind_of_ok first]
  by_cases atEnd : q.current.kind = .eof
  · rw [bind_of_ok (looksAt_of_kind atEnd), if_pos rfl, if_pos atEnd]
    rfl
  · rw [bind_of_ok (looksAt_of_ne atEnd), if_neg (by decide), if_neg atEnd]
    rfl

theorem functions_current {ts : List Token} {fs : List Function} (h : Grammar.Functions ts fs)
    {p q : Parser} (pass : p.Passes ts q) : p.current.kind = .keyword .letKw := by
  cases h with
  | last function =>
    obtain ⟨letKw⟩ := function
    rwa [pass.1]
  | cons function _ =>
    obtain ⟨letKw⟩ := function
    rwa [pass.1]

/-- Functions that stand one behind the other in front of the end are read. -/
theorem functions_complete {ts : List Token} {fs : List Function} (h : Grammar.Functions ts fs)
    {n rounds : Nat} {p q : Parser} (enough : p.size ≤ n) (room : p.size < rounds)
    (pass : p.Passes ts q) (atEnd : q.current.kind = .eof) : functions n rounds p = .ok fs q := by
  induction h generalizing p rounds with
  | last function =>
    obtain ⟨rounds, rfl⟩ := Nat.exists_eq_add_one_of_ne_zero (Nat.ne_zero_of_lt room)
    rw [functions_of_function (read_function function enough pass), if_pos atEnd]
  | cons function others ih =>
    obtain ⟨rounds, rfl⟩ := Nat.exists_eq_add_one_of_ne_zero (Nat.ne_zero_of_lt room)
    obtain ⟨r, first, rest⟩ := passes_append.mp pass
    have read := read_function function enough first
    -- the next function begins with a `let`, so the parser does not stop in front of it
    have notEnd : r.current.kind ≠ .eof := by
      rw [functions_current others rest]
      decide
    have shorter : r.size < p.size := by
      have takes := takes_function n p (Nat.lt_succ_of_le enough)
      rwa [read] at takes
    rw [functions_of_function read, if_neg notEnd,
      bind_of_ok (ih (by omega) (by omega) rest)]
    rfl

/-! ## Whole texts -/

theorem conclude_eq_ok_iff {p : Parser} {a b : α} :
    (p.conclude a).1 = .ok b ↔ p.noted = [] ∧ a = b := by
  unfold conclude
  cases noted : p.noted with
  | nil => simp
  | cons d ds => simp

theorem parseExpression_of_ok {p q : Parser} {e : Expr}
    (read : wholeExpression (p.step.size + 1) p.step = .ok e q) :
    p.parseExpression = q.conclude e := by
  unfold parseExpression
  split
  · next e' q' result =>
    rw [read] at result
    cases result
    rfl
  · next result => cases read.symm.trans result
  · next result => cases read.symm.trans result

theorem parseExpression_of_failed {p q : Parser} {d : Diagnostic}
    (stopped : wholeExpression (p.step.size + 1) p.step = .error (.failed d) q) :
    p.parseExpression = (.error (q.note d).report, (q.note d).cleared) := by
  unfold parseExpression
  split
  · next result => cases stopped.symm.trans result
  · next d' q' result =>
    rw [stopped] at result
    cases result
    rfl
  · next result => cases stopped.symm.trans result

theorem parseExpression_cases (p : Parser) :
    (∃ e q, wholeExpression (p.step.size + 1) p.step = .ok e q)
      ∨ ∃ d q, wholeExpression (p.step.size + 1) p.step = .error (.failed d) q := by
  cases result : wholeExpression (p.step.size + 1) p.step with
  | ok e q => exact Or.inl ⟨e, q, rfl⟩
  | error stop q =>
    cases stop with
    | failed d => exact Or.inr ⟨d, q, rfl⟩
    | outOfSteps => exact absurd result (wholeExpression_ne_outOfSteps (Nat.lt_succ_self _))

theorem parseProgram_of_ok {p q : Parser} {fs : List Function}
    (read : functions (p.step.size + 1) (p.step.size + 1) p.step = .ok fs q) :
    p.parseProgram = q.conclude ⟨fs⟩ := by
  unfold parseProgram
  split
  · next fs' q' result =>
    rw [read] at result
    cases result
    rfl
  · next result => cases read.symm.trans result

theorem exists_functions (p : Parser) :
    ∃ fs q, functions (p.step.size + 1) (p.step.size + 1) p.step = .ok fs q := by
  cases result : functions (p.step.size + 1) (p.step.size + 1) p.step with
  | ok fs q => exact ⟨fs, q, rfl⟩
  | error stop q => exact absurd result (functions_ne_error (Nat.le_succ _) (Nat.lt_succ_self _))

theorem parseProgram_eq_ok_iff {p : Parser} {program : Program} :
    p.parseProgram.1 = .ok program ↔
      ∃ q, functions (p.step.size + 1) (p.step.size + 1) p.step = .ok program.functions q
        ∧ q.noted = [] := by
  obtain ⟨fs, q, read⟩ := p.exists_functions
  rw [parseProgram_of_ok read, conclude_eq_ok_iff, read]
  constructor
  · rintro ⟨clean, rfl⟩
    exact ⟨q, rfl, clean⟩
  · rintro ⟨r, same, clean⟩
    cases same
    exact ⟨clean, rfl⟩

theorem parseExpression_eq_ok_iff {p : Parser} {e : Expr} :
    p.parseExpression.1 = .ok e ↔
      ∃ q, wholeExpression (p.step.size + 1) p.step = .ok e q ∧ q.noted = [] := by
  rcases p.parseExpression_cases with ⟨e', q, read⟩ | ⟨d, q, stopped⟩
  · rw [parseExpression_of_ok read, conclude_eq_ok_iff, read]
    constructor
    · rintro ⟨clean, rfl⟩
      exact ⟨q, rfl, clean⟩
    · rintro ⟨r, same, clean⟩
      cases same
      exact ⟨clean, rfl⟩
  · rw [parseExpression_of_failed stopped, stopped]
    simp

theorem wholeExpression_eq_ok_iff {n : Nat} {p q : Parser} {e : Expr} :
    wholeExpression n p = .ok e q ↔
      ∃ r, expression n p = .ok e r ∧ r.current.kind = .eof ∧ q = r.step := by
  unfold wholeExpression
  rw [bind_apply]
  constructor
  · intro h
    split at h
    · next e' r read =>
      rw [bind_apply, require_apply] at h
      by_cases atEnd : r.current.kind = .eof
      · rw [if_pos atEnd] at h
        cases h
        exact ⟨r, read, atEnd, rfl⟩
      · rw [if_neg atEnd] at h
        cases h
    · cases h
  · rintro ⟨r, read, atEnd, rfl⟩
    simp only [read]
    rw [bind_of_ok (require_of_kind atEnd)]
    rfl

/-- What a parse ends with is derived by the tokens, and there was nothing but tokens. -/
theorem derives_of_parseProgram {p : Parser} {program : Program}
    (scanned : ∀ t, .ok t ∈ p.pending → t.kind ≠ .eof ∧ t.Lexed)
    (h : p.parseProgram.1 = .ok program) :
    ∃ ts, p.pending = ts.map .ok ∧ Grammar.Program ts program := by
  obtain ⟨q, read, clean⟩ := parseProgram_eq_ok_iff.mp h
  have lexed : p.step.Lexed := lexed_step fun t mem => (scanned t mem).2
  obtain ⟨_, sound⟩ := functions_sound lexed read
  obtain ⟨atEnd, ts, pass, notEnd, derived⟩ := sound clean
  exact ⟨ts, pass.pending_eq (fun t mem => (scanned t mem).1) notEnd atEnd clean, derived⟩

theorem derives_of_parseExpression {p : Parser} {e : Expr}
    (scanned : ∀ t, .ok t ∈ p.pending → t.kind ≠ .eof ∧ t.Lexed)
    (h : p.parseExpression.1 = .ok e) :
    ∃ ts, p.pending = ts.map .ok ∧ Grammar.Expression ts e := by
  obtain ⟨_, whole, clean⟩ := parseExpression_eq_ok_iff.mp h
  obtain ⟨q, read, atEnd, rfl⟩ := wholeExpression_eq_ok_iff.mp whole
  have lexed : p.step.Lexed := lexed_step fun t mem => (scanned t mem).2
  obtain ⟨ts, pass, notEnd, derived⟩ := (yields_expression _ p.step lexed).of_ok read
  have clean' : q.noted = [] :=
    List.suffix_nil.mp (clean ▸ q.noted_step)
  exact ⟨ts, pass.pending_eq (fun t mem => (scanned t mem).1) notEnd atEnd clean', derived⟩

/-- What the tokens derive is what the parse ends with. -/
theorem parseProgram_of_derives {p : Parser} {ts : List Token} {program : Program}
    (fresh : p.noted = []) (tokens : p.pending = ts.map .ok) (h : Grammar.Program ts program) :
    p.parseProgram.1 = .ok program := by
  obtain ⟨q, pass, atEnd, _, noted⟩ := passes_pending tokens
  have read := functions_complete h (Nat.le_succ _) (Nat.lt_succ_self _) pass (by rw [atEnd]; rfl)
  exact parseProgram_eq_ok_iff.mpr ⟨q, read, noted.trans fresh⟩

theorem parseExpression_of_derives {p : Parser} {ts : List Token} {e : Expr}
    (fresh : p.noted = []) (tokens : p.pending = ts.map .ok) (h : Grammar.Expression ts e) :
    p.parseExpression.1 = .ok e := by
  obtain ⟨q, pass, atEnd, empty, noted⟩ := passes_pending tokens
  have atEnd' : q.current.kind = .eof := by rw [atEnd]; rfl
  have closing : Closing q.current.kind := by rw [atEnd']; decide
  have read := readsAs_expression h (p.step.size + 1) p.step q (Nat.lt_succ_self _) pass closing
  have clean : q.step.noted = [] := by simpa [step, empty, firstToken] using noted.trans fresh
  have whole := wholeExpression_eq_ok_iff.mpr ⟨q, read, atEnd', rfl⟩
  exact parseExpression_eq_ok_iff.mpr ⟨q.step, whole, clean⟩

end LoopLang.Parser

namespace LoopLang.Grammar

/-! ## The language -/

theorem parse_program_iff {source : String} {program : LoopLang.Program} :
    Program.parse source = .ok program ↔
      ∃ ts, (Cursor.ofSource source).results = ts.map .ok ∧ Program ts program :=
  ⟨Parser.derives_of_parseProgram fun _ => Cursor.lexed_of_mem_results,
    fun ⟨_, tokens, derived⟩ => Parser.parseProgram_of_derives rfl tokens derived⟩

theorem parse_expression_iff {source : String} {e : Expr} :
    Expr.parse source = .ok e ↔
      ∃ ts, (Cursor.ofSource source).results = ts.map .ok ∧ Expression ts e :=
  ⟨Parser.derives_of_parseExpression fun _ => Cursor.lexed_of_mem_results,
    fun ⟨_, tokens, derived⟩ => Parser.parseExpression_of_derives rfl tokens derived⟩

/-- A parser for just these tokens. -/
def parserOf (ts : List Token) : Parser := .ofResults (ts.map .ok) .start

theorem Program.unique {ts : List Token} {p q : LoopLang.Program} (hp : Program ts p)
    (hq : Program ts q) : p = q := by
  have parsed := Parser.parseProgram_of_derives (p := parserOf ts) rfl rfl hp
  have parsed' := Parser.parseProgram_of_derives (p := parserOf ts) rfl rfl hq
  exact Except.ok.inj (parsed.symm.trans parsed')

theorem Expression.unique {ts : List Token} {a b : Expr} (ha : Expression ts a)
    (hb : Expression ts b) : a = b := by
  have parsed := Parser.parseExpression_of_derives (p := parserOf ts) rfl rfl ha
  have parsed' := Parser.parseExpression_of_derives (p := parserOf ts) rfl rfl hb
  exact Except.ok.inj (parsed.symm.trans parsed')

/-- The parser accepts exactly the texts without lexical faults whose tokens are in the grammar, and
ends with the tree that they derive; no tokens derive two trees. -/
theorem parse_exact :
    (∀ (source : String) (program : LoopLang.Program),
      Program.parse source = .ok program ↔
        ∃ ts, (Cursor.ofSource source).results = ts.map .ok ∧ Program ts program)
    ∧ (∀ (source : String) (e : Expr),
      Expr.parse source = .ok e ↔
        ∃ ts, (Cursor.ofSource source).results = ts.map .ok ∧ Expression ts e)
    ∧ (∀ (ts : List Token) (p q : LoopLang.Program), Program ts p → Program ts q → p = q)
    ∧ ∀ (ts : List Token) (a b : Expr), Expression ts a → Expression ts b → a = b :=
  ⟨fun _ _ => parse_program_iff, fun _ _ => parse_expression_iff,
    fun _ _ _ => Program.unique, fun _ _ _ => Expression.unique⟩

end LoopLang.Grammar
