import LoopLang.Proofs.Grammar.Rounds
import LoopLang.Proofs.Grammar.TreeNodes
import LoopLang.Proofs.Relocation.Lines

set_option autoImplicit false

/-! # Faults are found at the earliest token

The first fault that a parse notes stands at the first token with which the tokens cease to begin
any text of the language. In front of it they still begin one, and what the fault tells to be
expected would have gone on with it. Such a text is made up from what the verdict promises; that
there is none once the token is there follows by reading that text as well: the verdict would be the
same on it, but it is read without a fault. -/

namespace LoopLang

variable {α : Type}

/-- All kinds of tokens. -/
def TokenKind.all : List TokenKind :=
  [eof, integer, identifier] ++ Symbol.all.map symbol ++ Keyword.all.map keyword

theorem TokenKind.mem_all (kind : TokenKind) : kind ∈ all := by
  cases kind with
  | symbol s => simp [all, s.mem_all]
  | keyword k => simp [all, k.mem_all]
  | eof | integer | identifier => simp [all]

/-- No two kinds of token have the same name. -/
theorem TokenKind.text_injective {a b : TokenKind} (same : a.text = b.text) : a = b := by
  have names : ∀ a ∈ all, ∀ b ∈ all, a.text = b.text → a = b := by decide
  exact names a a.mem_all b b.mem_all same

namespace Grammar

/-! ## Earliest faults -/

/-- Some text of the language begins with these tokens, or they are one together with its end. -/
def Viable (derives : List Token → α → Prop) (ts : List Token) : Prop :=
  Starts derives ts ∨ ∃ us a e, derives us a ∧ e.kind = .eof ∧ ts = us ++ [e]

/-- The cause tells the token `t` found behind `before`, and what would have gone on with a text. -/
def Explains (derives : List Token → α → Prop) (before : List Token) (t : Token) : Cause → Prop
  | .unexpectedToken found expected => found = t.text ∧ (∃ kind : TokenKind, kind.text = expected)
      ∧ ∀ k : Token, k.kind.text = expected → Viable derives (before ++ [k])
  | .expectedIdentifier found => found = t.text
      ∧ ∀ k : Token, k.kind = .identifier → Viable derives (before ++ [k])
  | .expectedExpression found => found = t.text
      ∧ ∀ k v, Number k v → Viable derives (before ++ [k])
  | .literalOutOfRange literal => literal = t.literal ∧ t.kind = .integer
  | .strayChar _ | .loneOperator _ _ => False

/-- The fault stands at the first of these tokens with which they cease to begin a text of the
language. -/
def EarliestFault (derives : List Token → α → Prop) (ts : List Token) (d : Diagnostic) : Prop :=
  ∃ before t after, ts = before ++ t :: after ∧ d.pos = t.pos ∧ Viable derives before
    ∧ ¬Viable derives (before ++ [t]) ∧ Explains derives before t d.cause

/-! ## Viable tokens -/

theorem Viable.exists_text {derives : List Token → α → Prop} {ts : List Token}
    (h : Viable derives ts) : ∃ us a e, derives us a ∧ e.kind = .eof ∧ ts <+: us ++ [e] := by
  rcases h with ⟨us, a, _, derived⟩ | ⟨us, a, e, derived, isEnd, rfl⟩
  · refine ⟨ts ++ us, a, .endOfText .nowhere, derived, rfl, ?_⟩
    rw [List.append_assoc]
    exact List.prefix_append _ _
  · exact ⟨us, a, e, derived, isEnd, List.prefix_rfl⟩

theorem Viable.of_append {derives : List Token → α → Prop} {ts : List Token} {k : Token}
    (h : Viable derives (ts ++ [k])) (spelled : k.Spelled) : Viable derives ts := by
  rcases h with start | ⟨us, a, e, derived, _, same⟩
  · exact Or.inl (start.of_append (List.forall_mem_singleton.mpr spelled))
  · obtain ⟨rfl, _⟩ := List.append_inj' same rfl
    exact Or.inl (starts_of_derives derived)

/-- A program may be one function. -/
theorem viable_program_of_starts {ts : List Token} (h : Starts Function ts) : Viable Program ts :=
  Or.inl (h.imp fun _ f function => ⟨⟨[f]⟩, .last function⟩)

/-- A function may stand in front of every program. -/
theorem Viable.behind {ts us : List Token} {f : LoopLang.Function} (function : Function ts f)
    (h : Viable Program us) : Viable Program (ts ++ us) := by
  rcases h with start | ⟨vs, program, e, derived, isEnd, rfl⟩
  · refine Or.inl (start.imp fun vs program derived => ⟨⟨f :: program.functions⟩, ?_⟩)
    rw [List.append_assoc]
    exact .cons function derived
  · exact Or.inr ⟨ts ++ vs, ⟨f :: program.functions⟩, e, .cons function derived, isEnd,
      (List.append_assoc _ _ _).symm⟩

theorem Explains.imp {derives : List Token → α → Prop} {before before' : List Token} {t : Token}
    {cause : Cause} (h : Explains derives before t cause)
    (viable : ∀ k, Viable derives (before ++ [k]) → Viable derives (before' ++ [k])) :
    Explains derives before' t cause := by
  unfold Explains at *
  split at h
  · exact ⟨h.1, h.2.1, fun k same => viable k (h.2.2 k same)⟩
  · exact ⟨h.1, fun k name => viable k (h.2 k name)⟩
  · exact ⟨h.1, fun k v number => viable k (h.2 k v number)⟩
  · exact h
  · exact h
  · exact h

end Grammar

namespace Parser

open Grammar (Viable Explains EarliestFault parserOf starts_of_derives)

/-! ## Reading another text -/

/-- Where a text and its end begin with some tokens, taking them leads in front of the last one. -/
theorem passes_of_front {p q : Parser} {us before : List Token} {e t : Token}
    (pass : p.Passes us q) (atEnd : q.current.kind = .eof) (isEnd : e.kind = .eof)
    (front : before ++ [t] <+: us ++ [e]) :
    ∃ r, p.Passes before r ∧ r.current.kind = t.kind ∧ (t.kind ≠ .eof → r.current = t) := by
  rcases List.prefix_concat_iff.mp front with whole | inside
  · obtain ⟨rfl, same⟩ := List.append_inj' whole rfl
    obtain rfl : t = e := (List.cons.inj same).1
    exact ⟨q, pass, atEnd.trans isEnd.symm, fun notEnd => absurd isEnd notEnd⟩
  · obtain ⟨after, rfl⟩ := inside
    rw [List.append_assoc] at pass
    obtain ⟨r, first, rest⟩ := passes_append.mp pass
    exact ⟨r, first, congrArg Token.kind rest.1, fun _ => rest.1⟩

/-! ## The token of a fault -/

/-- The verdict blames the token `t`, behind the tokens `before`. -/
def Verdict.Blames (ts : List Token) (p : Parser) (before : List Token) (t : Token) :
    Verdict α → Prop
  | .tree _ => False
  | .stuck _ => before = ts ∧ t = p.current
  | .overflow u => ts = before ++ [t] ∧ t = u ∧ t.kind = .integer

/-- What a verdict promises explains the fault that comes of it. -/
theorem Verdict.Holds.explains {β : Type} {v : Verdict α} {ts : List Token} {p q : Parser}
    {d : Diagnostic} {post : List Token → α → Parser → Prop} {starts : List Token → Prop}
    {derives : List Token → β → Prop} (holds : v.Holds post starts ts p)
    (failed : v.result p = .error (.failed d) q)
    (viable : ∀ us, starts us → Viable derives us) :
    ∃ before t, v.Blames ts p before t ∧ d.pos = t.pos ∧ Viable derives before
      ∧ Explains derives before t d.cause := by
  obtain ⟨_, ⟨w, rfl, rfl⟩ | ⟨t, rfl, rfl⟩⟩ := Verdict.failed failed
  · have goesOn : ∀ k, w.Suits k → Viable derives (ts ++ [k]) := fun k suits =>
      viable _ (holds k suits)
    obtain ⟨k, suits, spelled⟩ := w.exists_suits
    refine ⟨ts, p.current, ⟨rfl, rfl⟩, rfl, (goesOn k suits).of_append spelled, ?_⟩
    cases w with
    | kind kind =>
      exact ⟨rfl, ⟨kind, rfl⟩, fun k same => goesOn k (TokenKind.text_injective same)⟩
    | identifier => exact ⟨rfl, goesOn⟩
    | expression => exact ⟨rfl, fun k v number => goesOn k ⟨v, number⟩⟩
  · obtain ⟨kind, us, rfl, start⟩ := holds
    obtain ⟨k, suits, spelled⟩ := Wanted.expression.exists_suits
    exact ⟨us, t, ⟨rfl, rfl, kind⟩, rfl, (viable _ (start k suits)).of_append spelled, rfl, kind⟩

/-- Where the tokens up to the one that is blamed come next, the verdict is the same. -/
theorem Verdict.Blames.replay {v : Verdict α} {ts before : List Token} {t : Token}
    {p' q q' : Parser} (blames : v.Blames ts p' before t) (pass : q.Passes before q')
    (sameKind : q'.current.kind = t.kind) (same : t.kind ≠ .eof → q'.current = t) :
    ∃ r, q.Passes ts r ∧ (v.LooksAhead → Alike p' r) := by
  cases v with
  | tree a => exact blames.elim
  | stuck w =>
    obtain ⟨rfl, rfl⟩ := blames
    exact ⟨q', pass, fun _ => Or.inl sameKind.symm⟩
  | overflow u =>
    obtain ⟨rfl, rfl, kind⟩ := blames
    have here := same (by rw [kind]; decide)
    exact ⟨q'.step, pass.trans ⟨here, rfl⟩, nofun⟩

theorem Verdict.Blames.ahead_eq {v : Verdict α} {ts before : List Token} {t : Token}
    {p p' : Parser} (blames : v.Blames ts p' before t) (front : p.ahead = ts ++ p'.ahead) :
    ∃ after, p.ahead = before ++ t :: after := by
  cases v with
  | tree a => exact blames.elim
  | stuck w =>
    obtain ⟨rfl, rfl⟩ := blames
    exact ⟨_, front⟩
  | overflow u =>
    obtain ⟨rfl, _⟩ := blames
    rw [List.append_assoc] at front
    exact ⟨p'.ahead, front⟩

/-! ## Programs -/

/-- A program is read function by function. -/
theorem read_first {us : List Token} {fs : List Function} (derived : Grammar.Functions us fs)
    {p q : Parser} (pass : p.Passes us q) :
    ∃ ts f vs r, us = ts ++ vs ∧ Grammar.Function ts f ∧ p.Passes ts r ∧ r.Passes vs q
      ∧ function p.size p = .ok f r ∧ (vs ≠ [] → ∃ gs, Grammar.Functions vs gs) := by
  cases derived with
  | @last ts f function =>
    exact ⟨us, f, [], q, (List.append_nil us).symm, function, pass, rfl,
      read_function function (Nat.le_refl _) pass, fun nonempty => absurd rfl nonempty⟩
  | @cons ts vs f gs function others =>
    obtain ⟨r, first, rest⟩ := passes_append.mp pass
    exact ⟨ts, f, vs, r, rfl, function, first, rest,
      read_function function (Nat.le_refl _) first, fun _ => ⟨gs, others⟩⟩

/-- A program is read without a fault. -/
theorem exists_reader (us : List Token) : ∃ p q : Parser, p.Passes us q ∧ q.current.kind = .eof
    ∧ p.previous = .eof := by
  obtain ⟨q, pass, atEnd, _⟩ := passes_pending (p := parserOf us) rfl
  exact ⟨(parserOf us).step, q, pass, by rw [atEnd]; rfl, rfl⟩

/-- No program begins with the tokens up to a fault in its first function. -/
theorem FunctionRun.not_viable {n : Nat} {p p' : Parser} {ts before : List Token} {t : Token}
    {v : Verdict Function} (run : FunctionRun n p ts v p') (blames : v.Blames ts p' before t) :
    ¬Viable Grammar.Program (before ++ [t]) := by
  intro viable
  obtain ⟨us, program, e, derived, isEnd, front⟩ := viable.exists_text
  obtain ⟨q, q₁, pass, atEnd, _⟩ := exists_reader us
  obtain ⟨q', taken, sameKind, same⟩ := passes_of_front pass atEnd isEnd front
  obtain ⟨r, taken', alike⟩ := blames.replay taken sameKind same
  have notLet : ts = [] → q.current.kind ≠ .keyword .letKw := by
    intro nothing
    obtain ⟨notLet, rfl⟩ := run.nothing nothing
    obtain ⟨rfl, rfl⟩ := blames
    have pass := run.pass
    rw [nothing] at pass taken
    obtain rfl : p' = p := pass
    obtain rfl : q' = q := taken
    rwa [sameKind]
  have again := run.again (Nat.le_refl _) taken' alike notLet
  obtain ⟨_, f, _, r', _, _, _, _, read, _⟩ := read_first derived pass
  have both : v.result r = .ok f r' := again.symm.trans read
  cases v with
  | tree a => exact blames
  | stuck w => cases both
  | overflow u => cases both

/-- A program that begins with a function and goes on has a program behind it. -/
theorem exists_others {ts us vs : List Token} {f : Function} {t e : Token} {program : Program}
    (function : Grammar.Function ts f) (notEnd : t.kind ≠ .eof)
    (derived : Grammar.Program vs program) (isEnd : e.kind = .eof)
    (front : ts ++ t :: us <+: vs ++ [e]) :
    ∃ ws others, vs = ts ++ ws ∧ Grammar.Program ws others := by
  have start : ts ++ [t] <+: ts ++ t :: us := (List.prefix_append_right_inj ts).mpr ⟨us, rfl⟩
  obtain ⟨q, q₁, pass, atEnd, _⟩ := exists_reader vs
  obtain ⟨q', taken, _, same⟩ := passes_of_front pass atEnd isEnd (start.trans front)
  have here := same notEnd
  obtain ⟨ts', f', ws, r, rfl, _, first, _, read, others⟩ := read_first derived pass
  -- both functions are read from the same parser
  have read' := read_function function (Nat.le_refl _) taken
  obtain rfl : r = q' := by
    rw [read] at read'
    cases read'
    rfl
  have away : r.current.kind ≠ .eof := by rwa [here]
  obtain rfl : ts = ts' := by
    have front₁ : ts <+: ts' ++ (ws ++ [e]) := by
      rw [← List.append_assoc]
      exact (List.prefix_append ts _).trans front
    rcases List.prefix_or_prefix_of_prefix front₁ (List.prefix_append ts' _) with shorter | longer
    · exact taken.eq_of_front first away shorter
    · exact (first.eq_of_front taken away longer).symm
  rw [List.append_assoc, List.prefix_append_right_inj] at front
  have nonempty : ws ≠ [] := by
    rintro rfl
    obtain ⟨rfl, _⟩ := List.cons_prefix_cons.mp front
    exact notEnd isEnd
  obtain ⟨gs, derived'⟩ := others nonempty
  exact ⟨ws, ⟨gs⟩, rfl, derived'⟩

theorem viable_of_behind {ts us : List Token} {f : Function} {t : Token}
    (function : Grammar.Function ts f) (notEnd : t.kind ≠ .eof)
    (h : Viable Grammar.Program (ts ++ t :: us)) : Viable Grammar.Program (t :: us) := by
  rcases h with ⟨more, program, spelled, derived⟩ | ⟨vs, program, e, derived, isEnd, same⟩
  · have front : ts ++ t :: us <+: ts ++ t :: us ++ more ++ [Token.endOfText .nowhere] := by
      rw [List.append_assoc _ more]
      exact List.prefix_append _ _
    obtain ⟨ws, others, same, derived'⟩ := exists_others function notEnd derived rfl front
    rw [List.append_assoc, List.append_cancel_left_eq] at same
    exact Or.inl ⟨more, others, spelled, same ▸ derived'⟩
  · have front : ts ++ t :: us <+: vs ++ [e] := same ▸ List.prefix_rfl
    obtain ⟨ws, others, rfl, derived'⟩ := exists_others function notEnd derived isEnd front
    rw [List.append_assoc, List.append_cancel_left_eq] at same
    exact Or.inr ⟨ws, others, e, derived', isEnd, same⟩

theorem EarliestFault.behind {ts us : List Token} {f : Function} {d : Diagnostic}
    (function : Grammar.Function ts f) (notEnd : ∀ t ∈ us.head?, t.kind ≠ .eof)
    (h : EarliestFault Grammar.Program us d) : EarliestFault Grammar.Program (ts ++ us) d := by
  obtain ⟨before, t, after, rfl, place, viable, notViable, explains⟩ := h
  have goesOn : ∀ {vs : List Token}, Viable Grammar.Program (before ++ vs) →
      Viable Grammar.Program (ts ++ before ++ vs) := by
    intro vs viable
    rw [List.append_assoc]
    exact viable.behind function
  refine ⟨ts ++ before, t, after, (List.append_assoc _ _ _).symm, place, viable.behind function,
    fun viable' => notViable ?_, ?_⟩
  · rw [List.append_assoc] at viable'
    cases before with
    | nil => exact viable_of_behind function (notEnd t rfl) viable'
    | cons u before => exact viable_of_behind function (notEnd u rfl) viable'
  · exact explains.imp fun k => goesOn

/-- The fault of a function that does not parse stands at the earliest token. -/
theorem earliest_of_function {n : Nat} {p q : Parser} {d : Diagnostic} (ready : Ready n p)
    (stopped : function n p = .error (.failed d) q) :
    EarliestFault Grammar.Program p.ahead d := by
  obtain ⟨ts, v, p', run⟩ := exists_functionRun ready.lexed ready.small
  obtain ⟨before, t, blames, place, viable, explains⟩ :=
    run.holds.explains (run.result.symm.trans stopped) fun us => Grammar.viable_program_of_starts
  obtain ⟨after, front⟩ := blames.ahead_eq (run.pass.ahead_eq ready.scanned run.notEnd)
  exact ⟨before, t, after, front, place, viable, run.not_viable blames, explains⟩

/-- Functions that are read before the first fault only put their tokens in front. -/
theorem Rounds.earliest {n : Nat} {p q : Parser} {fs : List Function} {ds : List Diagnostic}
    (rounds : Rounds n p fs ds q) (ready : Ready n p) :
    ∀ d ∈ ds.head?, EarliestFault Grammar.Program p.ahead d := by
  induction rounds with
  | last round _ =>
    cases round with
    | read result => exact nofun
    | skipped result =>
      rintro _ ⟨⟩
      exact earliest_of_function ready result
  | @more p fs ds q gs es r round notEnd rest ih =>
    cases round with
    | read result =>
      obtain ⟨ts, pass, taken, function⟩ := (yields_function _ _ ready.lexed).of_ok result
      intro d first
      rw [pass.ahead_eq ready.scanned taken]
      have next : ∀ t ∈ q.ahead.head?, t.kind ≠ .eof := by
        rintro _ ⟨⟩
        exact notEnd
      exact EarliestFault.behind function next (ih (ready.passes pass) d first)
    | skipped result =>
      rintro _ ⟨⟩
      exact earliest_of_function ready result

/-! ## Expressions -/

/-- An expression that begins with the tokens up to `t` is read as a whole, past all of them but
the last. -/
theorem exists_reading {before : List Token} {t : Token}
    (viable : Viable Grammar.Expression (before ++ [t])) :
    ∃ n p q e r, p.previous = .eof ∧ p.Passes before q ∧ q.current.kind = t.kind
      ∧ (t.kind ≠ .eof → q.current = t) ∧ expression n p = .ok e r ∧ r.current.kind = .eof := by
  obtain ⟨us, e, k, derived, isEnd, front⟩ := viable.exists_text
  obtain ⟨p, r, pass, atEnd, fresh⟩ := exists_reader us
  obtain ⟨q, taken, sameKind, same⟩ := passes_of_front pass atEnd isEnd front
  have closing : Closing r.current.kind := by rw [atEnd]; decide
  exact ⟨p.size + 1, p, q, e, r, fresh, taken, sameKind, same,
    readsAs_expression derived _ p r (Nat.lt_succ_self _) pass closing, atEnd⟩

theorem syntactic_of_failed {v : Verdict α} {p q : Parser} {d : Diagnostic}
    (failed : v.result p = .error (.failed d) q) : d.cause.isLexical = false := by
  obtain ⟨_, ⟨w, _, rfl⟩ | ⟨t, _, rfl⟩⟩ := Verdict.failed failed
  · exact w.cause_isLexical _
  · rfl

section Expressions

variable {ts : List Token} {p p' : Parser}

/-- Whatever begins with a whole expression and another token than its end is no expression. -/
theorem not_viable_behind {e : Expr} (start : p.previous = .eof)
    (repeats : Repeats expression p ts (.tree e) p') (notEnd : p'.current.kind ≠ .eof) :
    ¬Viable Grammar.Expression (ts ++ [p'.current]) := by
  intro viable
  obtain ⟨n, q, q', e', r, start', taken, sameKind, _, read, atEnd⟩ := exists_reading viable
  -- the expression would have ended at this token
  rcases repeats n q q' (start'.trans start.symm) taken fun _ => Or.inl sameKind.symm with
    again | ⟨_, noSteps⟩
  · cases again.symm.trans read
    exact notEnd (sameKind.symm.trans atEnd)
  · cases noSteps.symm.trans read

/-- No expression begins with the tokens up to a fault in it. -/
theorem not_viable_of_blames {v : Verdict Expr} {before : List Token} {t : Token}
    (start : p.previous = .eof) (repeats : Repeats expression p ts v p')
    (blames : v.Blames ts p' before t) : ¬Viable Grammar.Expression (before ++ [t]) := by
  intro viable
  obtain ⟨n, q, q', e', r, start', taken, sameKind, same, read, _⟩ := exists_reading viable
  obtain ⟨q'', taken, alike⟩ := blames.replay taken sameKind same
  have again : expression n q = v.result q'' ∨ ∃ s, expression n q = .error .outOfSteps s :=
    repeats n q q'' (start'.trans start.symm) taken alike
  rw [read] at again
  cases v with
  | tree e => exact blames
  | stuck w => exact again.elim nofun nofun
  | overflow t => exact again.elim nofun nofun

/-- The end of the text is wanted behind a whole expression. -/
theorem earliest_of_behind {e : Expr} {after : List Token} (start : p.previous = .eof)
    (derived : Grammar.Expression ts e) (repeats : Repeats expression p ts (.tree e) p')
    (front : p.ahead = ts ++ p'.current :: after) (notEnd : p'.current.kind ≠ .eof) :
    EarliestFault Grammar.Expression p.ahead
      ⟨p'.current.pos, .unexpectedToken p'.current.text TokenKind.eof.text⟩ := by
  have ends : ∀ k : Token, k.kind = .eof → Viable Grammar.Expression (ts ++ [k]) :=
    fun k isEnd => Or.inr ⟨ts, e, k, derived, isEnd, rfl⟩
  exact ⟨ts, p'.current, after, front, rfl, Or.inl (starts_of_derives derived),
    not_viable_behind start repeats notEnd, rfl, ⟨.eof, rfl⟩,
    fun k same => ends k (TokenKind.text_injective same)⟩

/-- The fault of an expression that does not parse stands at the earliest token too, and so does one
behind a whole expression. -/
theorem earliest_of_wholeExpression {n : Nat} {q : Parser} {d : Diagnostic} (ready : Ready n p)
    (start : p.previous = .eof) (stopped : wholeExpression n p = .error (.failed d) q) :
    EarliestFault Grammar.Expression p.ahead d ∧ d.cause.isLexical = false
      ∧ ∃ ts, p.Passes ts q := by
  have inside : Inside p.previous := by rw [start]; decide
  rcases (decides_expression n id).decided p ready.lexed inside with
    ⟨r, noSteps⟩ | ⟨ts, v, p', pass, notEnd, result, holds, repeats⟩
  · rw [wholeExpression, bind_of_error noSteps] at stopped
    cases stopped
  have front := pass.ahead_eq ready.scanned notEnd
  by_cases whole : ∃ e, v = .tree e
  · obtain ⟨e, rfl⟩ := whole
    rw [wholeExpression, bind_of_ok result, bind_apply, require_apply] at stopped
    by_cases atEnd : p'.current.kind = .eof
    · rw [if_pos atEnd] at stopped
      cases stopped
    rw [if_neg atEnd] at stopped
    cases stopped
    exact ⟨earliest_of_behind start holds repeats front atEnd, rfl, ts, pass⟩
  · have failed : v.result p' = .error (.failed d) q := by
      cases v with
      | tree e => exact absurd ⟨e, rfl⟩ whole
      | stuck w => rwa [wholeExpression, bind_of_error result] at stopped
      | overflow t => rwa [wholeExpression, bind_of_error result] at stopped
    obtain ⟨rfl, _⟩ := Verdict.failed failed
    obtain ⟨before, t, blames, place, viable, explains⟩ :=
      holds.explains failed fun us => Or.inl
    obtain ⟨after, split⟩ := blames.ahead_eq front
    exact ⟨⟨before, t, after, split, place, viable, not_viable_of_blames start repeats blames,
      explains⟩, syntactic_of_failed failed, ts, pass⟩

end Expressions

/-- A parse of an expression reports no fault or one, which stands at the earliest token. -/
theorem earliest_of_parseExpression {p : Parser} (scanned : p.Scanned) (fresh : p.faults = [])
    (start : p.current.kind = .eof) :
    syntaxErrors p.parseExpression.1 = [] ∨ ∃ d, syntaxErrors p.parseExpression.1 = [d]
      ∧ EarliestFault Grammar.Expression p.step.ahead d := by
  have clean : p.step.faults = [] := (faults_step scanned).trans fresh
  unfold parseExpression
  split
  · next e q result =>
    left
    obtain ⟨r, read, _, rfl⟩ := wholeExpression_eq_ok_iff.mp result
    obtain ⟨ts, pass, _⟩ := (yields_expression _ _ scanned.lexed_step).of_ok read
    rw [syntaxErrors_conclude, faults_step (pass.scanned scanned.step),
      pass.faults_eq scanned.step, clean]
    rfl
  · next d q stopped =>
    obtain ⟨earliest, syntactic, ts, pass⟩ :=
      earliest_of_wholeExpression scanned.ready start stopped
    refine Or.inr ⟨d, ?_, earliest⟩
    rw [syntaxErrors_report, faults_note syntactic, pass.faults_eq scanned.step, clean]
    rfl
  · next q stopped =>
    exact (wholeExpression_ne_outOfSteps (Nat.lt_succ_self _) stopped).elim

end Parser

namespace Grammar

/-- **The first fault stands at the earliest token.** Of the tokens of a text and its end, it stands
at the first one with which they cease to begin a text of the language, and what it tells to be
expected would have gone on with one. In a program of fewer than `2 ^ 32 - 1` characters this is the
first fault by place, and in any other it is among the faults reported. In an expression it is the
only fault. -/
theorem first_fault_earliest (source : String) :
    (syntaxErrors (Program.parse source) = [] ∨
      ∃ d ∈ syntaxErrors (Program.parse source),
        EarliestFault Program (Lexical.tokensToEnd source) d
        ∧ (source.length < UInt32.size - 1 →
            ∃ later, syntaxErrors (Program.parse source) = d :: later
              ∧ ∀ e ∈ later, d.pos.Before e.pos))
    ∧ (syntaxErrors (Expr.parse source) = [] ∨
      ∃ d, syntaxErrors (Expr.parse source) = [d]
        ∧ EarliestFault Expression (Lexical.tokensToEnd source) d) := by
  have scanned := Parser.scanned_ofSource source
  have ahead := Parser.ahead_ofSource source
  constructor
  · obtain ⟨fs, ds, q, rounds, perm, sorted, _⟩ := Parser.rounds_of_parseProgram scanned rfl
    have first := rounds.earliest scanned.ready
    rw [ahead] at first
    cases ds with
    | nil => exact Or.inl perm.eq_nil
    | cons d later =>
      refine Or.inr ⟨d, perm.mem_iff.mpr List.mem_cons_self, first d rfl, fun short => ?_⟩
      have places := Parser.pairwise_ofSource short
      have order := rounds.strict scanned.ready
        (places.sublist (Parser.suspects_suffix _).sublist)
      exact ⟨later, sorted places, (List.pairwise_cons.mp order).1⟩
  · have one := Parser.earliest_of_parseExpression scanned rfl rfl
    rwa [ahead] at one

/-- Two faults of a short text, the earlier one first. -/
theorem first_fault_earliest_end :
    "end let )".length < UInt32.size - 1
      ∧ ∃ d later, syntaxErrors (Program.parse "end let )") = d :: later
        ∧ EarliestFault Program (Lexical.tokensToEnd "end let )") d
        ∧ ∀ e ∈ later, d.pos.Before e.pos := by
  have short : "end let )".length < UInt32.size - 1 := by decide
  rcases (first_fault_earliest "end let )").1 with none | ⟨d, _, earliest, first⟩
  · exact absurd none (by decide +kernel)
  · obtain ⟨later, errors, order⟩ := first short
    exact ⟨short, d, later, errors, earliest, order⟩

theorem not_viable_of_head {t : Token} {ts : List Token} (notLet : t.kind ≠ .keyword .letKw)
    (notEnd : t.kind ≠ .eof) : ¬Viable Program (t :: ts) := by
  intro viable
  obtain ⟨us, program, e, derived, isEnd, front⟩ := viable.exists_text
  cases us with
  | nil =>
    obtain ⟨rfl, _⟩ := List.cons_prefix_cons.mp front
    exact notEnd isEnd
  | cons u us =>
    obtain ⟨rfl, _⟩ := List.cons_prefix_cons.mp front
    exact notLet (Functions.head derived t rfl)

/-- Where the lines come round, the first fault by place need not be the earliest one: of these two
texts each has a fault, and that of the second one comes first. -/
theorem later_fault_first :
    ∃ d later, syntaxErrors (Program.parse (Lexical.farBelow "      end" "let )")) = d :: later
      ∧ (∀ e ∈ later, d.pos.Before e.pos)
      ∧ ¬EarliestFault Program (Lexical.tokensToEnd (Lexical.farBelow "      end" "let )")) d := by
  have oneLine : '\n' ∉ "      end".toList := by decide
  obtain ⟨results, endPos⟩ := Cursor.results_farBelow (t := "let )") oneLine
  have errors : syntaxErrors (Program.parse (Lexical.farBelow "      end" "let )")) =
      [⟨⟨1, 5⟩, .expectedIdentifier ")"⟩, ⟨⟨1, 7⟩, .unexpectedToken "end" "let"⟩] := by
    rw [Program.parse, Parser.ofSource_farBelow oneLine]
    decide +kernel
  have tokens : Lexical.tokensToEnd (Lexical.farBelow "      end" "let )") =
      ⟨.keyword .endKw, "end", ⟨1, 7⟩⟩ :: Lexical.tokensToEnd "let )" := by
    rw [Lexical.tokensToEnd, Lexical.tokensOf, results, endPos]
    decide +kernel
  refine ⟨_, _, errors, by decide, ?_⟩
  rintro ⟨before, t, after, split, place, viable, _⟩
  rw [tokens] at split
  cases before with
  | nil =>
    obtain ⟨rfl, _⟩ := List.cons.inj split
    cases place
  | cons u before =>
    obtain ⟨rfl, _⟩ := List.cons.inj split
    exact not_viable_of_head (by decide) (by decide) viable

end Grammar

end LoopLang
