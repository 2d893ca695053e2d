import LoopLang.Proofs.Grammar.Rounds
import LoopLang.Proofs.Relocation.Lines

set_option autoImplicit false

/-! # One parser, many calls

A parser can be asked for an expression or a program again and again. Every call goes on reading
where the call before it stopped, and nothing else is left of that call: not the token that it
stopped at, nor the kind of the token in front of this one, nor any diagnostic. For the first step
of a call drops the token, a production looks at what is in front of a token only to find the border
of a function, and a call that fails gives its diagnostics away.

So the lexical faults of a text are shared out among the calls. What a call passes it reports
(`Parser.Goes` follows it step by step), and a call that goes to the end passes all that is left. -/

namespace LoopLang

/-- Reading some number of times leads from the one cursor to the other. -/
inductive Cursor.Reaches (c : Cursor) : Cursor → Prop where
  | refl : Reaches c c
  | next {d} (way : Reaches c d) : Reaches c d.next.2

theorem Cursor.Reaches.trans {c d e : Cursor} (first : c.Reaches d) (second : d.Reaches e) :
    c.Reaches e := by
  induction second with
  | refl => exact first
  | next _ ih => exact ih.next

namespace Parser

variable {α β : Type}

/-! ## Calls -/

/-- What a parser can be asked for. -/
inductive Entry where
  | expression
  | program
deriving DecidableEq, Repr

/-- What a call ends with: a tree, or the diagnostics that it reports. -/
abbrev Answer := Except (List Diagnostic) (Expr ⊕ Program)

/-- The lexical diagnostics of an answer. -/
def Answer.lexical : Answer → List Diagnostic
  | .ok _ => []
  | .error ds => ds.filter fun d => d.cause.isLexical

/-- One call. -/
def call (p : Parser) : Entry → Answer × Parser
  | .expression => (p.parseExpression.1.map .inl, p.parseExpression.2)
  | .program => (p.parseProgram.1.map .inr, p.parseProgram.2)

/-- The parser behind some calls. -/
def behindCalls : Parser → List Entry → Parser
  | p, [] => p
  | p, e :: es => (p.call e).2.behindCalls es

/-- The answers of some calls. -/
def answers : Parser → List Entry → List Answer
  | _, [] => []
  | p, e :: es => (p.call e).1 :: (p.call e).2.answers es

/-- The lexical diagnostics of some calls, those of earlier calls first. -/
def lexicalOf (p : Parser) (es : List Entry) : List Diagnostic :=
  (p.answers es).flatMap Answer.lexical

theorem behindCalls_append (p : Parser) (es fs : List Entry) :
    p.behindCalls (es ++ fs) = (p.behindCalls es).behindCalls fs := by
  induction es generalizing p with
  | nil => rfl
  | cons e es ih => exact ih _

/-! ## What stands in front -/

/-- The parser, with another kind of token in front. -/
def behind (p : Parser) (kind : TokenKind) : Parser := { p with previous := kind }

@[simp] theorem behind_current (p : Parser) (kind : TokenKind) :
    (p.behind kind).current = p.current := rfl

@[simp] theorem behind_step (p : Parser) (kind : TokenKind) : (p.behind kind).step = p.step := rfl

@[simp] theorem behind_size (p : Parser) (kind : TokenKind) : (p.behind kind).size = p.size := rfl

@[simp] theorem behind_note (p : Parser) (kind : TokenKind) (d : Diagnostic) :
    (p.behind kind).note d = (p.note d).behind kind := rfl

@[simp] theorem behind_report (p : Parser) (kind : TokenKind) :
    (p.behind kind).report = p.report := rfl

/-- The production does the same whatever token is in front, or it stops at once. -/
def Heedless (x : Production α) : Prop :=
  ∀ (p : Parser) (kind : TokenKind), x (p.behind kind) = x p
    ∨ ∃ stop, x p = .error stop p ∧ x (p.behind kind) = .error stop (p.behind kind)

theorem Heedless.bind {x : Production α} (h : Heedless x) (f : α → Production β) :
    Heedless (x >>= f) := by
  intro p kind
  rcases h p kind with same | ⟨stop, here, there⟩
  · left
    rw [bind_apply, bind_apply, same]
  · exact Or.inr ⟨stop, bind_of_error here, bind_of_error there⟩

/-- A primary expression takes a token first, and behind it that token is in front. -/
theorem heedless_primary (n : Nat) : Heedless (primary n) := by
  intro p kind
  cases n with
  | zero => exact Or.inr ⟨.outOfSteps, rfl, rfl⟩
  | succ n =>
    cases found : Head.ofTokenKind? p.current.kind with
    | some head =>
      left
      have taken : ∀ q : Parser, q.current = p.current →
          accept Head.ofTokenKind? q = .ok (some (p.current, head)) q.step := by
        intro q same
        simp [accept, same, found]
      rw [primary, bind_of_ok (taken p rfl), bind_of_ok (taken (p.behind kind) rfl), behind_step]
    | none =>
      right
      have refused : ∀ q : Parser, q.current = p.current → primary (n + 1) q =
          .error (.failed ⟨p.current.pos, .expectedExpression p.current.text⟩) q := by
        intro q same
        have nothing : accept Head.ofTokenKind? q = .ok none q := by simp [accept, same, found]
        rw [primary, bind_of_ok nothing, ← same]
        rfl
      exact ⟨_, refused p rfl, refused (p.behind kind) rfl⟩

theorem heedless_wholeExpression (n : Nat) : Heedless (wholeExpression n) :=
  ((heedless_primary n).bind _).bind _

/-- Away from a `let`, moving on takes a token first or is at the end of the text. -/
theorem recover_behind {p : Parser} (other : p.current.kind ≠ .keyword .letKw) (kind : TokenKind) :
    (p.behind kind).recover = p.recover
      ∨ p.current.kind = .eof ∧ p.recover = p ∧ (p.behind kind).recover = p.behind kind := by
  unfold recover
  rw [behind_size]
  by_cases atEnd : p.current.kind = .eof
  · exact Or.inr ⟨atEnd, skipToFunction_of_atBorder _ (Or.inl atEnd),
      skipToFunction_of_atBorder _ (Or.inl atEnd)⟩
  · left
    have goesOn : ∀ {n : Nat} {q : Parser}, q.current = p.current →
        skipToFunction (n + 1) q = skipToFunction n q.step := by
      intro n q same
      rw [skipToFunction, same]
      exact if_neg fun stops => stops.elim atEnd fun both => other both.1
    have shorter := size_step_lt atEnd
    obtain ⟨n, count⟩ : ∃ n, p.size = n + 1 := ⟨p.size - 1, by omega⟩
    rw [count, goesOn (q := p) rfl, goesOn (behind_current p kind), behind_step]

/-- A function that is read takes its `let` first. -/
theorem functionOrSkip_behind (n : Nat) (p : Parser) (kind : TokenKind) :
    functionOrSkip n (p.behind kind) = functionOrSkip n p
      ∨ ∃ q, q.current.kind = .eof ∧ functionOrSkip n p = .ok none q
        ∧ functionOrSkip n (p.behind kind) = .ok none (q.behind kind) := by
  by_cases letKw : p.current.kind = .keyword .letKw
  · left
    have same : function n (p.behind kind) = function n p := by
      rw [function_apply, function_apply]
      exact (if_pos letKw).trans (if_pos letKw).symm
    rw [functionOrSkip, functionOrSkip, same]
  · have failed : function n p = .error (.failed ⟨p.current.pos,
        .unexpectedToken p.current.text (TokenKind.keyword .letKw).text⟩) p := by
      rw [function_apply, if_neg letKw]
    have failed' : function n (p.behind kind) = .error (.failed ⟨p.current.pos,
        .unexpectedToken p.current.text (TokenKind.keyword .letKw).text⟩) (p.behind kind) := by
      rw [function_apply]
      exact if_neg letKw
    rw [functionOrSkip, functionOrSkip, failed, failed']
    generalize (⟨p.current.pos, _⟩ : Diagnostic) = d
    rcases @recover_behind (p.note d) letKw kind with same | ⟨atEnd, stays, stays'⟩
    · exact Or.inl (congrArg (EStateM.Result.ok none) same)
    · exact Or.inr ⟨p.note d, atEnd, congrArg (EStateM.Result.ok none) stays,
        congrArg (EStateM.Result.ok none) stays'⟩

theorem functions_behind (n rounds : Nat) (p : Parser) (kind : TokenKind) :
    functions n (rounds + 1) (p.behind kind) = functions n (rounds + 1) p
      ∨ ∃ fs q, functions n (rounds + 1) p = .ok fs q
        ∧ functions n (rounds + 1) (p.behind kind) = .ok fs (q.behind kind) := by
  rcases functionOrSkip_behind n p kind with same | ⟨q, atEnd, here, there⟩
  · left
    rw [functions, bind_apply, bind_apply, same]
  · right
    refine ⟨[], q, ?_, ?_⟩
    · rw [functions, bind_of_ok here, bind_of_ok (looksAt_of_kind atEnd)]
      rfl
    · have atEnd' : (q.behind kind).current.kind = .eof := atEnd
      rw [functions, bind_of_ok there, bind_of_ok (looksAt_of_kind atEnd')]
      rfl

/-! ## Nothing but the rest of the text counts -/

theorem conclude_behind (p : Parser) (kind : TokenKind) (tree : α) :
    ((p.behind kind).conclude tree).1 = (p.conclude tree).1 := by
  unfold conclude
  rw [behind_report]
  show (if p.noted.isEmpty then _ else _ : Except (List Diagnostic) α × Parser).1 = _
  cases p.noted <;> rfl

section Fresh

variable {p fresh : Parser} {kind : TokenKind} (first : p.step = fresh.step.behind kind)
include first

theorem parseExpression_behind : p.parseExpression.1 = fresh.parseExpression.1 := by
  have heedless := heedless_wholeExpression (p.step.size + 1) fresh.step kind
  have size : p.step.size = fresh.step.size := by rw [first, behind_size]
  rw [← first] at heedless
  rcases fresh.parseExpression_cases with ⟨e, q, read⟩ | ⟨d, q, stopped⟩
  · rw [parseExpression_of_ok read]
    rw [← size] at read
    rcases heedless with same | ⟨stop, here, _⟩
    · rw [parseExpression_of_ok (same.trans read)]
    · cases read.symm.trans here
  · rw [parseExpression_of_failed stopped]
    rw [← size] at stopped
    rcases heedless with same | ⟨stop, here, there⟩
    · rw [parseExpression_of_failed (same.trans stopped)]
    · cases stopped.symm.trans here
      rw [parseExpression_of_failed there, first, behind_note, behind_report]

theorem parseProgram_behind : p.parseProgram.1 = fresh.parseProgram.1 := by
  have heedless := functions_behind (p.step.size + 1) p.step.size fresh.step kind
  have size : p.step.size = fresh.step.size := by rw [first, behind_size]
  rw [← first] at heedless
  obtain ⟨fs, q, read⟩ := fresh.exists_functions
  rw [parseProgram_of_ok read]
  rw [← size] at read
  rcases heedless with same | ⟨fs', q', here, there⟩
  · rw [parseProgram_of_ok (same.trans read)]
  · cases read.symm.trans here
    rw [parseProgram_of_ok there, conclude_behind]

end Fresh

/-- Without diagnostics noted, a call answers as the first call of a new parser that has the same
results to come. -/
theorem call_eq_fresh {p : Parser} (clean : p.noted = []) (entry : Entry) :
    (p.call entry).1 = ((ofResults p.pending p.endPos).call entry).1 := by
  -- behind the first step the token that was looked at is in front, and nothing else is left of it
  have first : p.step = (ofResults p.pending p.endPos).step.behind p.current.kind := by
    rw [step, clean]
    rfl
  cases entry with
  | expression => exact congrArg (Except.map Sum.inl) (parseExpression_behind first)
  | program => exact congrArg (Except.map Sum.inr) (parseProgram_behind first)

/-! ## Step by step -/

/-- From the one parser to the other by moving on, and by noting faults of the grammar. -/
inductive Goes (p : Parser) : Parser → Prop where
  | refl : Goes p p
  | step {q} (way : Goes p q) : Goes p q.step
  | note {q d} (way : Goes p q) (syntactic : d.cause.isLexical = false) : Goes p (q.note d)

theorem Goes.trans {p q r : Parser} (first : p.Goes q) (second : q.Goes r) : p.Goes r := by
  induction second with
  | refl => exact first
  | step _ ih => exact ih.step
  | note _ syntactic ih => exact ih.note syntactic

theorem Passes.goes {p q : Parser} {ts : List Token} (pass : p.Passes ts q) : p.Goes q := by
  induction ts generalizing p with
  | nil =>
    obtain rfl : q = p := pass
    exact .refl
  | cons t ts ih => exact Goes.refl.step.trans (ih pass.2)

theorem Round.goes {n : Nat} {p q : Parser} {fs : List Function} {ds : List Diagnostic}
    (ready : Ready n p) (round : Round n p fs ds q) : p.Goes q := by
  cases round with
  | read result =>
    obtain ⟨ts, pass, _⟩ := (yields_function n p ready.lexed).of_ok result
    exact pass.goes
  | @skipped d r result =>
    obtain ⟨ts, pass, _, _, _, _, _, fault, _⟩ := function_failed ready result
    obtain ⟨us, skip, _⟩ := (r.note d).recover_passes
    exact (pass.goes.note fault.isLexical).trans skip.goes

theorem Rounds.goes {n : Nat} {p q : Parser} {fs : List Function} {ds : List Diagnostic}
    (ready : Ready n p) (rounds : Rounds n p fs ds q) : p.Goes q ∧ q.pending = [] := by
  induction rounds with
  | last round atEnd => exact ⟨round.goes ready, (round.spec ready).1.settled atEnd⟩
  | more round _ _ ih =>
    obtain ⟨way, nothing⟩ := ih (round.spec ready).1
    exact ⟨(round.goes ready).trans way, nothing⟩

theorem wholeExpression_failed_cases {n : Nat} {p q : Parser} {d : Diagnostic}
    (stopped : wholeExpression n p = .error (.failed d) q) :
    expression n p = .error (.failed d) q ∨ ∃ e, expression n p = .ok e q
      ∧ d = ⟨q.current.pos, .unexpectedToken q.current.text TokenKind.eof.text⟩ := by
  rw [wholeExpression, bind_apply] at stopped
  split at stopped
  · next e r read =>
    rw [bind_apply, require_apply] at stopped
    by_cases atEnd : r.current.kind = .eof
    · rw [if_pos atEnd] at stopped
      cases stopped
    · rw [if_neg atEnd] at stopped
      cases stopped
      exact Or.inr ⟨e, read, rfl⟩
  · next stop r failed =>
    cases stopped
    exact Or.inl failed

theorem wholeExpression_failed_passes {n : Nat} {p q : Parser} {d : Diagnostic} (lexed : p.Lexed)
    (stopped : wholeExpression n p = .error (.failed d) q) :
    ∃ ts, p.Passes ts q ∧ ∀ t ∈ ts, t.kind ≠ .eof := by
  have reads := yields_expression n p lexed
  rcases wholeExpression_failed_cases stopped with failed | ⟨e, read, _⟩
  · obtain ⟨ts, pass, notEnd, _⟩ := reads.of_failed failed
    exact ⟨ts, pass, notEnd⟩
  · obtain ⟨ts, pass, notEnd, _⟩ := reads.of_ok read
    exact ⟨ts, pass, notEnd⟩

/-- What a whole expression fails with is a fault at a token ahead. -/
theorem wholeExpression_failed_faultAt {n : Nat} {p q : Parser} {d : Diagnostic}
    (scanned : p.Scanned) (lexed : p.Lexed)
    (stopped : wholeExpression n p = .error (.failed d) q) : ∃ t ∈ p.ahead, FaultAt t d := by
  -- verdicts are known behind anything but an `end`, and the failure is the same there
  have stopped' : ∃ q', wholeExpression n (p.behind .eof) = .error (.failed d) q' := by
    rcases heedless_wholeExpression n p .eof with same | ⟨stop, here, there⟩
    · exact ⟨q, same.trans stopped⟩
    · cases stopped.symm.trans here
      exact ⟨_, there⟩
  obtain ⟨q', stopped'⟩ := stopped'
  have scanned' : (p.behind .eof).Scanned := ⟨scanned.tokens, scanned.faults⟩
  have inside : Inside (p.behind .eof).previous := by
    show Inside .eof
    decide
  show ∃ t ∈ (p.behind .eof).ahead, FaultAt t d
  rcases wholeExpression_failed_cases stopped' with failed | ⟨e, read, rfl⟩
  · rcases (decides_expression n fun _ : Unit => n).decided (p.behind .eof) lexed inside with
      ⟨r, noSteps⟩ | ⟨ts, v, r, pass, notEnd, result, holds, _⟩
    · cases failed.symm.trans noSteps
    · exact Verdict.faultAt (pass.ahead_eq scanned' notEnd) holds (result.symm.trans failed)
  · obtain ⟨ts, pass, notEnd, _⟩ := (yields_expression n (p.behind .eof) lexed).of_ok read
    rw [pass.ahead_eq scanned' notEnd]
    exact ⟨q'.current, List.mem_append_right _ List.mem_cons_self, .unsuited (.kind .eof)⟩

theorem Goes.scanned {p q : Parser} (way : p.Goes q) (scanned : p.Scanned) : q.Scanned := by
  induction way with
  | refl => exact scanned
  | step _ ih => exact ih.step
  | note _ _ ih => exact ⟨ih.tokens, ih.faults⟩

/-- On the way, lexical faults are noted as they are passed, and none is lost. -/
theorem Goes.lexical_told {p q : Parser} (way : p.Goes q) :
    (q.told.filter fun d => d.cause.isLexical) = p.told.filter fun d => d.cause.isLexical := by
  induction way with
  | refl => rfl
  | step _ ih => rw [told_step, ih]
  | @note q d _ syntactic ih =>
    rw [← ih, told, told, Parser.note]
    simp [syntactic]

/-! ## The place in the text -/

/-- The parser has read the source text up to the cursor: it has not read anything and looks at no
token of the text, or it looks at the token that was read last. -/
structure HasRead (source : String) (p : Parser) (c : Cursor) : Prop where
  pending : p.pending = c.results
  endPos : p.endPos = c.endPos
  last : (p.current.pos = .nowhere ∧ c = .ofSource source)
    ∨ ∃ b, (Cursor.ofSource source).Reaches b ∧ b.next = (.ok p.current, c)

theorem hasRead_ofSource (source : String) :
    HasRead source (ofSource source) (.ofSource source) :=
  ⟨rfl, rfl, Or.inl ⟨rfl, rfl⟩⟩

theorem HasRead.reaches {source : String} {p : Parser} {c : Cursor} (read : HasRead source p c) :
    (Cursor.ofSource source).Reaches c := by
  rcases read.last with ⟨_, rfl⟩ | ⟨b, way, last⟩
  · exact .refl
  · have more := way.next
    rwa [last] at more

/-- The first token among the results is read behind the faults in front of it. -/
theorem exists_read_firstToken (c : Cursor) (noted : List Diagnostic) :
    ∃ b d, c.Reaches b ∧ b.next = (.ok (firstToken c.endPos c.results noted).1, d)
      ∧ (firstToken c.endPos c.results noted).2.1 = d.results ∧ d.endPos = c.endPos := by
  generalize results : c.results = rs
  induction rs generalizing c noted with
  | nil =>
    rcases Cursor.results_cases (Prod.eta c.next).symm with more | ⟨_, nothing, atEnd⟩
    · cases results.symm.trans more
    · exact ⟨c, c.next.2, .refl, Prod.ext atEnd rfl, nothing.symm, c.next_endPos⟩
  | cons r rs ih =>
    rcases Cursor.results_cases (Prod.eta c.next).symm with more | ⟨nothing, _⟩
    · obtain ⟨rfl, rfl⟩ := List.cons.inj (results.symm.trans more)
      cases read : c.next.1 with
      | ok t => exact ⟨c, c.next.2, .refl, Prod.ext read rfl, rfl, c.next_endPos⟩
      | error e =>
        obtain ⟨b, d, way, last, rest, endPos⟩ := ih c.next.2 (e :: noted) rfl
        rw [c.next_endPos] at last rest endPos
        exact ⟨b, d, Cursor.Reaches.refl.next.trans way, last, rest, endPos⟩
    · cases results.symm.trans nothing

/-- A step reads on until it has read a token. -/
theorem HasRead.step {source : String} {p : Parser} {c : Cursor} (read : HasRead source p c) :
    ∃ b d, c.Reaches b ∧ b.next = (.ok p.step.current, d) ∧ HasRead source p.step d := by
  obtain ⟨b, d, way, last, pending, endPos⟩ := exists_read_firstToken c p.noted
  rw [← read.pending, ← read.endPos] at last pending
  rw [← read.endPos] at endPos
  exact ⟨b, d, way, last, pending, endPos.symm, Or.inr ⟨b, read.reaches.trans way, last⟩⟩

theorem Goes.exists_hasRead {source : String} {p q : Parser} {c : Cursor} (way : p.Goes q)
    (read : HasRead source p c) : ∃ d, HasRead source q d := by
  induction way with
  | refl => exact ⟨c, read⟩
  | step _ ih =>
    obtain ⟨_, read'⟩ := ih
    obtain ⟨_, d, _, _, later⟩ := read'.step
    exact ⟨d, later⟩
  | @note q e _ syntactic ih =>
    obtain ⟨d, read'⟩ := ih
    exact ⟨d, read'.pending, read'.endPos, read'.last⟩

/-! ## What a call does -/

theorem lexical_conclude (p : Parser) (tree : α) (node : α → Expr ⊕ Program) :
    Answer.lexical ((p.conclude tree).1.map node) = p.report.filter fun d => d.cause.isLexical := by
  unfold conclude report
  cases p.noted with
  | nil => rfl
  | cons d ds => rfl

theorem conclude_cleared (p : Parser) (tree : α) : (p.conclude tree).2 = p.cleared := by
  unfold conclude
  split
  · next empty =>
    rw [cleared, ← List.isEmpty_iff.mp empty]
  · rfl

/-- A call goes on to some parser, reports what is noted there, and keeps nothing of it. If it is a
call for a program or succeeds, nothing of the text is left. -/
theorem exists_call_goes {p : Parser} (scanned : p.Scanned) (entry : Entry) :
    ∃ q, p.Goes q ∧ (p.call entry).2 = q.cleared
      ∧ (p.call entry).1.lexical = (q.report.filter fun d => d.cause.isLexical)
      ∧ (entry = .program ∨ (∃ tree, (p.call entry).1 = .ok tree) → q.pending = []) := by
  have ready := scanned.ready
  have first : p.Goes p.step := Goes.refl.step
  cases entry with
  | program =>
    obtain ⟨fs, q, read⟩ := p.exists_functions
    obtain ⟨ds, rounds⟩ := exists_rounds read
    obtain ⟨way, nothing⟩ := rounds.goes ready
    refine ⟨q, first.trans way, ?_, ?_, fun _ => nothing⟩
    · rw [call, parseProgram_of_ok read, conclude_cleared]
    · rw [call, parseProgram_of_ok read]
      exact lexical_conclude q _ _
  | expression =>
    rcases p.parseExpression_cases with ⟨e, q, read⟩ | ⟨d, q, stopped⟩
    · obtain ⟨r, inner, atEnd, rfl⟩ := wholeExpression_eq_ok_iff.mp read
      obtain ⟨ts, pass, _⟩ := (yields_expression _ _ ready.lexed).of_ok inner
      have nothing : r.pending = [] := (ready.passes pass).settled atEnd
      refine ⟨r.step, (first.trans pass.goes).step, ?_, ?_, fun _ => ?_⟩
      · rw [call, parseExpression_of_ok read, conclude_cleared]
      · rw [call, parseExpression_of_ok read]
        exact lexical_conclude r.step _ _
      · exact List.suffix_nil.mp (nothing ▸ r.pending_step_suffix)
    · obtain ⟨ts, pass, _⟩ := wholeExpression_failed_passes ready.lexed stopped
      obtain ⟨_, _, fault⟩ := wholeExpression_failed_faultAt ready.scanned ready.lexed stopped
      have answer : p.call .expression = (.error (q.note d).report, (q.note d).cleared) := by
        rw [call, parseExpression_of_failed stopped]
        rfl
      rw [answer]
      refine ⟨q.note d, (first.trans pass.goes).note fault.isLexical, rfl, rfl, ?_⟩
      rintro (other | ⟨tree, success⟩)
      · cases other
      · cases success

/-- A parser between two calls. -/
structure Between (source : String) (p : Parser) : Prop where
  scanned : p.Scanned
  clean : p.noted = []
  read : ∃ c, HasRead source p c

theorem Scanned.lexical_faults {p : Parser} (scanned : p.Scanned) :
    ((Lexical.faults p.pending).filter fun d => d.cause.isLexical) = Lexical.faults p.pending :=
  List.filter_eq_self.mpr fun d mem => scanned.faults d (Lexical.mem_faults.mp mem)

theorem between_ofSource (source : String) : Between source (ofSource source) where
  scanned := scanned_ofSource source
  clean := rfl
  read := ⟨_, hasRead_ofSource source⟩

/-- Of the lexical faults `all`, a first part was `told` and the others are `left`. What was told is
in order if the faults are listed by place. -/
def SharedOut (all told left : List Diagnostic) : Prop :=
  ∃ front, front ++ left = all ∧ told.Perm front
    ∧ ((all.Pairwise fun d e => d.pos.notAfter e.pos) → told = front)

theorem SharedOut.append {all told left told' left' : List Diagnostic}
    (first : SharedOut all told left) (second : SharedOut left told' left') :
    SharedOut all (told ++ told') left' := by
  obtain ⟨front, rfl, perm, same⟩ := first
  obtain ⟨front', rfl, perm', same'⟩ := second
  refine ⟨front ++ front', List.append_assoc _ _ _, perm.append perm', fun sorted => ?_⟩
  rw [same sorted, same' (List.pairwise_append.mp sorted).2.1]

/-- A call reports the lexical faults of the text that it passes, and the others are still to
come. -/
theorem Between.call {source : String} {p : Parser} (between : Between source p) (entry : Entry) :
    Between source (p.call entry).2
      ∧ SharedOut (Lexical.faults p.pending) (p.call entry).1.lexical
          (Lexical.faults (p.call entry).2.pending) := by
  obtain ⟨q, way, left, answer, _⟩ := exists_call_goes between.scanned entry
  obtain ⟨c, read⟩ := between.read
  obtain ⟨d, read'⟩ := way.exists_hasRead read
  have scanned := way.scanned between.scanned
  have shared : (q.noted.reverse.filter fun d => d.cause.isLexical) ++ Lexical.faults q.pending =
      Lexical.faults p.pending := by
    have told := way.lexical_told
    rw [Parser.told, Parser.told, between.clean, List.filter_append, scanned.lexical_faults] at told
    exact told.trans between.scanned.lexical_faults
  rw [left, answer, report, Diagnostic.inOrder_filter]
  refine ⟨⟨⟨scanned.tokens, scanned.faults⟩, rfl, d, read'.pending, read'.endPos, read'.last⟩,
    _, shared, Diagnostic.inOrder_perm _, fun sorted => ?_⟩
  -- what was noted on the way was noted in the order of the text
  rw [← shared] at sorted
  exact Diagnostic.inOrder_of_pairwise (List.pairwise_append.mp sorted).1

/-! ## Many calls -/

/-- What some calls report of the lexical faults, and what is still to come behind them. -/
theorem Between.behindCalls {source : String} {p : Parser} (between : Between source p)
    (calls : List Entry) :
    Between source (p.behindCalls calls)
      ∧ SharedOut (Lexical.faults p.pending) (p.lexicalOf calls)
          (Lexical.faults (p.behindCalls calls).pending) := by
  induction calls generalizing p with
  | nil => exact ⟨between, [], rfl, .refl _, fun _ => rfl⟩
  | cons entry calls ih =>
    obtain ⟨between', here⟩ := between.call entry
    obtain ⟨between'', later⟩ := ih between'
    exact ⟨between'', here.append later⟩

/-- In a short text the lexical faults are listed by place. -/
theorem SharedOut.eq_of_short {source : String} {told left : List Diagnostic}
    (shared : SharedOut (Lexical.faultsOf source) told left)
    (short : source.length < UInt32.size - 1) : told ++ left = Lexical.faultsOf source := by
  obtain ⟨front, whole, _, same⟩ := shared
  have sorted := (Cursor.faultsOf_pairwise short).imp fun before => before.notAfter
  rw [same sorted, whole]

/-- **A used parser is as good as new.** Whatever calls a parser has behind it, it has read the text
up to some cursor, and the next call answers what a new parser at this cursor would. The lexical
diagnostics of the calls are the first of those that scanning the text tells, each once, and in
order too if the text has fewer than `2 ^ 32 - 1` characters; and as soon as a call was for a
program or has succeeded they are all of them, and no later call reports any. -/
theorem used_as_new (source : String) (calls : List Entry) :
    (∃ c, HasRead source ((ofSource source).behindCalls calls) c)
    ∧ (∀ c entry, HasRead source ((ofSource source).behindCalls calls) c →
        (((ofSource source).behindCalls calls).call entry).1 = ((ofCursor c).call entry).1)
    ∧ (∃ front, front <+: Lexical.faultsOf source
        ∧ ((ofSource source).lexicalOf calls).Perm front)
    ∧ (source.length < UInt32.size - 1 →
        (ofSource source).lexicalOf calls <+: Lexical.faultsOf source)
    ∧ ∀ entry,
        (entry = .program
          ∨ ∃ tree, (((ofSource source).behindCalls calls).call entry).1 = .ok tree) →
        ((ofSource source).lexicalOf (calls ++ [entry])).Perm (Lexical.faultsOf source)
        ∧ (source.length < UInt32.size - 1 →
            (ofSource source).lexicalOf (calls ++ [entry]) = Lexical.faultsOf source)
        ∧ ∀ later, ((ofSource source).behindCalls (calls ++ [entry])).lexicalOf later = [] := by
  have start := between_ofSource source
  obtain ⟨between, shared⟩ := start.behindCalls calls
  refine ⟨between.read, fun c entry read => ?_, ?_, fun short => ⟨_, shared.eq_of_short short⟩,
    fun entry settles => ?_⟩
  · rw [call_eq_fresh between.clean, read.pending, read.endPos]
    rfl
  · obtain ⟨front, whole, perm, _⟩ := shared
    exact ⟨front, ⟨_, whole⟩, perm⟩
  · obtain ⟨between', shared'⟩ := start.behindCalls (calls ++ [entry])
    have nothing : ((ofSource source).behindCalls (calls ++ [entry])).pending = [] := by
      obtain ⟨q, _, left, _, settled⟩ := exists_call_goes between.scanned entry
      rw [behindCalls_append]
      show (((ofSource source).behindCalls calls).call entry).2.pending = []
      rw [left]
      exact settled settles
    rw [nothing] at shared'
    refine ⟨?_, fun short => ?_, fun later => ?_⟩
    · obtain ⟨front, whole, perm, _⟩ := shared'
      obtain rfl : front = Lexical.faultsOf source := (List.append_nil _).symm.trans whole
      exact perm
    · exact (List.append_nil _).symm.trans (shared'.eq_of_short short)
    · obtain ⟨_, front, whole, perm, _⟩ := between'.behindCalls later
      rw [nothing] at whole
      exact ((List.append_eq_nil_iff.mp whole).1 ▸ perm).eq_nil

/-- A call for an expression stops in front of the second token and reports the fault between the
two; a call for a program reads on from there. -/
theorem used_as_new_expression_first :
    HasRead "1 $ 2 & let f x = x end"
        ((ofSource "1 $ 2 & let f x = x end").behindCalls [.expression])
        ⟨" & let f x = x end".toList, ⟨1, 6⟩⟩
      ∧ "1 $ 2 & let f x = x end".length < UInt32.size - 1
      ∧ (((ofSource "1 $ 2 & let f x = x end").behindCalls [.expression]).call .program).1 =
          ((ofCursor ⟨" & let f x = x end".toList, ⟨1, 6⟩⟩).call .program).1
      ∧ (ofSource "1 $ 2 & let f x = x end").lexicalOf [.expression, .program] =
          Lexical.faultsOf "1 $ 2 & let f x = x end" := by
  obtain ⟨_, same, _, _, all⟩ := used_as_new "1 $ 2 & let f x = x end" [.expression]
  have read : HasRead "1 $ 2 & let f x = x end"
      ((ofSource "1 $ 2 & let f x = x end").behindCalls [.expression])
      ⟨" & let f x = x end".toList, ⟨1, 6⟩⟩ :=
    ⟨by decide +kernel, by decide +kernel, Or.inr ⟨_, Cursor.Reaches.refl.next.next, rfl⟩⟩
  have short : "1 $ 2 & let f x = x end".length < UInt32.size - 1 := by decide
  exact ⟨read, short, same _ .program read, (all .program (Or.inl rfl)).2.1 short⟩

/-- Where the lines come round, one call may report two lexical faults in the other order. -/
theorem reported_out_of_order :
    ¬(ofSource (Lexical.farBelow " $" "$")).lexicalOf [.program] <+:
      Lexical.faultsOf (Lexical.farBelow " $" "$") := by
  have oneLine : '\n' ∉ " $".toList := by decide
  rw [Lexical.faultsOf, (Cursor.results_farBelow oneLine).1, ofSource_farBelow oneLine]
  decide +kernel

end Parser

end LoopLang
