import LoopLang.Proofs.Parser.Recursion
import LoopLang.Proofs.Parser.Reuse

set_option autoImplicit false

/-! # Parsing ends

Whatever is read, other than the end of the text, takes characters; productions recur behind a token
only; moving on to the next function takes tokens or stops; and each round of the loop over
functions takes a token or leaves the loop. The last is not for one reason: a function may fail
without taking a token, and moving on may stop at once, but not both, for a function does not fail
at the `let` where moving on stops, unless behind it.

So a parse ends on every text and behind all earlier calls: there is a result that all numbers of
steps and rounds lead to, once they are greater than the number of tokens. -/

namespace LoopLang

/-! ## Reading -/

namespace Cursor

theorem behindLayout_rest_suffix (inComment : Bool) (cs : List Char) (pos : Position) :
    (behindLayout inComment cs pos).rest <:+ cs := by
  induction cs generalizing inComment pos with
  | nil => exact List.suffix_refl _
  | cons c cs ih =>
    have later : ∀ b, (behindLayout b cs (pos.after c)).rest <:+ c :: cs :=
      fun b => (ih b _).trans (List.suffix_cons c cs)
    unfold behindLayout
    split
    · exact later _
    · split
      · exact later _
      · split
        · exact later _
        · exact List.suffix_refl _

/-- Reading goes forward. -/
theorem next_rest_suffix (c : Cursor) : c.next.2.rest <:+ c.rest := by
  refine List.IsSuffix.trans ?_ (behindLayout_rest_suffix false c.rest c.pos)
  rw [next]
  unfold readHere
  split
  · exact List.suffix_refl _
  · exact List.drop_suffix _ _

end Cursor

namespace Parser

/-! ## Moving on -/

/-- Being allowed to move on more often than there are tokens makes no difference. -/
theorem skipToFunction_eq_of_le {m n : Nat} {p : Parser} (hm : p.size ≤ m) (hn : p.size ≤ n) :
    skipToFunction m p = skipToFunction n p := by
  induction m generalizing n p with
  | zero =>
    have border := skipToFunction_atBorder (p := p) hm
    exact (skipToFunction_of_atBorder n border).symm
  | succ m ih =>
    by_cases border : p.AtBorder
    · rw [skipToFunction_of_atBorder _ border, skipToFunction_of_atBorder _ border]
    · have shorter := size_step_lt fun atEnd => border (Or.inl atEnd)
      obtain ⟨n, rfl⟩ : ∃ k, n = k + 1 := ⟨n - 1, by omega⟩
      have goesOn : ∀ k, skipToFunction (k + 1) p = skipToFunction k p.step :=
        fun _ => if_neg border
      rw [goesOn, goesOn]
      exact ih (by omega) (by omega)

/-- Away from a border, moving on takes a token first. -/
theorem recover_of_not_atBorder {p : Parser} (inside : ¬p.AtBorder) :
    p.recover = p.step.recover := by
  have shorter := size_step_lt fun atEnd => inside (Or.inl atEnd)
  have first : skipToFunction (p.size + 1) p = p.step.recover :=
    (if_neg inside).trans (skipToFunction_eq_of_le (Nat.le_of_lt shorter) (Nat.le_refl _))
  rw [← first]
  exact skipToFunction_eq_of_le (Nat.le_refl _) (Nat.le_succ _)

/-! ## Rounds of the loop over functions -/

/-- Tokens are taken on the way from the one parser to the other. -/
def Advances (p q : Parser) : Prop := ∃ ts, ts ≠ [] ∧ p.ahead = ts ++ q.ahead

theorem Advances.length_lt {p q : Parser} (way : p.Advances q) :
    q.ahead.length < p.ahead.length := by
  obtain ⟨ts, some, split⟩ := way
  have taken := List.length_pos_iff.mpr some
  rw [split, List.length_append]
  omega

theorem length_ahead_le (p : Parser) : p.ahead.length ≤ p.size + 1 := by
  have bound : (Lexical.tokens p.pending).length ≤ p.pending.length := List.length_filterMap_le _ _
  unfold ahead size
  split
  · simp
  · simp only [List.length_cons, List.length_append, List.length_nil]
    omega

/-- The tokens that a round takes; if there are none, it leaves as many as there were. -/
theorem Round.exists_ahead {n : Nat} {p q : Parser} {fs : List Function} {ds : List Diagnostic}
    (ready : Ready n p) (round : Round n p fs ds q) :
    ∃ ts, p.ahead = ts ++ q.ahead ∧ (ts = [] → q.size = p.size) := by
  cases round with
  | read result =>
    obtain ⟨ts, pass, notEnd, _⟩ := (yields_function n p ready.lexed).of_ok result
    refine ⟨ts, pass.ahead_eq ready.scanned notEnd, ?_⟩
    rintro rfl
    exact congrArg size pass
  | @skipped d q result =>
    obtain ⟨ts, pass, notEnd, _⟩ := function_failed ready result
    obtain ⟨us, skip, notEnd'⟩ := (q.note d).recover_passes
    have rest := skip.ahead_eq ((ready.passes pass).note d).scanned notEnd'
    refine ⟨ts ++ us, ?_, fun nothing => ?_⟩
    · rw [List.append_assoc, ← rest]
      exact pass.ahead_eq ready.scanned notEnd
    · obtain ⟨rfl, rfl⟩ := List.append_eq_nil_iff.mp nothing
      have stays : (q.note d).recover = q.note d := skip
      rw [stays, size_note, show q = p from pass]

/-- A round takes a token or comes to the end of the text. -/
theorem Ready.exists_functionOrSkip {n : Nat} {p : Parser} (ready : Ready n p) :
    ∃ found q, functionOrSkip n p = .ok found q ∧ Ready n q
      ∧ (q.current.kind = .eof ∨ q.size < p.size ∧ p.Advances q) := by
  obtain ⟨found, q, run, progress⟩ := functionOrSkip_progress ready.small
  obtain ⟨ds, round⟩ := exists_round run
  refine ⟨found, q, run, (round.spec ready).1, ?_⟩
  rcases progress with shorter | atEnd
  · obtain ⟨ts, split, same⟩ := round.exists_ahead ready
    exact Or.inr ⟨shorter, ts, fun nothing => Nat.ne_of_lt shorter (same nothing), split⟩
  · exact Or.inl atEnd

/-- The loop goes on behind so many rounds, and comes to the parser then. -/
inductive GoesOn (n : Nat) (p : Parser) : Nat → Parser → Prop where
  | start : GoesOn n p 0 p
  | round {k q found r} (way : GoesOn n p k q) (run : functionOrSkip n q = .ok found r)
      (notEnd : r.current.kind ≠ .eof) : GoesOn n p (k + 1) r

/-- For each round there is a token less ahead. -/
theorem GoesOn.spec {n k : Nat} {p q : Parser} (ready : Ready n p) (way : GoesOn n p k q) :
    Ready n q ∧ k + q.ahead.length ≤ p.ahead.length := by
  induction way with
  | start => exact ⟨ready, by omega⟩
  | round way run notEnd ih =>
    obtain ⟨ready', bound⟩ := ih
    obtain ⟨found, r, run', ready'', progress⟩ := ready'.exists_functionOrSkip
    cases run.symm.trans run'
    have fewer := (progress.resolve_left notEnd).2.length_lt
    exact ⟨ready'', by omega⟩

/-- The loop comes to an end, the same for all numbers of steps and rounds that are greater than the
number of tokens. -/
theorem Ready.exists_functions {p : Parser} (ready : Ready (p.size + 1) p) :
    ∃ fs q, ∀ n k, p.size < n → p.ahead.length ≤ k → functions n k p = .ok fs q := by
  generalize count : p.size = s
  induction s using Nat.strongRecOn generalizing p with
  | ind s ih =>
    subst count
    obtain ⟨found, q, run, ready', progress⟩ := ready.exists_functionOrSkip
    have same : ∀ n, p.size < n → functionOrSkip n p = .ok found q := fun n enough =>
      (agree_functionOrSkip enough (Nat.le_refl _) p (Nat.lt_succ_self _)).trans run
    have again : ∀ k, p.ahead.length ≤ k → ∃ j, k = j + 1 := fun k le =>
      Nat.exists_eq_add_one_of_ne_zero (Nat.ne_zero_of_lt (Nat.lt_of_lt_of_le (Nat.succ_pos _) le))
    by_cases atEnd : q.current.kind = .eof
    · refine ⟨found.toList, q, fun n k enough room => ?_⟩
      obtain ⟨k, rfl⟩ := again k room
      rw [functions, bind_of_ok (same n enough), bind_of_ok (looksAt_of_kind atEnd), if_pos rfl]
      rfl
    · obtain ⟨shorter, way⟩ := progress.resolve_left atEnd
      have settled : Ready (q.size + 1) q :=
        ⟨ready'.scanned, ready'.lexed, Nat.le_succ _, ready'.settled⟩
      obtain ⟨others, r, rest⟩ := ih q.size shorter settled rfl
      refine ⟨found.toList ++ others, r, fun n k enough room => ?_⟩
      obtain ⟨k, rfl⟩ := again k room
      have fewer := way.length_lt
      rw [functions, bind_of_ok (same n enough), bind_of_ok (looksAt_of_ne atEnd),
        if_neg (by decide), bind_of_ok (rest n k (by omega) (by omega))]
      rfl

/-! ## Calls -/

/-- A call for an expression comes to what all numbers of steps lead to that are greater than the
number of tokens. -/
theorem exists_parseExpression (p : Parser) :
    (∃ e q, p.parseExpression = q.conclude e
        ∧ ∀ n, p.step.size < n → wholeExpression n p.step = .ok e q)
      ∨ ∃ d q, p.parseExpression = (.error (q.note d).report, (q.note d).cleared)
        ∧ ∀ n, p.step.size < n → wholeExpression n p.step = .error (.failed d) q := by
  have same : ∀ n, p.step.size < n →
      wholeExpression n p.step = wholeExpression (p.step.size + 1) p.step := fun n enough =>
    agree_wholeExpression enough (Nat.le_refl _) p.step (Nat.lt_succ_self _)
  rcases p.parseExpression_cases with ⟨e, q, read⟩ | ⟨d, q, stopped⟩
  · exact Or.inl ⟨e, q, parseExpression_of_ok read, fun n enough => (same n enough).trans read⟩
  · exact Or.inr ⟨d, q, parseExpression_of_failed stopped,
      fun n enough => (same n enough).trans stopped⟩

theorem Scanned.length_ahead_step {p : Parser} (scanned : p.Scanned) :
    p.step.ahead.length = (Lexical.tokens p.pending).length + 1 := by
  rw [ahead_step scanned, List.length_append, List.length_singleton]

/-- A call for a program comes to what all numbers of steps and rounds lead to that are greater than
the number of tokens. -/
theorem Scanned.exists_parseProgram {p : Parser} (scanned : p.Scanned) :
    ∃ fs q, p.parseProgram = q.conclude ⟨fs⟩
      ∧ ∀ n k, p.step.size < n → (Lexical.tokens p.pending).length < k →
          functions n k p.step = .ok fs q := by
  obtain ⟨fs, q, all⟩ := scanned.ready.exists_functions
  refine ⟨fs, q, parseProgram_of_ok ?_, fun n k enough room => all n k enough ?_⟩
  · exact all _ _ (Nat.lt_succ_self _) p.step.length_ahead_le
  · rwa [scanned.length_ahead_step]

/-- In a call for a program, rounds take tokens or are the last, so there is at most one round more
than tokens. -/
theorem Scanned.goesOn {n k : Nat} {p q : Parser} (scanned : p.Scanned) (enough : p.step.size < n)
    (way : GoesOn n p.step k q) :
    k ≤ (Lexical.tokens p.pending).length
      ∧ ∃ found r, functionOrSkip n q = .ok found r
        ∧ (r.current.kind = .eof ∨ q.Advances r) := by
  have ready : Ready n p.step :=
    ⟨scanned.step, scanned.lexed_step, Nat.le_of_lt enough, scanned.pending_step⟩
  obtain ⟨ready', bound⟩ := way.spec ready
  have some : 0 < q.ahead.length := Nat.succ_pos _
  rw [scanned.length_ahead_step] at bound
  obtain ⟨found, r, run, _, progress⟩ := ready'.exists_functionOrSkip
  exact ⟨by omega, found, r, run, progress.imp_right And.right⟩

/-- **Parsing ends on every input.** Reading takes characters, or comes to the end of the text, and
a parser that moves on reads until it has read a token. Productions recur behind a token only, so
they are the only solution of their rules, and steps that are more than the tokens make no
difference. Moving on to the next function takes tokens until it stops. Behind whatever calls, a
call for an expression or a program has one result for all numbers of steps and rounds that are
greater than the number of tokens; and each round of the loop over functions takes tokens or leaves
the loop, so that there are at most as many rounds as tokens, and one more. -/
theorem parsing_ends :
    (∀ c later r, Cursor.next c = (r, later) → (∀ t, r = .ok t → t.kind ≠ .eof) →
      later.rest <:+ c.rest ∧ later.rest.length < c.rest.length)
    ∧ (∀ source p c, HasRead source p c → ∃ b d, c.Reaches b ∧ b.next = (.ok p.step.current, d)
      ∧ HasRead source p.step d)
    ∧ (∀ s g h, Productions.AgreeBelow s g h → g.OnwardBelow s →
      g.next.AgreeBelow (s + 1) h.next)
    ∧ (∀ g, (∀ s, Productions.OnwardBelow s g) ∧ g.next = g ↔ g = .plain)
    ∧ (∀ n, (Productions.withSteps n).AgreeBelow n .plain)
    ∧ (∀ p, (AtBorder p → p.recover = p)
      ∧ (¬p.AtBorder → p.step.size < p.size ∧ p.recover = p.step.recover))
    ∧ ∀ source calls p, p = (ofSource source).behindCalls calls →
      (∃ c, HasRead source p c)
      ∧ ((∃ e q, p.parseExpression = q.conclude e
          ∧ ∀ n, p.step.size < n → wholeExpression n p.step = .ok e q)
        ∨ ∃ d q, p.parseExpression = (.error (q.note d).report, (q.note d).cleared)
          ∧ ∀ n, p.step.size < n → wholeExpression n p.step = .error (.failed d) q)
      ∧ (∃ fs q, p.parseProgram = q.conclude ⟨fs⟩
        ∧ ∀ n k, p.step.size < n → (Lexical.tokens p.pending).length < k →
            functions n k p.step = .ok fs q)
      ∧ ∀ n k q, p.step.size < n → GoesOn n p.step k q →
        k ≤ (Lexical.tokens p.pending).length
        ∧ ∃ found r, functionOrSkip n q = .ok found r
          ∧ (r.current.kind = .eof ∨ q.Advances r) := by
  refine ⟨fun c later r read notEnd => ⟨?_, Cursor.next_length_lt read notEnd⟩,
    fun _ _ _ read => read.step, fun _ _ _ agree onward => agree.next onward,
    fun g => ⟨fun both => Productions.eq_plain both.1 both.2, ?_⟩, Productions.agree_plain,
    fun p => ⟨skipToFunction_of_atBorder _, fun inside => ⟨?_, recover_of_not_atBorder inside⟩⟩, ?_⟩
  · have forward := c.next_rest_suffix
    rwa [read] at forward
  · rintro rfl
    exact ⟨Productions.onward_plain, Productions.next_plain⟩
  · exact size_step_lt fun atEnd => inside (Or.inl atEnd)
  · rintro source calls p rfl
    obtain ⟨between, _⟩ := (between_ofSource source).behindCalls calls
    exact ⟨between.read, exists_parseExpression _, between.scanned.exists_parseProgram,
      fun _ _ _ enough way => between.scanned.goesOn enough way⟩

/-- In `end let`, the first round fails before it has taken a token, and the second one begins where
moving on would stop at once. -/
theorem parsing_ends_broken :
    ∃ q, GoesOn 3 (ofSource "end let").step 1 q ∧ q.AtBorder
      ∧ ∃ found r, functionOrSkip 3 q = .ok found r ∧ (r.current.kind = .eof ∨ q.Advances r) := by
  obtain ⟨_, _, _, _, _, _, calls⟩ := parsing_ends
  obtain ⟨_, _, _, rounds⟩ := calls "end let" [] _ rfl
  have first : functionOrSkip 3 (ofSource "end let").step = .ok none _ := rfl
  have way := GoesOn.start.round first (by decide)
  exact ⟨_, way, Or.inr (by decide), (rounds 3 1 _ (by decide) way).2⟩

end Parser

end LoopLang
