import LoopLang.Parser.Grammar

set_option autoImplicit false

/-! # Productions end

Every production ends on its own when it is given more steps than there are tokens left, and no
production ever brings tokens back: `Ends n x` says both for parsers of fewer than `n` tokens, and
`Takes n x` says besides that `x` takes a token when it ends with a tree. The productions are gone
through rule by rule; one fewer step is left exactly where one more token is taken. The loop over
functions ends too, because each round takes a token or stops at the end of the text. -/

namespace LoopLang.Parser

variable {α β : Type}

/-! ## Tokens left -/

/-- A step notes the diagnostics in front of the first token and takes the token, or it comes to the
end of the text, with nothing left. -/
theorem step_spec (p : Parser) :
    ∃ ds : List Diagnostic, p.step.noted = ds.reverse ++ p.noted
      ∧ (p.pending = ds.map .error ++ .ok p.step.current :: p.step.pending
        ∨ p.pending = ds.map .error ∧ p.step.pending = []
          ∧ p.step.current = .endOfText p.endPos) := by
  unfold step
  dsimp only
  generalize p.noted = noted
  generalize p.pending = results
  induction results generalizing noted with
  | nil => exact ⟨[], rfl, .inr ⟨rfl, rfl, rfl⟩⟩
  | cons r later ih =>
    cases r with
    | ok t => exact ⟨[], rfl, .inl rfl⟩
    | error d =>
      obtain ⟨ds, same, rest⟩ := ih (d :: noted)
      refine ⟨d :: ds, by rw [firstToken, same]; simp, ?_⟩
      exact rest.imp (congrArg _) (And.imp_left (congrArg _))

theorem size_step_le_length (p : Parser) : p.step.size ≤ p.pending.length := by
  obtain ⟨ds, _, split | ⟨_, nothing, atEnd⟩⟩ := p.step_spec
  · rw [split, size, List.length_append, List.length_cons]
    split <;> omega
  · simp [size, nothing, atEnd, Token.endOfText]

theorem size_step_le (p : Parser) : p.step.size ≤ p.size :=
  Nat.le_trans p.size_step_le_length (Nat.le_add_right _ _)

theorem size_step_lt {p : Parser} (h : p.current.kind ≠ .eof) : p.step.size < p.size := by
  have bound := p.size_step_le_length
  simp only [size, if_neg h] at bound ⊢
  omega

@[simp] theorem size_note (p : Parser) (d : Diagnostic) : (p.note d).size = p.size := rfl

theorem skipToFunction_size_le (n : Nat) (p : Parser) : (skipToFunction n p).size ≤ p.size := by
  induction n generalizing p with
  | zero => exact Nat.le_refl _
  | succ n ih =>
    unfold skipToFunction
    split
    · exact Nat.le_refl _
    · next goesOn =>
      have shorter := size_step_lt (p := p) fun h => goesOn (Or.inl h)
      exact Nat.le_trans (ih _) (Nat.le_of_lt shorter)

theorem recover_size_le (p : Parser) : p.recover.size ≤ p.size :=
  skipToFunction_size_le _ _

/-- Away from a `let`, moving on takes a token or ends at the end of the text. -/
theorem recover_of_ne_let {p : Parser} (h : p.current.kind ≠ .keyword .letKw) :
    p.recover.size < p.size ∨ p.recover.current.kind = .eof := by
  by_cases atEnd : p.current.kind = .eof
  · right
    unfold recover
    cases p.size with
    | zero => exact atEnd
    | succ n => simp [skipToFunction, atEnd]
  · left
    have shorter := size_step_lt atEnd
    unfold recover
    cases count : p.size with
    | zero => omega
    | succ n =>
      have goesOn : ¬(p.current.kind = .eof ∨
          (p.current.kind = .keyword .letKw ∧ p.previous = .keyword .endKw)) :=
        fun stops => stops.elim atEnd fun both => h both.1
      rw [skipToFunction, if_neg goesOn]
      have bound := skipToFunction_size_le n p.step
      omega

/-! ## Ending and taking tokens -/

/-- An end with a result that leaves fewer than `ok` tokens, or fewer than `failed` where the
result is a diagnostic. -/
def Leaves (ok failed : Nat) : EStateM.Result Stop Parser α → Prop
  | .ok _ q => q.size < ok
  | .error (.failed _) q => q.size < failed
  | .error .outOfSteps _ => False

/-- `x` ends on every parser of fewer than `n` tokens, and does not bring tokens back. -/
def Ends (n : Nat) (x : Production α) : Prop :=
  ∀ p : Parser, p.size < n → Leaves (p.size + 1) (p.size + 1) (x p)

/-- `x` ends on every parser of fewer than `n` tokens, and takes a token if it ends with a tree. -/
def Takes (n : Nat) (x : Production α) : Prop :=
  ∀ p : Parser, p.size < n → Leaves p.size (p.size + 1) (x p)

theorem Leaves.mono {a a' b b' : Nat} {r : EStateM.Result Stop Parser α} (h : Leaves a b r)
    (ha : a ≤ a') (hb : b ≤ b') : Leaves a' b' r := by
  cases r with
  | ok v q => exact Nat.lt_of_lt_of_le h ha
  | error s q =>
    cases s with
    | failed d => exact Nat.lt_of_lt_of_le h hb
    | outOfSteps => exact h

theorem Takes.ends {n : Nat} {x : Production α} (h : Takes n x) : Ends n x :=
  fun p small => (h p small).mono (Nat.le_succ _) (Nat.le_refl _)

theorem Ends.mono {m n : Nat} {x : Production α} (h : Ends n x) (le : m ≤ n) : Ends m x :=
  fun p small => h p (Nat.lt_of_lt_of_le small le)

theorem ends_pure {n : Nat} (a : α) : Ends n (pure a : Production α) :=
  fun _ _ => Nat.lt_succ_self _

theorem ends_failed {n : Nat} (d : Diagnostic) : Ends n (throw (.failed d) : Production α) :=
  fun _ _ => Nat.lt_succ_self _

theorem ends_giveUp {n : Nat} (cause : String → Cause) :
    Ends n (giveUp cause : Production α) :=
  fun _ _ => Nat.lt_succ_self _

theorem ends_looksAt {n : Nat} (kind : TokenKind) : Ends n (looksAt kind) :=
  fun _ _ => Nat.lt_succ_self _

/-! ## Sequences -/

theorem bind_apply (x : Production α) (f : α → Production β) (p : Parser) :
    (x >>= f) p =
      match x p with
      | .ok a q => f a q
      | .error s q => .error s q := by
  show EStateM.bind x f p = _
  unfold EStateM.bind
  cases x p <;> rfl

theorem bind_of_ok {x : Production α} {f : α → Production β} {p q : Parser} {a : α}
    (first : x p = .ok a q) : (x >>= f) p = f a q := by
  rw [bind_apply, first]

/-- A sequence leaves what its second part leaves. -/
theorem Leaves.bind {a b c : Nat} {x : Production α} {f : α → Production β} {p : Parser}
    (hx : Leaves a b (x p)) (hf : ∀ v q, q.size < a → Leaves c b (f v q)) :
    Leaves c b ((x >>= f) p) := by
  rw [bind_apply]
  cases result : x p with
  | ok v q =>
    rw [result] at hx
    exact hf v q hx
  | error s q =>
    rw [result] at hx
    cases s with
    | failed d => exact hx
    | outOfSteps => exact hx

theorem Ends.bind {n : Nat} {x : Production α} {f : α → Production β} (hx : Ends n x)
    (hf : ∀ a, Ends n (f a)) : Ends n (x >>= f) := fun p small =>
  (hx p small).bind fun a q le =>
    (hf a q (by omega)).mono (by omega) (by omega)

theorem Takes.bind {n : Nat} {x : Production α} {f : α → Production β} (hx : Takes (n + 1) x)
    (hf : ∀ a, Ends n (f a)) : Takes (n + 1) (x >>= f) := fun p small =>
  (hx p small).bind fun a q lt =>
    (hf a q (by omega)).mono (by omega) (by omega)

/-! ## One token -/

/-- A choice by the current token, which is not taken at the end of the text. -/
theorem ends_accept_bind {n : Nat} {value : TokenKind → Option β}
    {f : Option (Token × β) → Production α} (atEnd : value .eof = none)
    (onNone : Ends (n + 1) (f none)) (onSome : ∀ t b, Ends n (f (some (t, b)))) :
    Ends (n + 1) (accept value >>= f) := by
  intro p small
  rw [bind_apply]
  unfold accept
  cases found : value p.current.kind with
  | none => exact onNone p small
  | some b =>
    have notEnd : p.current.kind ≠ .eof := by
      intro h
      rw [h, atEnd] at found
      cases found
    have shorter := size_step_lt notEnd
    exact (onSome p.current b p.step (by omega)).mono (by omega) (by omega)

theorem acceptKind_bind_apply (kind : TokenKind) (f : Option Token → Production α) (p : Parser) :
    (acceptKind kind >>= f) p =
      if p.current.kind = kind then f (some p.current) p.step else f none p := by
  rw [bind_apply]
  unfold acceptKind
  by_cases h : p.current.kind = kind
  · simp [h]
  · simp [h]

theorem require_apply (kind : TokenKind) (p : Parser) :
    require kind p =
      if p.current.kind = kind then .ok p.current p.step
      else .error (.failed ⟨p.current.pos, .unexpectedToken p.current.text kind.text⟩) p :=
  acceptKind_bind_apply _ _ _

theorem identifier_apply (p : Parser) :
    identifier p =
      if p.current.kind = .identifier then .ok ⟨p.current, p.current.literal⟩ p.step
      else .error (.failed ⟨p.current.pos, .expectedIdentifier p.current.text⟩) p :=
  acceptKind_bind_apply _ _ _

theorem require_of_kind {kind : TokenKind} {p : Parser} (here : p.current.kind = kind) :
    require kind p = .ok p.current p.step := by
  rw [require_apply, if_pos here]

theorem looksAt_of_kind {kind : TokenKind} {p : Parser} (here : p.current.kind = kind) :
    looksAt kind p = .ok true p := by
  rw [looksAt, beq_iff_eq.mpr here]

theorem looksAt_of_ne {kind : TokenKind} {p : Parser} (other : p.current.kind ≠ kind) :
    looksAt kind p = .ok false p := by
  rw [looksAt, beq_eq_false_iff_ne.mpr other]

theorem ends_acceptKind {n : Nat} (kind : TokenKind) : Ends n (acceptKind kind) := by
  intro p _
  unfold acceptKind
  split
  · exact Nat.lt_succ_of_le p.size_step_le
  · exact Nat.lt_succ_self _

theorem ends_require {n : Nat} (kind : TokenKind) : Ends n (require kind) := by
  intro p _
  rw [require_apply]
  split
  · exact Nat.lt_succ_of_le p.size_step_le
  · exact Nat.lt_succ_self _

theorem takes_require {n : Nat} {kind : TokenKind} (notEnd : kind ≠ .eof) :
    Takes n (require kind) := by
  intro p _
  rw [require_apply]
  split
  · next here => exact size_step_lt (by rw [here]; exact notEnd)
  · exact Nat.lt_succ_self _

theorem takes_identifier {n : Nat} : Takes n identifier := by
  intro p _
  rw [identifier_apply]
  split
  · next here => exact size_step_lt (by rw [here]; simp)
  · exact Nat.lt_succ_self _

/-! ## Lists -/

theorem ends_zero (x : Production α) : Ends 0 x :=
  fun _ small => absurd small (Nat.not_lt_zero _)

theorem ends_identifiers (n : Nat) : Ends n (identifiers n) := by
  induction n with
  | zero => exact ends_zero _
  | succ n ih =>
    refine (ends_looksAt _).bind fun here => ?_
    cases here with
    | false => exact ends_pure _
    | true => exact (takes_identifier.bind fun _ => ih.bind fun _ => ends_pure _).ends

theorem ends_arguments {n : Nat} {e : Production Expr} (he : Ends n e) :
    Ends n (arguments e n) := by
  induction n with
  | zero => exact ends_zero _
  | succ n ih =>
    have inner : Ends n e := he.mono (Nat.le_succ _)
    refine ((takes_require (by simp)).bind fun _ => inner.bind fun _ =>
      (ends_require _).bind fun _ => (ends_looksAt _).bind fun more => ?_).ends
    cases more with
    | false => exact ends_pure _
    | true => exact (ih inner).bind fun _ => ends_pure _

theorem ends_bindings {n : Nat} {e : Production Expr} (he : Ends n e) :
    Ends n (bindings e n) := by
  induction n with
  | zero => exact ends_zero _
  | succ n ih =>
    have inner : Ends n e := he.mono (Nat.le_succ _)
    refine (takes_identifier.bind fun _ => (ends_require _).bind fun _ => inner.bind fun _ =>
      (ends_acceptKind _).bind fun more => ?_).ends
    cases more with
    | none => exact ends_pure _
    | some _ => exact (ih inner).bind fun _ => ends_pure _

/-! ## Expressions -/

theorem operatorAbove_eof (threshold : Nat) : operatorAbove threshold .eof = none := rfl

theorem ends_climb {n : Nat} {operand : Production Expr} (hp : Ends n operand)
    (threshold : Nat) (lhs : Expr) : Ends n (climb operand n threshold lhs) := by
  induction n generalizing threshold lhs with
  | zero => exact ends_zero _
  | succ n ih =>
    have inner : Ends n operand := hp.mono (Nat.le_succ _)
    refine ends_accept_bind (operatorAbove_eof _) (ends_pure _) fun t op => ?_
    exact inner.bind fun first =>
      (ih inner op.precedence first).bind fun rhs => ih inner threshold _

theorem ends_operation {n : Nat} {operand : Production Expr} (hp : Ends n operand)
    (threshold : Nat) : Ends n (operation operand n threshold) :=
  hp.bind fun first => ends_climb hp threshold first

theorem ends_integerLiteral {n : Nat} (t : Token) : Ends n (integerLiteral t) := by
  unfold integerLiteral
  split
  · exact ends_pure _
  · exact ends_failed _

theorem ends_primary (n : Nat) : Ends n (primary n) := by
  induction n with
  | zero => exact ends_zero _
  | succ n ih =>
    have inner : Ends n (operation (primary n) n 0) := ends_operation ih 0
    refine ends_accept_bind rfl (ends_giveUp _) fun t head => ?_
    cases head with
    | integer => exact ends_integerLiteral t
    | name =>
      refine (ends_looksAt _).bind fun more => ?_
      cases more with
      | false => exact ends_pure _
      | true => exact (ends_arguments inner).bind fun _ => ends_pure _
    | unary op => exact ih.bind fun _ => ends_pure _
    | group => exact inner.bind fun _ => (ends_require _).bind fun _ => ends_pure _
    | cond =>
      exact inner.bind fun _ => (ends_require _).bind fun _ => inner.bind fun _ =>
        (ends_require _).bind fun _ => inner.bind fun _ => (ends_require _).bind fun _ =>
        ends_pure _
    | letIn =>
      exact (ends_bindings inner).bind fun _ => (ends_require _).bind fun _ =>
        inner.bind fun _ => (ends_require _).bind fun _ => ends_pure _
    | loop =>
      exact (ends_bindings inner).bind fun _ => (ends_require _).bind fun _ =>
        inner.bind fun _ => (ends_require _).bind fun _ => ends_pure _
    | recur => exact (ends_arguments inner).bind fun _ => ends_pure _

theorem ends_expression (n : Nat) : Ends n (expression n) :=
  ends_operation (ends_primary n) 0

theorem ends_wholeExpression (n : Nat) : Ends n (wholeExpression n) :=
  (ends_expression n).bind fun _ => (ends_require _).bind fun _ => ends_pure _

/-- More steps than tokens are enough for an expression. -/
theorem wholeExpression_ne_outOfSteps {n : Nat} {p q : Parser} (enough : p.size < n) :
    wholeExpression n p ≠ .error .outOfSteps q := by
  intro stopped
  have ends := ends_wholeExpression n p enough
  rw [stopped] at ends
  exact ends

/-! ## Functions -/

theorem ends_signatureAndBody (n : Nat) (t : Token) : Ends n (signatureAndBody n t) :=
  takes_identifier.ends.bind fun _ => takes_identifier.ends.bind fun _ =>
    (ends_identifiers n).bind fun _ => (ends_require _).bind fun _ =>
    (ends_expression n).bind fun _ => (ends_require _).bind fun _ => ends_pure _

theorem takes_function (n : Nat) : Takes (n + 1) (function n) :=
  (takes_require (by simp)).bind (ends_signatureAndBody n)

theorem function_apply (n : Nat) (p : Parser) :
    function n p =
      if p.current.kind = .keyword .letKw then signatureAndBody n p.current p.step
      else .error (.failed ⟨p.current.pos,
        .unexpectedToken p.current.text (TokenKind.keyword .letKw).text⟩) p := by
  unfold function
  rw [bind_apply, require_apply]
  by_cases here : p.current.kind = .keyword .letKw
  · rw [if_pos here, if_pos here]
  · rw [if_neg here, if_neg here]

/-- A function that breaks off behind its `let` leaves fewer tokens. -/
theorem function_failed_size_lt {n : Nat} {p q : Parser} {d : Diagnostic} (small : p.size ≤ n)
    (h : p.current.kind = .keyword .letKw) (stopped : function n p = .error (.failed d) q) :
    q.size < p.size := by
  have shorter := size_step_lt (p := p) (by rw [h]; simp)
  have rest := ends_signatureAndBody n p.current p.step (by omega)
  rw [function_apply, if_pos h] at stopped
  rw [stopped] at rest
  exact Nat.lt_of_lt_of_le rest shorter

/-- Each round takes a token or stops at the end of the text. -/
theorem functionOrSkip_progress {n : Nat} {p : Parser} (small : p.size ≤ n) :
    ∃ found q, functionOrSkip n p = .ok found q ∧
      (q.size < p.size ∨ q.current.kind = .eof) := by
  have ends := takes_function n p (Nat.lt_succ_of_le small)
  unfold functionOrSkip
  cases result : function n p with
  | ok f q =>
    rw [result] at ends
    exact ⟨some f, q, rfl, Or.inl ends⟩
  | error s q =>
    rw [result] at ends
    cases s with
    | outOfSteps => exact ends.elim
    | failed d =>
      refine ⟨none, (q.note d).recover, rfl, ?_⟩
      by_cases here : p.current.kind = .keyword .letKw
      · have shorter := function_failed_size_lt small here result
        have bound := (q.note d).recover_size_le
        left
        rw [size_note] at bound
        omega
      · rw [function_apply, if_neg here] at result
        cases result
        exact recover_of_ne_let (p := p.note _) here

/-- As many rounds as there are tokens, and one more, are enough for all functions. -/
theorem functions_ok {n rounds : Nat} {p : Parser} (small : p.size ≤ n)
    (enough : p.size < rounds) : ∃ found q, functions n rounds p = .ok found q := by
  induction rounds generalizing p with
  | zero => omega
  | succ rounds ih =>
    obtain ⟨found, q, first, progress⟩ := functionOrSkip_progress small
    rw [functions, bind_of_ok first]
    by_cases atEnd : q.current.kind = .eof
    · rw [bind_of_ok (looksAt_of_kind atEnd), if_pos rfl]
      exact ⟨_, _, rfl⟩
    · have shorter : q.size < p.size := progress.resolve_right atEnd
      obtain ⟨others, r, rest⟩ := ih (p := q) (by omega) (by omega)
      rw [bind_of_ok (looksAt_of_ne atEnd), if_neg (by decide), bind_of_ok rest]
      exact ⟨_, _, rfl⟩

theorem functions_ne_error {n rounds : Nat} {p q : Parser} {s : Stop} (small : p.size ≤ n)
    (enough : p.size < rounds) : functions n rounds p ≠ .error s q := by
  obtain ⟨found, r, ends⟩ := functions_ok small enough
  rw [ends]
  exact nofun

end LoopLang.Parser
