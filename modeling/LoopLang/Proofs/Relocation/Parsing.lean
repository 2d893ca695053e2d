import LoopLang.Proofs.Grammar.Acceptance
import LoopLang.Proofs.Relocation.Trees

set_option autoImplicit false

/-! # Parsing at other places

Productions look at kinds and literals of tokens, and take places along without looking at them. So
a parser whose results stand at other places goes the same way, and what it ends with differs in
places only. There is one rule for each piece that productions are made of, and with these the
productions are gone through one by one. -/

namespace LoopLang.Parser

variable {α α' β β' : Type} {f : Position → Position}

/-! ## Parsers -/

/-- A result at another place. -/
def relocateResult (f : Position → Position) : Except Diagnostic Token → Except Diagnostic Token
  | .ok t => .ok (t.relocate f)
  | .error d => .error (d.relocate f)

/-- The parser with all that it holds at other places. -/
def relocate (f : Position → Position) (p : Parser) : Parser where
  pending := p.pending.map (relocateResult f)
  endPos := f p.endPos
  current := p.current.relocate f
  previous := p.previous
  noted := p.noted.map (Diagnostic.relocate f)

theorem firstToken_relocate (endPos : Position) (rs : List (Except Diagnostic Token))
    (noted : List Diagnostic) :
    firstToken (f endPos) (rs.map (relocateResult f)) (noted.map (Diagnostic.relocate f)) =
      (((firstToken endPos rs noted).1.relocate f),
        (firstToken endPos rs noted).2.1.map (relocateResult f),
        (firstToken endPos rs noted).2.2.map (Diagnostic.relocate f)) := by
  induction rs generalizing noted with
  | nil => rfl
  | cons r rs ih =>
    cases r with
    | ok t => rfl
    | error d => exact ih (d :: noted)

@[simp] theorem step_relocate (p : Parser) : (p.relocate f).step = p.step.relocate f := by
  unfold step
  simp only [relocate, firstToken_relocate]
  rfl

@[simp] theorem note_relocate (p : Parser) (d : Diagnostic) :
    (p.relocate f).note (d.relocate f) = (p.note d).relocate f := rfl

@[simp] theorem size_relocate (p : Parser) : (p.relocate f).size = p.size := by
  show (p.pending.map (relocateResult f)).length + _ = _
  rw [List.length_map]
  rfl

@[simp] theorem relocate_kind (p : Parser) : (p.relocate f).current.kind = p.current.kind := rfl

theorem skipToFunction_relocate (n : Nat) (p : Parser) :
    skipToFunction n (p.relocate f) = (skipToFunction n p).relocate f := by
  induction n generalizing p with
  | zero => rfl
  | succ n ih =>
    rw [skipToFunction, skipToFunction, step_relocate, ih]
    by_cases stops : p.current.kind = .eof
        ∨ (p.current.kind = .keyword .letKw ∧ p.previous = .keyword .endKw)
    · rw [if_pos stops]
      exact if_pos stops
    · rw [if_neg stops]
      exact if_neg stops

@[simp] theorem recover_relocate (p : Parser) : (p.relocate f).recover = p.recover.relocate f := by
  rw [recover, size_relocate, skipToFunction_relocate, recover]

/-! ## Productions -/

/-- The reason to stop, at another place. -/
def Stop.relocate (f : Position → Position) : Stop → Stop
  | .failed d => .failed (d.relocate f)
  | .outOfSteps => .outOfSteps

/-- An end at other places, with the tree that `move` makes of the tree. -/
def relocateEnd (f : Position → Position) (move : α → β) :
    EStateM.Result Stop Parser α → EStateM.Result Stop Parser β
  | .ok a q => .ok (move a) (q.relocate f)
  | .error stop q => .error (stop.relocate f) (q.relocate f)

/-- With everything at other places, `y` ends as `x` does, at these places. -/
def Carries (f : Position → Position) (move : α → β) (x : Production α) (y : Production β) :
    Prop :=
  ∀ p : Parser, y (p.relocate f) = relocateEnd f move (x p)

section Rules

variable {move : α → α'} {move' : β → β'}

theorem carries_pure {a : α} {b : α'} (same : b = move a) :
    Carries f move (pure a) (pure b) := by
  intro p
  rw [same]
  rfl

theorem Carries.bind {x : Production α} {y : Production α'} {k : α → Production β}
    {l : α' → Production β'} (first : Carries f move x y)
    (rest : ∀ a, Carries f move' (k a) (l (move a))) :
    Carries f move' (x >>= k) (y >>= l) := by
  intro p
  rw [bind_apply, bind_apply, first p]
  cases x p with
  | ok a q => exact rest a q
  | error stop q => rfl

theorem carries_outOfSteps : Carries f move outOfSteps outOfSteps :=
  fun _ => rfl

theorem carries_giveUp (cause : String → Cause) :
    Carries f move (giveUp cause) (giveUp cause) :=
  fun _ => rfl

theorem carries_failed (d : Diagnostic) :
    Carries f move (throw (.failed d)) (throw (.failed (d.relocate f))) :=
  fun _ => rfl

/-- A token that is taken comes along. -/
theorem carries_accept (value : TokenKind → Option β) :
    Carries f (Option.map (Prod.map (Token.relocate f) id)) (accept value) (accept value) := by
  intro p
  unfold accept
  rw [relocate_kind, step_relocate]
  cases value p.current.kind with
  | none => rfl
  | some b => rfl

theorem carries_acceptKind (kind : TokenKind) :
    Carries f (Option.map (Token.relocate f)) (acceptKind kind) (acceptKind kind) := by
  intro p
  unfold acceptKind
  rw [relocate_kind, step_relocate]
  split <;> rfl

theorem carries_looksAt (kind : TokenKind) : Carries f id (looksAt kind) (looksAt kind) :=
  fun _ => rfl

theorem carries_require (kind : TokenKind) :
    Carries f (Token.relocate f) (require kind) (require kind) := by
  refine (carries_acceptKind kind).bind fun found => ?_
  cases found with
  | none => exact carries_giveUp _
  | some t => exact carries_pure rfl

theorem carries_identifier : Carries f (Ident.relocate f) identifier identifier := by
  refine (carries_acceptKind .identifier).bind fun found => ?_
  cases found with
  | none => exact carries_giveUp _
  | some t => exact carries_pure rfl

end Rules

/-! ## Lists -/

theorem carries_identifiers (n : Nat) :
    Carries f (List.map (Ident.relocate f)) (identifiers n) (identifiers n) := by
  induction n with
  | zero => exact carries_outOfSteps
  | succ n ih =>
    refine (carries_looksAt .identifier).bind fun more => ?_
    cases more with
    | false => exact carries_pure rfl
    | true => exact carries_identifier.bind fun _ => ih.bind fun _ => carries_pure rfl

section Expressions

variable {e : Production Expr} (he : Carries f (Expr.relocate f) e e)
include he

theorem carries_arguments (n : Nat) :
    Carries f (List.map (Expr.relocate f)) (arguments e n) (arguments e n) := by
  induction n with
  | zero => exact carries_outOfSteps
  | succ n ih =>
    refine (carries_require _).bind fun _ => he.bind fun _ => (carries_require _).bind fun _ =>
      (carries_looksAt _).bind fun more => ?_
    cases more with
    | false => exact carries_pure rfl
    | true => exact ih.bind fun _ => carries_pure rfl

theorem carries_bindings (n : Nat) :
    Carries f (List.map (Binding.relocate f)) (bindings e n) (bindings e n) := by
  induction n with
  | zero => exact carries_outOfSteps
  | succ n ih =>
    refine carries_identifier.bind fun _ => (carries_require _).bind fun _ => he.bind fun _ =>
      (carries_acceptKind _).bind fun more => ?_
    cases more with
    | none => exact carries_pure rfl
    | some _ => exact ih.bind fun _ => carries_pure rfl

theorem carries_climb (n threshold : Nat) (lhs : Expr) :
    Carries f (Expr.relocate f) (climb e n threshold lhs)
      (climb e n threshold (lhs.relocate f)) := by
  induction n generalizing threshold lhs with
  | zero => exact carries_outOfSteps
  | succ n ih =>
    refine (carries_accept _).bind fun found => ?_
    rcases found with _ | ⟨t, op⟩
    · exact carries_pure rfl
    · exact he.bind fun _ => (ih _ _).bind fun rhs => ih threshold (.binary t op lhs rhs)

theorem carries_operation (n threshold : Nat) :
    Carries f (Expr.relocate f) (operation e n threshold) (operation e n threshold) :=
  he.bind fun first => carries_climb he n threshold first

theorem carries_nameOrCall (n : Nat) (t : Token) :
    Carries f (Expr.relocate f) (nameOrCall e n t) (nameOrCall e n (t.relocate f)) := by
  refine (carries_looksAt _).bind fun more => ?_
  cases more with
  | false => exact carries_pure rfl
  | true =>
    refine (carries_arguments he n).bind fun args => carries_pure ?_
    rw [Expr.relocate, Expr.relocateAll_eq_map]
    rfl

theorem carries_group : Carries f (Expr.relocate f) (group e) (group e) :=
  he.bind fun _ => (carries_require _).bind fun _ => carries_pure rfl

theorem carries_conditional (t : Token) :
    Carries f (Expr.relocate f) (conditional e t) (conditional e (t.relocate f)) :=
  he.bind fun _ => (carries_require _).bind fun _ => he.bind fun _ =>
    (carries_require _).bind fun _ => he.bind fun _ => (carries_require _).bind fun _ =>
    carries_pure rfl

theorem carries_bindingForm (n : Nat) {node node' : List Binding → Expr → Expr}
    (same : ∀ bs body, (node bs body).relocate f =
      node' (bs.map (Binding.relocate f)) (body.relocate f)) :
    Carries f (Expr.relocate f) (bindingForm e n node) (bindingForm e n node') :=
  (carries_bindings he n).bind fun bs => (carries_require _).bind fun _ => he.bind fun body =>
    (carries_require _).bind fun _ => carries_pure (same bs body).symm

end Expressions

/-! ## Expressions -/

theorem carries_integerLiteral (t : Token) :
    Carries f (Expr.relocate f) (integerLiteral t) (integerLiteral (t.relocate f)) := by
  unfold integerLiteral
  rw [Token.relocate_literal]
  cases Decimal.read? t.literal with
  | none => exact carries_failed _
  | some v => exact carries_pure rfl

theorem carries_primary (n : Nat) : Carries f (Expr.relocate f) (primary n) (primary n) := by
  induction n with
  | zero => exact carries_outOfSteps
  | succ n ih =>
    have inner := carries_operation ih n 0
    refine (carries_accept _).bind fun found => ?_
    rcases found with _ | ⟨t, head⟩
    · exact carries_giveUp _
    cases head with
    | integer => exact carries_integerLiteral t
    | name => exact carries_nameOrCall inner n t
    | unary op => exact ih.bind fun _ => carries_pure rfl
    | group => exact carries_group inner
    | cond => exact carries_conditional inner t
    | letIn =>
      refine carries_bindingForm inner n fun bs body => ?_
      rw [Expr.relocate, Binding.relocateAll_eq_map]
    | loop =>
      refine carries_bindingForm inner n fun bs body => ?_
      rw [Expr.relocate, Binding.relocateAll_eq_map]
    | recur =>
      refine (carries_arguments inner n).bind fun args => carries_pure ?_
      rw [Expr.relocate, Expr.relocateAll_eq_map]

theorem carries_expression (n : Nat) :
    Carries f (Expr.relocate f) (expression n) (expression n) :=
  carries_operation (carries_primary n) n 0

/-! ## Functions -/

theorem carries_signatureAndBody (n : Nat) (t : Token) :
    Carries f (Function.relocate f) (signatureAndBody n t)
      (signatureAndBody n (t.relocate f)) :=
  carries_identifier.bind fun _ => carries_identifier.bind fun _ =>
    (carries_identifiers n).bind fun _ => (carries_require _).bind fun _ =>
    (carries_expression n).bind fun _ => (carries_require _).bind fun _ => carries_pure rfl

theorem carries_function (n : Nat) :
    Carries f (Function.relocate f) (function n) (function n) :=
  (carries_require _).bind fun t => carries_signatureAndBody n t

/-- Recovery looks at kinds only, so it moves on equally far. -/
theorem carries_functionOrSkip (n : Nat) :
    Carries f (Option.map (Function.relocate f)) (functionOrSkip n) (functionOrSkip n) := by
  intro p
  rw [functionOrSkip, functionOrSkip, carries_function n p]
  cases function n p with
  | ok g q => rfl
  | error stop q =>
    cases stop with
    | failed d =>
      show EStateM.Result.ok none ((q.relocate f).note (d.relocate f)).recover = _
      rw [note_relocate, recover_relocate]
      rfl
    | outOfSteps => rfl

theorem carries_functions (n rounds : Nat) :
    Carries f (List.map (Function.relocate f)) (functions n rounds) (functions n rounds) := by
  induction rounds with
  | zero => exact carries_outOfSteps
  | succ rounds ih =>
    refine (carries_functionOrSkip n).bind fun found => (carries_looksAt _).bind fun atEnd => ?_
    have one : (found.map (Function.relocate f)).toList =
        found.toList.map (Function.relocate f) := by
      cases found <;> rfl
    cases atEnd with
    | true => exact carries_pure one
    | false =>
      refine ih.bind fun others => carries_pure ?_
      rw [one, List.map_append]

/-! ## Programs -/

/-- A parse of a program from other places on reads the same functions and notes the same
diagnostics, at these places. -/
theorem exists_functions_relocate {p p' : Parser} (first : p'.step = p.step.relocate f) :
    ∃ fs q, functions (p.step.size + 1) (p.step.size + 1) p.step = .ok fs q
      ∧ functions (p'.step.size + 1) (p'.step.size + 1) p'.step =
          .ok (fs.map (Function.relocate f)) (q.relocate f) := by
  obtain ⟨fs, q, read⟩ := p.exists_functions
  refine ⟨fs, q, read, ?_⟩
  rw [first, size_relocate, carries_functions _ _ p.step, read]
  rfl

end LoopLang.Parser
