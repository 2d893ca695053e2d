import LoopLang.Proofs.Grammar.Choices
import LoopLang.Proofs.Parser.Reads

set_option autoImplicit false

/-! # What is read is in the grammar

Whenever a production ends with a tree, the tokens that it took derive this tree. Only the climb
over operators needs to know more than the tokens behind it: its left operand is of some tier, and
the operator that comes next binds no tighter than that tier, so that it can take this operand. -/

namespace LoopLang.Parser

open Grammar (Tier Primary Arguments Bindings ident)

variable {α β : Type}

/-- The tokens that `x` takes derive the tree that it ends with. -/
def Yields (x : Production α) (derives : List Token → α → Prop) : Prop :=
  ∀ p : Parser, p.Lexed → Reads x p (fun ts a _ => derives ts a) fun _ _ _ => True

section Rules

variable {derives : List Token → α → Prop}

theorem Yields.bind {derives' : List Token → β → Prop} {x : Production α} {f : α → Production β}
    (hx : Yields x derives)
    (hf : ∀ ts a, derives ts a → Yields (f a) fun us => derives' (ts ++ us)) :
    Yields (x >>= f) derives' :=
  fun p lexed => (hx p lexed).bind fun ts a q pass ha => hf ts a ha q (lexed.passes pass)

theorem yields_pure {a : α} (h : derives [] a) : Yields (pure a) derives :=
  fun _ _ => reads_pure h

theorem yields_outOfSteps : Yields outOfSteps derives :=
  fun _ _ => reads_outOfSteps

theorem yields_giveUp {cause : String → Cause} : Yields (giveUp cause) derives :=
  fun _ _ => reads_giveUp trivial

theorem yields_accept {value : TokenKind → Option β} (atEnd : value .eof = none) :
    Yields (accept value) fun ts found =>
      (ts = [] ∧ found = none)
        ∨ ∃ t b, ts = [t] ∧ found = some (t, b) ∧ value t.kind = some b ∧ t.Lexed :=
  fun p lexed => reads_accept atEnd (fun _ => Or.inl ⟨rfl, rfl⟩)
    fun b found => Or.inr ⟨p.current, b, rfl, rfl, found, lexed.1⟩

theorem yields_acceptKind {kind : TokenKind} (notEnd : kind ≠ .eof) :
    Yields (acceptKind kind) fun ts found =>
      (ts = [] ∧ found = none) ∨ ∃ t, ts = [t] ∧ found = some t ∧ t.kind = kind :=
  fun p _ => reads_acceptKind notEnd (fun _ => Or.inl ⟨rfl, rfl⟩)
    fun here => Or.inr ⟨p.current, rfl, rfl, here⟩

theorem yields_require {kind : TokenKind} (notEnd : kind ≠ .eof) :
    Yields (require kind) fun ts t => ts = [t] ∧ t.kind = kind :=
  fun _ _ => reads_require notEnd (fun _ => trivial) fun here => ⟨rfl, here⟩

theorem yields_identifier :
    Yields identifier fun ts i => ∃ t, ts = [t] ∧ t.kind = .identifier ∧ i = ident t :=
  fun p _ => reads_identifier (fun _ => trivial) fun here => ⟨p.current, rfl, here, rfl⟩

theorem yields_looksAt {kind : TokenKind} : Yields (looksAt kind) fun ts _ => ts = [] :=
  fun _ _ => reads_looksAt rfl

end Rules

/-! ## Lists -/

theorem yields_identifiers (n : Nat) :
    Yields (identifiers n) fun ts is => (∀ t ∈ ts, t.kind = .identifier) ∧ is = ts.map ident := by
  induction n with
  | zero => exact yields_outOfSteps
  | succ n ih =>
    refine yields_looksAt.bind ?_
    intro _ here empty
    subst empty
    cases here with
    | false => exact yields_pure ⟨List.forall_mem_nil _, rfl⟩
    | true =>
      refine yields_identifier.bind ?_
      intro _ _ taken
      obtain ⟨t, rfl, name, rfl⟩ := taken
      refine ih.bind ?_
      intro ts _ taken
      obtain ⟨names, rfl⟩ := taken
      refine yields_pure ⟨?_, by simp⟩
      simpa using And.intro name names

theorem yields_arguments {e : Production Expr} (he : Yields e (Tier 1)) (n : Nat) :
    Yields (arguments e n) Arguments := by
  induction n with
  | zero => exact yields_outOfSteps
  | succ n ih =>
    refine (yields_require (by simp)).bind ?_
    intro _ l taken
    obtain ⟨rfl, left⟩ := taken
    refine he.bind fun ts arg tier => (yields_require (by simp)).bind ?_
    intro _ r taken
    obtain ⟨rfl, right⟩ := taken
    refine yields_looksAt.bind ?_
    intro _ more empty
    subst empty
    cases more with
    | false =>
      refine yields_pure ?_
      simpa using Arguments.last left tier right
    | true =>
      refine ih.bind fun us others derived => yields_pure ?_
      simpa using Arguments.cons left tier right derived

theorem yields_bindings {e : Production Expr} (he : Yields e (Tier 1)) (n : Nat) :
    Yields (bindings e n) Bindings := by
  induction n with
  | zero => exact yields_outOfSteps
  | succ n ih =>
    refine yields_identifier.bind ?_
    intro _ _ taken
    obtain ⟨t, rfl, name, rfl⟩ := taken
    refine (yields_require (by simp)).bind ?_
    intro _ s taken
    obtain ⟨rfl, assign⟩ := taken
    refine he.bind fun ts value tier => (yields_acceptKind (by simp)).bind ?_
    intro _ _ taken
    rcases taken with ⟨rfl, rfl⟩ | ⟨a, rfl, rfl, andKw⟩
    · refine yields_pure ?_
      simpa using Bindings.last name assign tier
    · refine ih.bind fun us others derived => yields_pure ?_
      simpa using Bindings.cons name assign tier andKw derived

/-! ## Operators -/

/-- The climb goes on from a left operand of tier `k` as long as the next operator binds no tighter
than `k`, and it stops at an operator that binds no tighter than the threshold. -/
theorem reads_climb {operand : Production Expr} (hop : Yields operand Primary) {n threshold k : Nat}
    {ts : List Token} {lhs : Expr} {p : Parser} (lexed : p.Lexed) (tier : Tier k ts lhs)
    (above : threshold < k) (stops : p.StopsAt k) :
    Reads (climb operand n threshold lhs) p
      (fun us e q => Tier (threshold + 1) (ts ++ us) e ∧ q.StopsAt threshold)
      fun _ _ _ => True := by
  -- both climbs behind an operator have one step fewer, so the induction is on the steps
  induction n generalizing threshold k ts lhs p with
  | zero => exact reads_outOfSteps
  | succ n ih =>
    by_cases stopsHere : p.StopsAt threshold
    · rw [Reads, climb_of_stopsAt stopsHere]
      have whole : Tier (threshold + 1) (ts ++ []) lhs := by
        simpa using tier.mono above
      exact ⟨[], rfl, List.forall_mem_nil _, whole, stopsHere⟩
    · obtain ⟨op, found, tighter⟩ : ∃ op, BinaryOp.ofTokenKind? p.current.kind = some op
          ∧ threshold < op.precedence := by
        simpa [StopsAt] using stopsHere
      have notEnd : p.current.kind ≠ .eof := by
        intro atEnd
        rw [atEnd] at found
        cases found
      have sign := Grammar.joins_iff.mpr ⟨found, rfl⟩
      have highest : op.precedence < 5 := by cases op <;> decide
      have lexed' : p.step.Lexed := lexed_step lexed.2
      refine Reads.of_step (climb_of_operator found tighter) notEnd ?_
      -- the right operand is a climb of its own, with the operator as its threshold
      have rhs : Reads (operation operand n op.precedence) p.step
          (fun us b q => Tier (op.precedence + 1) us b ∧ q.StopsAt op.precedence)
          fun _ _ _ => True :=
        (hop p.step lexed').bind fun us b q pass primary =>
          ih (lexed'.passes pass) (.primary primary) highest (q.stopsAt_four.mono (by decide))
      refine rhs.bind ?_
      intro us b q pass taken
      obtain ⟨tier', stops'⟩ := taken
      -- no operator that comes next bound tighter than `k`, so `lhs` can be the left operand
      have joined : Tier op.precedence (ts ++ p.current :: us) (.binary p.current op lhs b) :=
        .join (tier.mono (stops op found)) sign tier'
      refine (ih (lexed'.passes pass) joined tighter stops').mono_post ?_
      intro vs e r taken
      obtain ⟨tier'', stops''⟩ := taken
      exact ⟨by simpa using tier'', stops''⟩

theorem yields_operation {operand : Production Expr} (hop : Yields operand Primary) (n : Nat) :
    Yields (operation operand n 0) (Tier 1) := by
  intro p lexed
  refine (hop p lexed).bind fun ts first q pass primary => ?_
  have loosest : 0 < 5 := by decide
  have rest := reads_climb hop (n := n) (lexed.passes pass) (.primary primary) loosest
    (q.stopsAt_four.mono (by decide))
  exact rest.mono_post fun us e r h => h.1

/-! ## Primaries -/

theorem yields_integerLiteral {t : Token} (kind : t.kind = .integer) (lexed : t.Lexed) :
    Yields (integerLiteral t) fun ts e => Primary (t :: ts) e := by
  intro p _
  unfold integerLiteral
  split
  · next v read =>
    obtain ⟨nonempty, digits⟩ := lexed kind
    have number := (Grammar.number_iff kind nonempty digits).mpr read
    exact reads_pure (.integer number)
  · exact reads_failed trivial

theorem yields_nameOrCall {e : Production Expr} (he : Yields e (Tier 1)) (n : Nat) {t : Token}
    (name : t.kind = .identifier) :
    Yields (nameOrCall e n t) fun ts e => Primary (t :: ts) e := by
  refine yields_looksAt.bind ?_
  intro _ more empty
  subst empty
  cases more with
  | false => exact yields_pure (.var name)
  | true =>
    refine (yields_arguments he n).bind fun ts args derived => yields_pure ?_
    simpa using Primary.call name derived

theorem yields_group {e : Production Expr} (he : Yields e (Tier 1)) {t : Token}
    (left : t.kind = .symbol .leftParen) :
    Yields (group e) fun ts e => Primary (t :: ts) e := by
  refine he.bind fun ts inner tier => (yields_require (by simp)).bind ?_
  intro _ r taken
  obtain ⟨rfl, right⟩ := taken
  refine yields_pure ?_
  simpa using Primary.group left tier right

theorem yields_conditional {e : Production Expr} (he : Yields e (Tier 1)) {t : Token}
    (ifKw : t.kind = .keyword .ifKw) :
    Yields (conditional e t) fun ts e => Primary (t :: ts) e := by
  refine he.bind fun ts test hc => (yields_require (by simp)).bind ?_
  intro _ u taken
  obtain ⟨rfl, thenKw⟩ := taken
  refine he.bind fun us thenBranch ha => (yields_require (by simp)).bind ?_
  intro _ l taken
  obtain ⟨rfl, elseKw⟩ := taken
  refine he.bind fun vs elseBranch hb => (yields_require (by simp)).bind ?_
  intro _ r taken
  obtain ⟨rfl, endKw⟩ := taken
  refine yields_pure ?_
  simpa using Primary.cond ifKw hc thenKw ha elseKw hb endKw

/-- A `let` and a `loop` differ in their word and in their node only. -/
theorem yields_bindingForm {e : Production Expr} (he : Yields e (Tier 1)) (n : Nat) {t : Token}
    {node : List Binding → Expr → Expr}
    (rule : ∀ {ts i us r bs body}, Bindings ts bs → i.kind = .keyword .inKw → Tier 1 us body →
      r.kind = .keyword .endKw → Primary (t :: (ts ++ i :: (us ++ [r]))) (node bs body)) :
    Yields (bindingForm e n node) fun ts e => Primary (t :: ts) e := by
  refine (yields_bindings he n).bind fun ts names hb => (yields_require (by simp)).bind ?_
  intro _ i taken
  obtain ⟨rfl, inKw⟩ := taken
  refine he.bind fun us body he => (yields_require (by simp)).bind ?_
  intro _ r taken
  obtain ⟨rfl, endKw⟩ := taken
  refine yields_pure ?_
  simpa using rule hb inKw he endKw

theorem yields_primary (n : Nat) : Yields (primary n) Primary := by
  induction n with
  | zero => exact yields_outOfSteps
  | succ n ih =>
    have inner : Yields (operation (primary n) n 0) (Tier 1) := yields_operation ih n
    refine (yields_accept rfl).bind ?_
    intro _ _ taken
    rcases taken with ⟨rfl, rfl⟩ | ⟨t, head, rfl, rfl, found, lexed⟩
    · exact yields_giveUp
    -- the token has been taken; what follows reads the rest of its rule
    have begins := Head.begins_iff.mpr found
    cases head with
    | integer => exact yields_integerLiteral begins lexed
    | name => exact yields_nameOrCall inner n begins
    | unary op => exact ih.bind fun ts operand h => yields_pure (by simpa using .unary begins h)
    | group => exact yields_group inner begins
    | cond => exact yields_conditional inner begins
    | letIn => exact yields_bindingForm inner n (.letIn begins)
    | loop => exact yields_bindingForm inner n (.loop begins)
    | recur =>
      exact (yields_arguments inner n).bind fun ts args h =>
        yields_pure (by simpa using .recur begins h)

theorem yields_expression (n : Nat) : Yields (expression n) Grammar.Expression :=
  yields_operation (yields_primary n) n

/-! ## Functions -/

theorem yields_signatureAndBody (n : Nat) {t : Token} (letKw : t.kind = .keyword .letKw) :
    Yields (signatureAndBody n t) fun ts f => Grammar.Function (t :: ts) f := by
  refine yields_identifier.bind ?_
  intro _ _ taken
  obtain ⟨i, rfl, name, rfl⟩ := taken
  refine yields_identifier.bind ?_
  intro _ _ taken
  obtain ⟨j, rfl, first, rfl⟩ := taken
  refine (yields_identifiers n).bind ?_
  intro js _ taken
  obtain ⟨others, rfl⟩ := taken
  refine (yields_require (by simp)).bind ?_
  intro _ s taken
  obtain ⟨rfl, assign⟩ := taken
  refine (yields_expression n).bind fun ts body derived => (yields_require (by simp)).bind ?_
  intro _ r taken
  obtain ⟨rfl, endKw⟩ := taken
  have params : ∀ u ∈ j :: js, u.kind = .identifier := List.forall_mem_cons.mpr ⟨first, others⟩
  refine yields_pure ?_
  simpa using
    Grammar.Function.mk letKw name params (List.cons_ne_nil _ _) assign derived endKw

theorem yields_function (n : Nat) : Yields (function n) Grammar.Function := by
  refine (yields_require (by simp)).bind ?_
  intro _ t taken
  obtain ⟨rfl, letKw⟩ := taken
  exact yields_signatureAndBody n letKw

end LoopLang.Parser
