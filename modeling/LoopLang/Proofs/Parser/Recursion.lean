import LoopLang.Parser.Progress

set_option autoImplicit false

/-! # The recursion of the grammar

The productions of the parser are given steps, which only make their recursion plain. Here is the
same grammar without steps. A round (`identifiersRound` to `primaryRound`) is the rule of a
production that recurs or repeats, with other productions in place of those that it uses again.
Each round uses them behind a token that it has taken, so what it does at a parser of `s` tokens is
told by what they do at parsers of fewer tokens (`Productions.AgreeBelow.next`). Hence the rounds
have one solution (`Productions.eq_plain`), and the parser computes it with any number of steps that
is greater than the number of tokens left. -/

namespace LoopLang.Parser

variable {α β : Type}

/-! ## Agreeing below a number of tokens -/

/-- The productions do the same at every parser of fewer than `s` tokens. -/
def AgreeBelow (s : Nat) (x y : Production α) : Prop := ∀ p : Parser, p.size < s → x p = y p

/-- At parsers of fewer than `s` tokens, the production brings no tokens back. -/
def OnwardBelow (s : Nat) (x : Production α) : Prop :=
  ∀ p : Parser, p.size < s → ∀ a q, x p = .ok a q → q.size ≤ p.size

theorem AgreeBelow.refl {s : Nat} (x : Production α) : AgreeBelow s x x := fun _ _ => rfl

theorem AgreeBelow.mono {s s' : Nat} {x y : Production α} (h : AgreeBelow s x y) (le : s' ≤ s) :
    AgreeBelow s' x y := fun p small => h p (Nat.lt_of_lt_of_le small le)

theorem OnwardBelow.mono {s s' : Nat} {x : Production α} (h : OnwardBelow s x) (le : s' ≤ s) :
    OnwardBelow s' x := fun p small => h p (Nat.lt_of_lt_of_le small le)

theorem Ends.onward {s n : Nat} {x : Production α} (h : Ends n x) (le : s ≤ n) :
    OnwardBelow s x := by
  intro p small a q result
  have leaves := h p (Nat.lt_of_lt_of_le small le)
  rw [result] at leaves
  exact Nat.le_of_lt_succ leaves

theorem OnwardBelow.bind {s : Nat} {x : Production α} {f : α → Production β}
    (hx : OnwardBelow s x) (hf : ∀ a, OnwardBelow s (f a)) : OnwardBelow s (x >>= f) := by
  intro p small b r result
  rw [bind_apply] at result
  split at result
  · next a q first =>
    have le := hx p small a q first
    have le' := hf a q (by omega) b r result
    omega
  · cases result

section Rules

variable {s : Nat}

/-- What comes behind the first part is at no more tokens. -/
theorem AgreeBelow.bind {x y : Production α} {f k : α → Production β} (h : AgreeBelow s x y)
    (onward : OnwardBelow s x) (rest : ∀ a, AgreeBelow s (f a) (k a)) :
    AgreeBelow s (x >>= f) (y >>= k) := by
  intro p small
  rw [bind_apply, bind_apply, ← h p small]
  cases result : x p with
  | ok a q => exact rest a q (Nat.lt_of_le_of_lt (onward p small a q result) small)
  | error stop q => rfl

theorem AgreeBelow.bind_same {x y : Production α} {f : α → Production β} (h : AgreeBelow s x y) :
    AgreeBelow s (x >>= f) (y >>= f) := by
  intro p small
  rw [bind_apply, bind_apply, h p small]

/-- What comes behind a token is at fewer tokens. -/
theorem Takes.agree_bind {x : Production α} {f k : α → Production β} (takes : Takes (s + 1) x)
    (rest : ∀ a, AgreeBelow s (f a) (k a)) : AgreeBelow (s + 1) (x >>= f) (x >>= k) := by
  intro p small
  have leaves := takes p small
  rw [bind_apply, bind_apply]
  cases result : x p with
  | ok a q =>
    rw [result] at leaves
    have fewer : q.size < p.size := leaves
    exact rest a q (by omega)
  | error stop q => rfl

theorem Ends.agree_bind {x : Production α} {f k : α → Production β} (ends : Ends s x)
    (rest : ∀ a, AgreeBelow s (f a) (k a)) : AgreeBelow s (x >>= f) (x >>= k) :=
  (AgreeBelow.refl x).bind (ends.onward (Nat.le_refl s)) rest

theorem agree_accept_bind {value : TokenKind → Option β} {f k : Option (Token × β) → Production α}
    (atEnd : value .eof = none) (onNone : f none = k none)
    (onSome : ∀ t b, AgreeBelow s (f (some (t, b))) (k (some (t, b)))) :
    AgreeBelow (s + 1) (accept value >>= f) (accept value >>= k) := by
  intro p small
  rw [bind_apply, bind_apply]
  unfold accept
  cases found : value p.current.kind with
  | none => exact congrFun onNone p
  | some b =>
    have shorter := size_step_lt (p := p) fun h => by
      rw [h, atEnd] at found
      cases found
    exact onSome p.current b p.step (by omega)

end Rules

/-! ## Rounds -/

/-- Identifiers, where `more` reads those behind the first one. -/
def identifiersRound (more : Production (List Ident)) : Production (List Ident) := do
  if ← looksAt .identifier then
    let first ← identifier
    let others ← more
    return first :: others
  else
    return []

/-- Arguments, where `more` reads those behind the first one. -/
def argumentsRound (expression : Production Expr) (more : Production (List Expr)) :
    Production (List Expr) := do
  let _ ← require (.symbol .leftParen)
  let first ← expression
  let _ ← require (.symbol .rightParen)
  if ← looksAt (.symbol .leftParen) then
    let others ← more
    return first :: others
  else
    return [first]

/-- Bindings, where `more` reads those behind the first one. -/
def bindingsRound (expression : Production Expr) (more : Production (List Binding)) :
    Production (List Binding) := do
  let ident ← identifier
  let _ ← require (.symbol .assign)
  let value ← expression
  match ← acceptKind (.keyword .andKw) with
  | some _ =>
    let others ← more
    return ⟨ident, value⟩ :: others
  | none => return [⟨ident, value⟩]

/-- Goes on behind a left operand, where `climb` goes on behind the right operand, and then behind
the operation as a new left operand. -/
def climbRound (primary : Production Expr) (climb : Nat → Expr → Production Expr)
    (threshold : Nat) (lhs : Expr) : Production Expr := do
  match ← accept (operatorAbove threshold) with
  | none => return lhs
  | some (token, op) =>
    let operand ← primary
    let rhs ← climb op.precedence operand
    climb threshold (.binary token op lhs rhs)

/-- The productions that recur or repeat. -/
@[ext]
structure Productions where
  identifiers : Production (List Ident)
  arguments : Production (List Expr)
  bindings : Production (List Binding)
  climb : Nat → Expr → Production Expr
  primary : Production Expr

namespace Productions

/-- An expression: a primary, and what a climb from it takes. -/
def expression (g : Productions) : Production Expr := do
  let first ← g.primary
  g.climb 0 first

/-- The rest of a `let` or `loop`, whose node is made by `node`. -/
def bindingForm (g : Productions) (node : List Binding → Expr → Expr) : Production Expr := do
  let names ← g.bindings
  let _ ← require (.keyword .inKw)
  let body ← g.expression
  let _ ← require (.keyword .endKw)
  return node names body

/-- A primary expression, whose parts are read by the productions. -/
def primaryRound (g : Productions) : Production Expr := do
  match ← accept Head.ofTokenKind? with
  | none => giveUp .expectedExpression
  | some (token, .integer) => integerLiteral token
  | some (token, .name) =>
    if ← looksAt (.symbol .leftParen) then
      let args ← g.arguments
      return .call token token.literal args
    else
      return .var token token.literal
  | some (token, .unary op) =>
    let operand ← g.primary
    return .unary token op operand
  | some (_, .group) => group g.expression
  | some (token, .cond) => conditional g.expression token
  | some (token, .letIn) => g.bindingForm (.letIn token)
  | some (token, .loop) => g.bindingForm (.loop token)
  | some (token, .recur) =>
    let args ← g.arguments
    return .recur token args

/-- One round of every production, with the given ones in place of those that are used again. -/
def next (g : Productions) : Productions where
  identifiers := identifiersRound g.identifiers
  arguments := argumentsRound g.expression g.arguments
  bindings := bindingsRound g.expression g.bindings
  climb := climbRound g.primary g.climb
  primary := g.primaryRound

/-- All productions do the same at parsers of fewer than `s` tokens. -/
structure AgreeBelow (s : Nat) (g h : Productions) : Prop where
  identifiers : Parser.AgreeBelow s g.identifiers h.identifiers
  arguments : Parser.AgreeBelow s g.arguments h.arguments
  bindings : Parser.AgreeBelow s g.bindings h.bindings
  climb : ∀ threshold lhs, Parser.AgreeBelow s (g.climb threshold lhs) (h.climb threshold lhs)
  primary : Parser.AgreeBelow s g.primary h.primary

/-- At parsers of fewer than `s` tokens, no production brings tokens back. -/
structure OnwardBelow (s : Nat) (g : Productions) : Prop where
  identifiers : Parser.OnwardBelow s g.identifiers
  arguments : Parser.OnwardBelow s g.arguments
  bindings : Parser.OnwardBelow s g.bindings
  climb : ∀ threshold lhs, Parser.OnwardBelow s (g.climb threshold lhs)
  primary : Parser.OnwardBelow s g.primary

end Productions

/-! ## A round goes on behind a token -/

section Rounds

variable {s : Nat}

theorem agree_identifiersRound {more more' : Production (List Ident)}
    (h : AgreeBelow s more more') :
    AgreeBelow (s + 1) (identifiersRound more) (identifiersRound more') := by
  refine (ends_looksAt _).agree_bind fun here => ?_
  cases here with
  | false => exact .refl _
  | true => exact takes_identifier.agree_bind fun _ => h.bind_same

theorem agree_argumentsRound {e e' : Production Expr} {more more' : Production (List Expr)}
    (onward : OnwardBelow s e) (he : AgreeBelow s e e') (h : AgreeBelow s more more') :
    AgreeBelow (s + 1) (argumentsRound e more) (argumentsRound e' more') := by
  refine (takes_require (by decide)).agree_bind fun _ => he.bind onward fun _ =>
    (ends_require _).agree_bind fun _ => (ends_looksAt _).agree_bind fun here => ?_
  cases here with
  | false => exact .refl _
  | true => exact h.bind_same

theorem agree_bindingsRound {e e' : Production Expr} {more more' : Production (List Binding)}
    (onward : OnwardBelow s e) (he : AgreeBelow s e e') (h : AgreeBelow s more more') :
    AgreeBelow (s + 1) (bindingsRound e more) (bindingsRound e' more') := by
  refine takes_identifier.agree_bind fun _ => (ends_require _).agree_bind fun _ =>
    he.bind onward fun _ => (ends_acceptKind _).agree_bind fun found => ?_
  cases found with
  | none => exact .refl _
  | some _ => exact h.bind_same

theorem agree_climbRound {x x' : Production Expr} {c c' : Nat → Expr → Production Expr}
    (onward : OnwardBelow s x) (hx : AgreeBelow s x x') (onward' : ∀ t e, OnwardBelow s (c t e))
    (hc : ∀ t e, AgreeBelow s (c t e) (c' t e)) (threshold : Nat) (lhs : Expr) :
    AgreeBelow (s + 1) (climbRound x c threshold lhs) (climbRound x' c' threshold lhs) :=
  agree_accept_bind (operatorAbove_eof _) rfl fun _ op => hx.bind onward fun operand =>
    (hc op.precedence operand).bind (onward' _ _) fun _ => hc threshold _

namespace Productions

variable {g h : Productions}

theorem OnwardBelow.expression (onward : g.OnwardBelow s) : Parser.OnwardBelow s g.expression :=
  onward.primary.bind fun first => onward.climb 0 first

theorem AgreeBelow.expression (agree : g.AgreeBelow s h) (onward : g.OnwardBelow s) :
    Parser.AgreeBelow s g.expression h.expression :=
  agree.primary.bind onward.primary fun first => agree.climb 0 first

theorem AgreeBelow.bindingForm (agree : g.AgreeBelow s h) (onward : g.OnwardBelow s)
    (node : List Binding → Expr → Expr) :
    Parser.AgreeBelow s (g.bindingForm node) (h.bindingForm node) :=
  agree.bindings.bind onward.bindings fun _ => (ends_require _).agree_bind fun _ =>
    (agree.expression onward).bind_same

theorem agree_conditional {e e' : Production Expr} (onward : Parser.OnwardBelow s e)
    (he : Parser.AgreeBelow s e e') (token : Token) :
    Parser.AgreeBelow s (conditional e token) (conditional e' token) :=
  he.bind onward fun _ => (ends_require _).agree_bind fun _ => he.bind onward fun _ =>
    (ends_require _).agree_bind fun _ => he.bind_same

theorem AgreeBelow.primaryRound (agree : g.AgreeBelow s h) (onward : g.OnwardBelow s) :
    Parser.AgreeBelow (s + 1) g.primaryRound h.primaryRound := by
  refine agree_accept_bind rfl rfl fun token head => ?_
  cases head with
  | integer => exact .refl _
  | name =>
    refine (ends_looksAt _).agree_bind fun here => ?_
    cases here with
    | false => exact .refl _
    | true => exact agree.arguments.bind_same
  | unary op => exact agree.primary.bind_same
  | group => exact (agree.expression onward).bind_same
  | cond => exact agree_conditional onward.expression (agree.expression onward) token
  | letIn => exact agree.bindingForm onward _
  | loop => exact agree.bindingForm onward _
  | recur => exact agree.arguments.bind_same

/-- **Productions recur only behind a token.** What a round does at a parser is told by what the
productions that it uses do at parsers of fewer tokens. -/
theorem AgreeBelow.next (agree : g.AgreeBelow s h) (onward : g.OnwardBelow s) :
    g.next.AgreeBelow (s + 1) h.next where
  identifiers := agree_identifiersRound agree.identifiers
  arguments :=
    agree_argumentsRound onward.expression (agree.expression onward) agree.arguments
  bindings := agree_bindingsRound onward.expression (agree.expression onward) agree.bindings
  climb := agree_climbRound onward.primary agree.primary onward.climb agree.climb
  primary := agree.primaryRound onward

end Productions

end Rounds

/-! ## Steps -/

theorem agree_zero (x y : Production α) : AgreeBelow 0 x y :=
  fun _ small => absurd small (Nat.not_lt_zero _)

/-- Induction over a number of tokens with two numbers of steps that are no smaller. -/
theorem steps_induction {motive : (s m n : Nat) → s ≤ m → s ≤ n → Prop}
    (zero : ∀ m n, motive 0 m n (Nat.zero_le m) (Nat.zero_le n))
    (succ : ∀ s m n (hm : s ≤ m) (hn : s ≤ n), motive s m n hm hn →
      motive (s + 1) (m + 1) (n + 1) (Nat.succ_le_succ hm) (Nat.succ_le_succ hn))
    (s m n : Nat) (hm : s ≤ m) (hn : s ≤ n) : motive s m n hm hn := by
  induction s generalizing m n with
  | zero => exact zero m n
  | succ s ih =>
    cases m with
    | zero => cases hm
    | succ m =>
      cases n with
      | zero => cases hn
      | succ n =>
        have hm' := Nat.le_of_succ_le_succ hm
        have hn' := Nat.le_of_succ_le_succ hn
        exact succ s m n hm' hn' (ih m n hm' hn')

section Steps

variable {s m n : Nat}

theorem agree_identifiers (hm : s ≤ m) (hn : s ≤ n) :
    AgreeBelow s (identifiers m) (identifiers n) := by
  induction s, m, n, hm, hn using steps_induction with
  | zero => exact agree_zero _ _
  | succ s m n hm hn ih => exact agree_identifiersRound ih

theorem agree_arguments {e e' : Production Expr} (onward : OnwardBelow s e)
    (he : AgreeBelow s e e') (hm : s ≤ m) (hn : s ≤ n) :
    AgreeBelow s (arguments e m) (arguments e' n) := by
  induction s, m, n, hm, hn using steps_induction with
  | zero => exact agree_zero _ _
  | succ s m n hm hn ih =>
    have inner := onward.mono (Nat.le_succ s)
    have he' := he.mono (Nat.le_succ s)
    exact agree_argumentsRound inner he' (ih inner he')

theorem agree_bindings {e e' : Production Expr} (onward : OnwardBelow s e)
    (he : AgreeBelow s e e') (hm : s ≤ m) (hn : s ≤ n) :
    AgreeBelow s (bindings e m) (bindings e' n) := by
  induction s, m, n, hm, hn using steps_induction with
  | zero => exact agree_zero _ _
  | succ s m n hm hn ih =>
    have inner := onward.mono (Nat.le_succ s)
    have he' := he.mono (Nat.le_succ s)
    exact agree_bindingsRound inner he' (ih inner he')

theorem agree_climb {x x' : Production Expr} (ends : Ends m x) (hx : AgreeBelow s x x')
    (hm : s ≤ m) (hn : s ≤ n) (threshold : Nat) (lhs : Expr) :
    AgreeBelow s (climb x m threshold lhs) (climb x' n threshold lhs) := by
  induction s, m, n, hm, hn using steps_induction generalizing threshold lhs with
  | zero => exact agree_zero _ _
  | succ s m n hm hn ih =>
    have inner : Ends m x := ends.mono (Nat.le_succ m)
    have hx' := hx.mono (Nat.le_succ s)
    have onward : ∀ t e, OnwardBelow s (climb x m t e) := fun t e =>
      (ends_climb inner t e).onward hm
    exact agree_climbRound (inner.onward hm) hx' onward (ih inner hx') threshold lhs

/-- The productions of the parser, each given `n` steps. -/
def Productions.withSteps (n : Nat) : Productions where
  identifiers := Parser.identifiers n
  arguments := Parser.arguments (Parser.expression n) n
  bindings := Parser.bindings (Parser.expression n) n
  climb := Parser.climb (Parser.primary n) n
  primary := Parser.primary n

theorem Productions.onward_withSteps (le : s ≤ n) : (withSteps n).OnwardBelow s where
  identifiers := (ends_identifiers n).onward le
  arguments := (ends_arguments (ends_expression n)).onward le
  bindings := (ends_bindings (ends_expression n)).onward le
  climb threshold lhs := (ends_climb (ends_primary n) threshold lhs).onward le
  primary := (ends_primary n).onward le

/-- All productions agree where primaries do. -/
theorem Productions.agree_withSteps_of_primary (hm : s ≤ m) (hn : s ≤ n)
    (primary : Parser.AgreeBelow s (Parser.primary m) (Parser.primary n)) :
    (withSteps m).AgreeBelow s (withSteps n) := by
  have climb := agree_climb (ends_primary m) primary hm hn
  have onward := (ends_expression m).onward hm
  have expression : Parser.AgreeBelow s (Parser.expression m) (Parser.expression n) :=
    primary.bind ((ends_primary m).onward hm) fun first => climb 0 first
  exact ⟨agree_identifiers hm hn, agree_arguments onward expression hm hn,
    agree_bindings onward expression hm hn, climb, primary⟩

/-- With more steps than tokens, more steps make no difference. -/
theorem Productions.agree_withSteps (hm : s ≤ m) (hn : s ≤ n) :
    (withSteps m).AgreeBelow s (withSteps n) := by
  refine agree_withSteps_of_primary hm hn ?_
  induction s, m, n, hm, hn using steps_induction with
  | zero => exact agree_zero _ _
  | succ s m n hm hn ih =>
    exact (agree_withSteps_of_primary hm hn ih).primaryRound (onward_withSteps hm)

end Steps

namespace Productions

/-- The productions, each given more steps than there are tokens left. -/
def plain : Productions where
  identifiers p := (withSteps (p.size + 1)).identifiers p
  arguments p := (withSteps (p.size + 1)).arguments p
  bindings p := (withSteps (p.size + 1)).bindings p
  climb threshold lhs p := (withSteps (p.size + 1)).climb threshold lhs p
  primary p := (withSteps (p.size + 1)).primary p

theorem agree_plain (n : Nat) : (withSteps n).AgreeBelow n plain := by
  have agree : ∀ p : Parser, p.size < n →
      (withSteps n).AgreeBelow (p.size + 1) (withSteps (p.size + 1)) :=
    fun _ small => agree_withSteps small (Nat.le_refl _)
  exact ⟨fun p small => (agree p small).identifiers p (Nat.lt_succ_self _),
    fun p small => (agree p small).arguments p (Nat.lt_succ_self _),
    fun p small => (agree p small).bindings p (Nat.lt_succ_self _),
    fun threshold lhs p small => (agree p small).climb threshold lhs p (Nat.lt_succ_self _),
    fun p small => (agree p small).primary p (Nat.lt_succ_self _)⟩

/-- A round of the productions is what they do with one step more. -/
theorem agree_next_withSteps (n : Nat) :
    (withSteps n).next.AgreeBelow (n + 1) (withSteps (n + 1)) := by
  have onward := onward_withSteps (Nat.le_refl n)
  have agree := agree_withSteps (Nat.le_refl n) (Nat.le_succ n)
  have expression := agree.expression onward
  refine ⟨.refl _, ?_, ?_, ?_, .refl _⟩
  · exact agree_argumentsRound onward.expression expression
      (agree_arguments onward.expression expression (Nat.le_refl n) (Nat.le_refl n))
  · exact agree_bindingsRound onward.expression expression
      (agree_bindings onward.expression expression (Nat.le_refl n) (Nat.le_refl n))
  · exact agree_climbRound onward.primary agree.primary onward.climb
      (agree_climb (ends_primary n) agree.primary (Nat.le_refl n) (Nat.le_refl n))

theorem AgreeBelow.symm {s : Nat} {g h : Productions} (agree : g.AgreeBelow s h) :
    h.AgreeBelow s g where
  identifiers p small := (agree.identifiers p small).symm
  arguments p small := (agree.arguments p small).symm
  bindings p small := (agree.bindings p small).symm
  climb threshold lhs p small := (agree.climb threshold lhs p small).symm
  primary p small := (agree.primary p small).symm

theorem AgreeBelow.trans {s : Nat} {f g h : Productions} (first : f.AgreeBelow s g)
    (second : g.AgreeBelow s h) : f.AgreeBelow s h where
  identifiers p small := (first.identifiers p small).trans (second.identifiers p small)
  arguments p small := (first.arguments p small).trans (second.arguments p small)
  bindings p small := (first.bindings p small).trans (second.bindings p small)
  climb threshold lhs p small :=
    (first.climb threshold lhs p small).trans (second.climb threshold lhs p small)
  primary p small := (first.primary p small).trans (second.primary p small)

theorem agreeBelow_zero (g h : Productions) : g.AgreeBelow 0 h :=
  ⟨agree_zero _ _, agree_zero _ _, agree_zero _ _, fun _ _ => agree_zero _ _, agree_zero _ _⟩

theorem ext_of_agree {g h : Productions} (agree : ∀ s, g.AgreeBelow (s + 1) h) : g = h :=
  Productions.ext (funext fun p => (agree p.size).identifiers p (Nat.lt_succ_self _))
    (funext fun p => (agree p.size).arguments p (Nat.lt_succ_self _))
    (funext fun p => (agree p.size).bindings p (Nat.lt_succ_self _))
    (funext fun threshold => funext fun lhs => funext fun p =>
      (agree p.size).climb threshold lhs p (Nat.lt_succ_self _))
    (funext fun p => (agree p.size).primary p (Nat.lt_succ_self _))

theorem onward_plain (s : Nat) : plain.OnwardBelow s := by
  have onward : ∀ p : Parser, (withSteps (p.size + 1)).OnwardBelow (p.size + 1) :=
    fun _ => onward_withSteps (Nat.le_refl _)
  exact ⟨fun p _ => (onward p).identifiers p (Nat.lt_succ_self _),
    fun p _ => (onward p).arguments p (Nat.lt_succ_self _),
    fun p _ => (onward p).bindings p (Nat.lt_succ_self _),
    fun threshold lhs p _ => (onward p).climb threshold lhs p (Nat.lt_succ_self _),
    fun p _ => (onward p).primary p (Nat.lt_succ_self _)⟩

/-- The productions of the parser are their own next round. -/
theorem next_plain : plain.next = plain := by
  refine ext_of_agree fun n => ?_
  have round := (agree_plain n).next (onward_withSteps (Nat.le_refl n))
  exact round.symm.trans ((agree_next_withSteps n).trans (agree_plain (n + 1)))

/-- There is no other solution. -/
theorem eq_plain {g : Productions} (onward : ∀ s, g.OnwardBelow s) (same : g.next = g) :
    g = plain := by
  have agree : ∀ s, g.AgreeBelow s plain := by
    intro s
    induction s with
    | zero => exact agreeBelow_zero _ _
    | succ s ih =>
      have round := ih.next (onward s)
      rwa [same, next_plain] at round
  exact ext_of_agree fun s => agree (s + 1)

end Productions

/-! ## Functions and whole expressions -/

section Entries

variable {s m n : Nat}

theorem agree_expression (hm : s ≤ m) (hn : s ≤ n) :
    AgreeBelow s (expression m) (expression n) :=
  (Productions.agree_withSteps hm hn).expression (Productions.onward_withSteps hm)

theorem agree_wholeExpression (hm : s ≤ m) (hn : s ≤ n) :
    AgreeBelow s (wholeExpression m) (wholeExpression n) :=
  (agree_expression hm hn).bind_same

theorem agree_signatureAndBody (hm : s ≤ m) (hn : s ≤ n) (token : Token) :
    AgreeBelow s (signatureAndBody m token) (signatureAndBody n token) :=
  takes_identifier.ends.agree_bind fun _ => takes_identifier.ends.agree_bind fun _ =>
    (agree_identifiers hm hn).bind ((ends_identifiers m).onward hm) fun _ =>
    (ends_require _).agree_bind fun _ => (agree_expression hm hn).bind_same

theorem agree_function (hm : s ≤ m) (hn : s ≤ n) : AgreeBelow s (function m) (function n) :=
  (ends_require _).agree_bind fun token => agree_signatureAndBody hm hn token

theorem agree_functionOrSkip (hm : s ≤ m) (hn : s ≤ n) :
    AgreeBelow s (functionOrSkip m) (functionOrSkip n) := by
  intro p small
  rw [functionOrSkip, functionOrSkip, agree_function hm hn p small]

end Entries

end LoopLang.Parser
