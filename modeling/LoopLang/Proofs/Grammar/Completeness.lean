import LoopLang.Proofs.Grammar.Choices
import LoopLang.Proofs.Parser.Reads

set_option autoImplicit false

/-! # What is in the grammar is read

Wherever the tokens of a derivation come next, the production reads them up to the last one and ends
with the tree of the derivation, provided that nothing behind them could belong to them: no operator
that binds tightly enough and no further argument. A part of tier `k` is not read by one call but in
the course of a climb; `Climbs` says how far this climb has come. -/

namespace LoopLang.Parser

open Grammar (Tier Primary Arguments Bindings ident joins_iff)

variable {α β : Type}

/-! ## Steps -/

theorem identifier_of_kind {p : Parser} (here : p.current.kind = .identifier) :
    identifier p = .ok (ident p.current) p.step := by
  rw [identifier_apply, if_pos here]
  rfl

theorem size_step_lt_of_kind {kind : TokenKind} {p : Parser} (here : p.current.kind = kind)
    (notEnd : kind ≠ .eof) : p.step.size < p.size :=
  size_step_lt (here ▸ notEnd)

/-! ## Ends of expressions -/

/-- A token that neither goes on with an expression nor passes an argument. -/
def Closing (kind : TokenKind) : Prop :=
  BinaryOp.ofTokenKind? kind = none ∧ kind ≠ .symbol .leftParen

instance : DecidablePred Closing := fun _ => inferInstanceAs (Decidable (_ ∧ _))

theorem Closing.stopsAt {p : Parser} (closing : Closing p.current.kind) (k : Nat) :
    p.StopsAt k := by
  intro op found
  rw [closing.1] at found
  cases found

/-- With fewer than `m` tokens left, `x` reads these tokens as `a` if they are closed. -/
def ReadsAs (m : Nat) (x : Production α) (ts : List Token) (a : α) : Prop :=
  ∀ p q : Parser, p.size < m → p.Passes ts q → Closing q.current.kind → x p = .ok a q

/-- What is read in front of a closing token is read up to this token. -/
theorem ReadsAs.until {m : Nat} {x : Production α} {a : α} {kind : TokenKind} {ts us : List Token}
    {t : Token} {p r : Parser} (reads : ReadsAs m x ts a) (here : t.kind = kind)
    (closing : Closing kind ∧ kind ≠ .eof) (enough : p.size < m)
    (pass : p.Passes (ts ++ t :: us) r) :
    ∃ q, x p = .ok a q ∧ q.current = t ∧ q.step.size < p.size ∧ q.step.Passes us r := by
  obtain ⟨q, first, rfl, others⟩ := passes_append.mp pass
  subst here
  have shorter := size_step_lt closing.2
  have shorter' := Nat.lt_of_lt_of_le shorter first.size_le
  exact ⟨q, reads p q enough first closing.1, rfl, shorter', others⟩

/-! ## Parts of primaries -/

section Parts

variable {e : Production Expr} {m : Nat} {p q : Parser}

theorem group_ok {ts : List Token} {inner : Expr} {r : Token} (reads : ReadsAs m e ts inner)
    (right : r.kind = .symbol .rightParen) (enough : p.size < m)
    (pass : p.Passes (ts ++ [r]) q) : group e p = .ok inner q := by
  obtain ⟨p₁, first, rfl, _, rfl⟩ := reads.until right (by decide) enough pass
  rw [group, bind_of_ok first, bind_of_ok (require_of_kind right)]
  rfl

theorem conditional_ok {ts us vs : List Token} {c a b : Expr} {t l r i : Token}
    (test : ReadsAs m e ts c) (thenKw : t.kind = .keyword .thenKw) (thenBranch : ReadsAs m e us a)
    (elseKw : l.kind = .keyword .elseKw) (elseBranch : ReadsAs m e vs b)
    (endKw : r.kind = .keyword .endKw) (enough : p.size < m)
    (pass : p.Passes (ts ++ t :: (us ++ l :: (vs ++ [r]))) q) :
    conditional e i p = .ok (.cond i c a b) q := by
  obtain ⟨p₁, first, rfl, _, pass⟩ := test.until thenKw (by decide) enough pass
  obtain ⟨p₂, second, rfl, _, pass⟩ := thenBranch.until elseKw (by decide) (by omega) pass
  obtain ⟨p₃, third, rfl, _, rfl⟩ := elseBranch.until endKw (by decide) (by omega) pass
  rw [conditional, bind_of_ok first, bind_of_ok (require_of_kind thenKw), bind_of_ok second,
    bind_of_ok (require_of_kind elseKw), bind_of_ok third, bind_of_ok (require_of_kind endKw)]
  rfl

theorem bindingForm_ok {n : Nat} {node : List Binding → Expr → Expr} {ts us : List Token}
    {bs : List Binding} {body : Expr} {i r : Token}
    (names : ∀ p₁, p.Passes ts p₁ → p₁.current.kind = .keyword .inKw →
      bindings e n p = .ok bs p₁) (inKw : i.kind = .keyword .inKw) (reads : ReadsAs m e us body)
    (endKw : r.kind = .keyword .endKw) (enough : p.size < m)
    (pass : p.Passes (ts ++ i :: (us ++ [r])) q) :
    bindingForm e n node p = .ok (node bs body) q := by
  obtain ⟨p₁, before, rfl, behind⟩ := passes_append.mp pass
  have shorter := before.size_le
  have shorter' := p₁.size_step_le
  obtain ⟨p₂, second, rfl, _, rfl⟩ := reads.until endKw (by decide) (by omega) behind
  rw [bindingForm, bind_of_ok (names p₁ before inKw), bind_of_ok (require_of_kind inKw),
    bind_of_ok second, bind_of_ok (require_of_kind endKw)]
  rfl

/-! ## Lists -/

theorem identifiers_ok {n : Nat} {ts : List Token} (names : ∀ t ∈ ts, t.kind = .identifier)
    (room : p.size < n) (pass : p.Passes ts q) (next : q.current.kind ≠ .identifier) :
    identifiers n p = .ok (ts.map ident) q := by
  induction ts generalizing n p with
  | nil =>
    obtain rfl : q = p := pass
    obtain ⟨n, rfl⟩ := Nat.exists_eq_add_one_of_ne_zero (Nat.ne_zero_of_lt room)
    rw [identifiers, bind_of_ok (looksAt_of_ne next), if_neg (by decide)]
    rfl
  | cons t ts ih =>
    obtain ⟨rfl, pass⟩ := pass
    obtain ⟨n, rfl⟩ := Nat.exists_eq_add_one_of_ne_zero (Nat.ne_zero_of_lt room)
    obtain ⟨name, names⟩ := List.forall_mem_cons.mp names
    have shorter := size_step_lt_of_kind name (by simp)
    have others := ih names (n := n) (by omega) pass
    rw [identifiers, bind_of_ok (looksAt_of_kind name), if_pos rfl,
      bind_of_ok (identifier_of_kind name), bind_of_ok others]
    rfl

/-- The first of some arguments, with what the production does behind it. -/
theorem arguments_first {n : Nat} {ts us : List Token} {arg : Expr} {l r : Token}
    (left : l.kind = .symbol .leftParen) (reads : ReadsAs m e ts arg)
    (right : r.kind = .symbol .rightParen) (enough : p.size ≤ m)
    (pass : p.Passes (l :: (ts ++ r :: us)) q) :
    ∃ p₁ : Parser, p₁.size < p.size ∧ p₁.Passes us q ∧
      arguments e (n + 1) p =
        if p₁.current.kind = .symbol .leftParen
        then (arguments e n >>= fun others => pure (arg :: others)) p₁ else .ok [arg] p₁ := by
  obtain ⟨rfl, pass⟩ := pass
  have shorter := size_step_lt_of_kind left (by simp)
  obtain ⟨p₁, first, rfl, _, pass⟩ := reads.until right (by decide) (by omega) pass
  refine ⟨p₁.step, by omega, pass, ?_⟩
  rw [arguments, bind_of_ok (require_of_kind left), bind_of_ok first,
    bind_of_ok (require_of_kind right)]
  by_cases more : p₁.step.current.kind = .symbol .leftParen
  · rw [bind_of_ok (looksAt_of_kind more), if_pos rfl, if_pos more]
  · rw [bind_of_ok (looksAt_of_ne more), if_neg (by decide), if_neg more]
    rfl

/-- The first of some bindings, up to the token behind its value. -/
theorem bindings_first {n : Nat} {ts : List Token} {value : Expr} {t s : Token}
    (name : t.kind = .identifier) (assign : s.kind = .symbol .assign) (reads : ReadsAs m e ts value)
    (enough : p.size ≤ m) (pass : p.Passes (t :: s :: ts) q) (closing : Closing q.current.kind) :
    q.size < p.size ∧
      bindings e (n + 1) p =
        if q.current.kind = .keyword .andKw
        then (bindings e n >>= fun others => pure (⟨ident t, value⟩ :: others)) q.step
        else .ok [⟨ident t, value⟩] q := by
  obtain ⟨rfl, rfl, pass⟩ := pass
  have shorter := size_step_lt_of_kind name (by simp)
  have shorter' := p.step.size_step_le
  have shorter'' := pass.size_le
  have first := reads p.step.step q (by omega) pass closing
  refine ⟨by omega, ?_⟩
  rw [bindings, bind_of_ok (identifier_of_kind name), bind_of_ok (require_of_kind assign),
    bind_of_ok first, acceptKind_bind_apply]
  rfl

end Parts

/-! ## Operators -/

/-- From `p` on, the operation comes to `q` with this left operand and goes on climbing there. -/
def Climbs (m n threshold : Nat) (p : Parser) (lhs : Expr) (q : Parser) : Prop :=
  ∃ rest, q.size < rest ∧
    operation (primary m) n threshold p = climb (primary m) rest threshold lhs q

theorem Climbs.ok {m n threshold : Nat} {p q : Parser} {e : Expr}
    (climbs : Climbs m n threshold p e q) (stops : q.StopsAt threshold) :
    operation (primary m) n threshold p = .ok e q := by
  obtain ⟨rest, room, same⟩ := climbs
  obtain ⟨rest, rfl⟩ := Nat.exists_eq_add_one_of_ne_zero (Nat.ne_zero_of_lt room)
  rw [same, climb_of_stopsAt stops]

/-- The climb takes an operator of its tier once it has come to it and the right operand is read. -/
theorem Climbs.join {m n threshold : Nat} {p q r : Parser} {op : BinaryOp} {a b : Expr}
    (lhs : Climbs m n threshold p a q) (found : BinaryOp.ofTokenKind? q.current.kind = some op)
    (above : threshold < op.precedence) (shorter : r.size ≤ q.step.size)
    (rhs : ∀ k, q.step.size < k → Climbs m k op.precedence q.step b r)
    (stops : r.StopsAt op.precedence) :
    Climbs m n threshold p (.binary q.current op a b) r := by
  obtain ⟨rest, room, same⟩ := lhs
  obtain ⟨rest, rfl⟩ := Nat.exists_eq_add_one_of_ne_zero (Nat.ne_zero_of_lt room)
  have notEnd : q.current.kind ≠ .eof := by
    intro atEnd
    rw [atEnd] at found
    cases found
  have lessLeft := size_step_lt notEnd
  have right := (rhs rest (by omega)).ok stops
  exact ⟨rest, by omega, by rw [same, climb_of_operator found above, bind_of_ok right]⟩

/-- An operation over a threshold below `k` climbs over these tokens wherever they come next, if
what comes behind them does not belong to an expression of tier `k`. -/
def ClimbsOver (k : Nat) (ts : List Token) (e : Expr) : Prop :=
  ∀ ⦃m n threshold : Nat⦄ ⦃p q : Parser⦄, p.Passes ts q → p.size < m → p.size < n →
    threshold < k → q.StopsAt k → q.current.kind ≠ .symbol .leftParen → Climbs m n threshold p e q

theorem ClimbsOver.readsAs {ts : List Token} {e : Expr} (reaches : ClimbsOver 1 ts e) {m : Nat} :
    ReadsAs m (operation (primary m) m 0) ts e := by
  intro p q enough pass closing
  have climbs : Climbs m m 0 p e q :=
    reaches pass enough enough Nat.one_pos (closing.stopsAt 1) closing.2
  exact climbs.ok (closing.stopsAt 0)

/-! ## Derivations -/

theorem arguments_current {ts : List Token} {es : List Expr} (h : Arguments ts es) {p q : Parser}
    (pass : p.Passes ts q) : p.current.kind = .symbol .leftParen := by
  cases h with
  | last left _ _ => rwa [pass.1]
  | cons left _ _ _ => rwa [pass.1]

mutual

theorem read_primary {ts : List Token} {e : Expr} (h : Primary ts e) {n : Nat} {p q : Parser}
    (pass : p.Passes ts q) (room : p.size < n) (next : q.current.kind ≠ .symbol .leftParen) :
    primary n p = .ok e q := by
  obtain ⟨n, rfl⟩ := Nat.exists_eq_add_one_of_ne_zero (Nat.ne_zero_of_lt room)
  match h with
  | .integer number =>
    obtain ⟨rfl, rfl⟩ := pass
    have begins : Head.Begins p.current.kind .integer := number.kind
    have read := (Grammar.number_iff number.kind number.nonempty number.digits).mp number
    rw [primary_of_begins begins, Head.rest, integerLiteral, read]
    rfl
  | .var name =>
    obtain ⟨rfl, rfl⟩ := pass
    have begins : Head.Begins p.current.kind .name := name
    rw [primary_of_begins begins, Head.rest, nameOrCall, bind_of_ok (looksAt_of_ne next),
      if_neg (by decide)]
    rfl
  | .call name args =>
    obtain ⟨rfl, pass⟩ := pass
    have begins : Head.Begins p.current.kind .name := name
    have shorter := size_step_lt_of_kind name (by simp)
    -- arguments begin with a parenthesis, and this is what the parser looks for
    have more := looksAt_of_kind (arguments_current args pass)
    have read := read_arguments args (m := n) (n := n) pass (by omega) (by omega) next
    rw [primary_of_begins begins, Head.rest, nameOrCall, bind_of_ok more, if_pos rfl,
      bind_of_ok read]
    rfl
  | .unary sign operand =>
    obtain ⟨rfl, pass⟩ := pass
    have begins : Head.Begins p.current.kind (.unary _) := sign
    have shorter := size_step_lt (p := p) fun atEnd => by rw [atEnd] at sign; cases sign
    have read := read_primary operand (n := n) pass (by omega) next
    rw [primary_of_begins begins, Head.rest, bind_of_ok read]
    rfl
  | .group left inner right =>
    obtain ⟨rfl, pass⟩ := pass
    have begins : Head.Begins p.current.kind .group := left
    have shorter := size_step_lt_of_kind left (by simp)
    rw [primary_of_begins begins]
    exact group_ok (read_tier inner).readsAs right (by omega) pass
  | .cond ifKw test thenKw thenBranch elseKw elseBranch endKw =>
    obtain ⟨rfl, pass⟩ := pass
    have begins : Head.Begins p.current.kind .cond := ifKw
    have shorter := size_step_lt_of_kind ifKw (by simp)
    rw [primary_of_begins begins]
    exact conditional_ok (read_tier test).readsAs thenKw (read_tier thenBranch).readsAs elseKw
      (read_tier elseBranch).readsAs endKw (by omega) pass
  | .letIn letKw bindings inKw body endKw =>
    obtain ⟨rfl, pass⟩ := pass
    have begins : Head.Begins p.current.kind .letIn := letKw
    have shorter := size_step_lt_of_kind letKw (by simp)
    rw [primary_of_begins begins]
    exact bindingForm_ok (fun p₁ before => read_bindings bindings before (by omega) (by omega)) inKw
      (read_tier body).readsAs endKw (by omega) pass
  | .loop loopKw bindings inKw body endKw =>
    obtain ⟨rfl, pass⟩ := pass
    have begins : Head.Begins p.current.kind .loop := loopKw
    have shorter := size_step_lt_of_kind loopKw (by simp)
    rw [primary_of_begins begins]
    exact bindingForm_ok (fun p₁ before => read_bindings bindings before (by omega) (by omega)) inKw
      (read_tier body).readsAs endKw (by omega) pass
  | .recur recurKw args =>
    obtain ⟨rfl, pass⟩ := pass
    have begins : Head.Begins p.current.kind .recur := recurKw
    have shorter := size_step_lt_of_kind recurKw (by simp)
    have read := read_arguments args (m := n) (n := n) pass (by omega) (by omega) next
    rw [primary_of_begins begins, Head.rest, bind_of_ok read]
    rfl

theorem read_tier {k : Nat} {ts : List Token} {e : Expr} (h : Tier k ts e) :
    ClimbsOver k ts e := by
  intro m n threshold p q pass enough room above stops next
  match h with
  | .primary operand =>
    have first := read_primary operand pass enough next
    exact ⟨n, Nat.lt_of_le_of_lt pass.size_le room, bind_of_ok first⟩
  | .next operand =>
    exact read_tier operand pass enough room (by omega) (stops.mono (Nat.le_succ _)) next
  | .join lhs sign rhs =>
    obtain ⟨p₁, before, rfl, behind⟩ := passes_append.mp pass
    obtain ⟨found, tier⟩ := joins_iff.mp sign
    have next₁ : p₁.current.kind ≠ .symbol .leftParen := by
      intro here
      rw [here] at found
      cases found
    -- the climb comes here with the whole left operand, since this operator is of tier `k` itself;
    -- being the threshold on its right, it lets the right operand end at `q`
    have left := read_tier lhs before enough room above (tier ▸ stopsAt_precedence found) next₁
    have shorter := before.size_le
    have shorter' := p₁.size_step_le
    refine left.join found (tier ▸ above) behind.size_le (fun k room' => ?_) (tier ▸ stops)
    exact read_tier rhs behind (by omega) room' (by omega) (stops.mono (Nat.le_succ _)) next

theorem read_arguments {ts : List Token} {es : List Expr} (h : Arguments ts es) {m n : Nat}
    {p q : Parser} (pass : p.Passes ts q) (enough : p.size ≤ m) (room : p.size < n)
    (next : q.current.kind ≠ .symbol .leftParen) :
    arguments (operation (primary m) m 0) n p = .ok es q := by
  obtain ⟨n, rfl⟩ := Nat.exists_eq_add_one_of_ne_zero (Nat.ne_zero_of_lt room)
  match h with
  | .last left arg right =>
    obtain ⟨p₁, _, rfl, first⟩ := arguments_first left (read_tier arg).readsAs right enough pass
    rw [first, if_neg next]
  | .cons left arg right others =>
    obtain ⟨p₁, shorter, pass, first⟩ :=
      arguments_first left (read_tier arg).readsAs right enough pass
    have read := read_arguments others (m := m) (n := n) pass (by omega) (by omega) next
    rw [first, if_pos (arguments_current others pass), bind_of_ok read]
    rfl

theorem read_bindings {ts : List Token} {bs : List Binding} (h : Bindings ts bs) {m n : Nat}
    {p q : Parser} (pass : p.Passes ts q) (enough : p.size ≤ m) (room : p.size < n)
    (inKw : q.current.kind = .keyword .inKw) :
    bindings (operation (primary m) m 0) n p = .ok bs q := by
  obtain ⟨n, rfl⟩ := Nat.exists_eq_add_one_of_ne_zero (Nat.ne_zero_of_lt room)
  match h with
  | .last name assign value =>
    obtain ⟨_, first⟩ := bindings_first name assign (read_tier value).readsAs enough pass
      (by rw [inKw]; decide)
    rw [first, if_neg (by rw [inKw]; decide)]
  | @Bindings.cons t s ts a us e bs name assign value andKw others =>
    -- the value ends in front of the `and`, which closes it like the `in` closes the last one
    have split : p.Passes ((t :: s :: ts) ++ a :: us) q := pass
    obtain ⟨p₁, before, rfl, behind⟩ := passes_append.mp split
    obtain ⟨shorter, first⟩ := bindings_first name assign (read_tier value).readsAs enough before
      (by rw [andKw]; decide)
    have shorter' := p₁.size_step_le
    have read := read_bindings others (m := m) (n := n) behind (by omega) (by omega) inKw
    rw [first, if_pos andKw, bind_of_ok read]
    rfl

end

theorem readsAs_expression {ts : List Token} {e : Expr} (h : Grammar.Expression ts e) (n : Nat) :
    ReadsAs n (expression n) ts e :=
  (read_tier h).readsAs

/-! ## Functions -/

theorem read_function {ts : List Token} {f : Function} (h : Grammar.Function ts f) {n : Nat}
    {p q : Parser} (enough : p.size ≤ n) (pass : p.Passes ts q) : function n p = .ok f q := by
  obtain ⟨letKw, name, names, nonempty, assign, derived, endKw⟩ := h
  obtain ⟨first, others, rfl⟩ := List.exists_cons_of_ne_nil nonempty
  obtain ⟨firstName, otherNames⟩ := List.forall_mem_cons.mp names
  obtain ⟨rfl, rfl, rfl, pass⟩ := pass
  obtain ⟨p₁, params, rfl, behind⟩ := passes_append.mp pass
  have shorter := size_step_lt_of_kind letKw (by simp)
  have shorter' := p.step.size_step_le
  have shorter'' := p.step.step.size_step_le
  have shorter₁ := params.size_le
  have shorter₁' := p₁.size_step_le
  have notName : p₁.current.kind ≠ .identifier := by rw [assign]; decide
  have rest := identifiers_ok otherNames (n := n) (by omega) params notName
  obtain ⟨p₂, read, rfl, _, rfl⟩ :=
    (readsAs_expression derived n).until endKw (by decide) (by omega) behind
  rw [function_apply, if_pos letKw, signatureAndBody, bind_of_ok (identifier_of_kind name),
    bind_of_ok (identifier_of_kind firstName), bind_of_ok rest,
    bind_of_ok (require_of_kind assign), bind_of_ok read, bind_of_ok (require_of_kind endKw)]
  rfl

end LoopLang.Parser
