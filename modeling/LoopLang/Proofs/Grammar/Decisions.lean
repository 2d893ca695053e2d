import LoopLang.Proofs.Grammar.Verdicts

set_option autoImplicit false

/-! # Every production decides

The productions are gone through rule by rule once more, now for their verdicts. The tokens that a
production takes derive its tree or start a derivation, and the verdict is the same wherever these
tokens come next. A primary expression may begin with a `let`, so it must not be read behind an
`end`, where this `let` would be a border; it never is, because a token that is no `end` stands in
front of every expression. -/

namespace LoopLang

variable {α β ι : Type}

/-! ## Beginnings of derivations -/

namespace Grammar

/-- Some derivation begins with these tokens, and scanning can come to those that it adds. -/
def Starts (derives : List Token → α → Prop) (ts : List Token) : Prop :=
  ∃ us a, (∀ t ∈ us, t.Spelled) ∧ derives (ts ++ us) a

theorem starts_of_derives {derives : List Token → α → Prop} {ts : List Token} {a : α}
    (h : derives ts a) : Starts derives ts :=
  ⟨[], a, List.forall_mem_nil _, by rwa [List.append_nil]⟩

theorem Starts.of_append {derives : List Token → α → Prop} {ts us : List Token}
    (h : Starts derives (ts ++ us)) (spelled : ∀ t ∈ us, t.Spelled) : Starts derives ts := by
  obtain ⟨vs, a, spelled', derived⟩ := h
  rw [List.append_assoc] at derived
  exact ⟨us ++ vs, a, List.forall_mem_append.mpr ⟨spelled, spelled'⟩, derived⟩

theorem Starts.imp {derives : List Token → α → Prop} {derives' : List Token → β → Prop}
    {ts us : List Token} (h : Starts derives ts)
    (imp : ∀ vs a, derives (ts ++ vs) a → ∃ b, derives' (us ++ vs) b) : Starts derives' us := by
  obtain ⟨vs, a, spelled, derived⟩ := h
  obtain ⟨b, derived'⟩ := imp vs a derived
  exact ⟨vs, b, spelled, derived'⟩

theorem Starts.tier {k : Nat} {ts : List Token} (h : Starts Primary ts) (le : k ≤ 5) :
    Starts (Tier k) ts :=
  h.imp fun _ e primary => ⟨e, (Tier.primary primary).mono le⟩

end Grammar

namespace Parser

open Grammar (Tier Primary Arguments Bindings Starts ident starts_of_derives)

/-! ## Rules -/

/-- Behind a token whose kind is `near`, the trees of `x` are derived by the tokens that it takes,
and where it ends without one, these tokens start a derivation. -/
structure Decides (near : TokenKind → Prop) (x : Production α) (ys : ι → Production α)
    (derives : List Token → α → Prop) : Prop where
  starts : Starts derives []
  decided : ∀ p : Parser, p.Lexed → near p.previous →
    Decided x ys p (fun ts a _ => derives ts a) (Starts derives)

/-- Not an `end`. -/
def Inside (kind : TokenKind) : Prop :=
  kind ≠ .keyword .endKw

instance : DecidablePred Inside := fun _ => inferInstanceAs (Decidable (_ ≠ _))

/-- The last of these tokens is of this kind, if there are any. -/
def After (ts : List Token) (kind : TokenKind) : Prop :=
  ∃ before, kind = lastKind before ts

section Rules

variable {near : TokenKind → Prop} {derives : List Token → α → Prop}

theorem Decides.of_succ {x : Production α} {z : Nat → ι → Production α} {c : ι → Nat}
    (none : ∀ i, z 0 i = outOfSteps) (h : Decides near x (fun i => z (c i - 1 + 1) i) derives) :
    Decides near x (fun i => z (c i) i) derives :=
  ⟨h.starts, fun p lexed front => .of_succ none (h.decided p lexed front)⟩

/-- What is read behind anything but an `end` is read behind such a token. -/
theorem Decides.behind {x : Production α} {ys : ι → Production α}
    (h : Decides Inside x ys derives) {t : Token} (inside : Inside t.kind) :
    Decides (After [t]) x ys derives := by
  refine ⟨h.starts, ?_⟩
  rintro p lexed ⟨before, front⟩
  exact h.decided p lexed (front ▸ inside)

theorem Decides.bind {derives' : List Token → β → Prop} {x : Production α}
    {ys : ι → Production α} {f : α → Production β} {gs : ι → α → Production β}
    (hx : Decides near x ys derives)
    (hf : ∀ ts a, derives ts a →
      Decides (After ts) (f a) (fun i => gs i a) fun us => derives' (ts ++ us)) :
    Decides near (x >>= f) (fun i => ys i >>= gs i) derives' := by
  have extends' : ∀ ts, Starts derives ts → Starts derives' ts := by
    rintro ts ⟨us, a, spelled, derived⟩
    obtain ⟨vs, b, spelled', derived'⟩ := (hf _ a derived).starts
    exact ⟨us ++ vs, b, List.forall_mem_append.mpr ⟨spelled, spelled'⟩, by simpa using derived'⟩
  refine ⟨extends' _ hx.starts, fun p lexed front => (hx.decided p lexed front).bind extends' ?_⟩
  intro ts a q pass derived
  have rest := (hf ts a derived).decided q (lexed.passes pass) ⟨p.previous, pass.previous⟩
  have again : (Starts fun us => derives' (ts ++ us)) = fun us => Starts derives' (ts ++ us) := by
    funext us
    simp only [Starts, List.append_assoc]
  rwa [again] at rest

theorem decides_pure {a : α} (h : derives [] a) :
    Decides near (pure a) (fun _ : ι => pure a) derives := by
  refine ⟨starts_of_derives h,
    fun p _ _ => Or.inr ⟨[], .tree a, p, rfl, List.forall_mem_nil _, rfl, h, ?_⟩⟩
  intro _ q q' _ pass _
  obtain rfl : q' = q := pass
  exact Or.inl rfl

theorem decides_outOfSteps {ys : ι → Production α} (starts : Starts derives []) :
    Decides near outOfSteps ys derives :=
  ⟨starts, fun p _ _ => Or.inl ⟨p, rfl⟩⟩

theorem decides_giveUp {w : Wanted} (start : ∀ k, w.Suits k → Starts derives [k]) :
    Decides near (giveUp w.cause) (fun _ : ι => giveUp w.cause) derives := by
  obtain ⟨k, suits, spelled⟩ := w.exists_suits
  have withToken : Starts derives ([] ++ [k]) := start k suits
  have starts := withToken.of_append (List.forall_mem_singleton.mpr spelled)
  refine ⟨starts, fun p _ _ => Or.inr ⟨[], .stuck w, p, rfl,
    List.forall_mem_nil _, rfl, start, fun _ q q' _ pass _ => ?_⟩⟩
  obtain rfl : q' = q := pass
  exact Or.inl rfl

theorem decides_looksAt {kind : TokenKind} (inner : Inner kind) :
    Decides near (looksAt kind) (fun _ : ι => looksAt kind) fun ts _ => ts = [] := by
  have starts : Starts (fun ts (_ : Bool) => ts = []) [] := starts_of_derives (a := true) rfl
  refine ⟨starts, fun p _ _ => Or.inr ⟨[], .tree (p.current.kind == kind), p, rfl,
    List.forall_mem_nil _, rfl, rfl, fun _ q q' _ pass alike => Or.inl ?_⟩⟩
  obtain rfl : q' = q := pass
  have same : (p.current.kind == kind) = (q'.current.kind == kind) := by
    rw [Bool.eq_iff_iff, beq_iff_eq, beq_iff_eq]
    exact (alike trivial).kind_iff inner
  rw [same]
  rfl

theorem decides_acceptKind {kind : TokenKind} (inner : Inner kind) :
    Decides near (acceptKind kind) (fun _ : ι => acceptKind kind) fun ts found =>
      (ts = [] ∧ found = none) ∨ ∃ t, ts = [t] ∧ found = some t ∧ t.kind = kind := by
  refine ⟨starts_of_derives (Or.inl ⟨rfl, rfl⟩), fun p _ _ => Or.inr ?_⟩
  by_cases here : p.current.kind = kind
  · have notEnd : ∀ t ∈ [p.current], t.kind ≠ .eof :=
      List.forall_mem_singleton.mpr (here ▸ inner.1)
    refine ⟨[p.current], .tree (some p.current), p.step, ⟨rfl, rfl⟩, notEnd, if_pos here,
      Or.inr ⟨p.current, rfl, rfl, here⟩, fun _ q q' _ pass _ => Or.inl ?_⟩
    obtain ⟨same, rfl⟩ := pass
    rw [← same]
    exact if_pos (same ▸ here)
  · refine ⟨[], .tree none, p, rfl, List.forall_mem_nil _, if_neg here, Or.inl ⟨rfl, rfl⟩,
      fun _ q q' _ pass alike => Or.inl ?_⟩
    obtain rfl : q' = q := pass
    exact if_neg fun here' => here (((alike trivial).kind_iff inner).mpr here')

theorem decides_require {kind : TokenKind} (inner : Inner kind) :
    Decides near (require kind) (fun _ : ι => require kind) fun ts t =>
      ts = [t] ∧ t.kind = kind := by
  refine (decides_acceptKind inner).bind ?_
  rintro _ _ (⟨rfl, rfl⟩ | ⟨t, rfl, rfl, here⟩)
  · exact decides_giveUp (w := .kind kind) fun k suits => starts_of_derives ⟨rfl, suits⟩
  · exact decides_pure ⟨rfl, here⟩

theorem decides_identifier :
    Decides near identifier (fun _ : ι => identifier) fun ts i =>
      ∃ t, ts = [t] ∧ t.kind = .identifier ∧ i = ident t := by
  refine (decides_acceptKind (by decide)).bind ?_
  rintro _ _ (⟨rfl, rfl⟩ | ⟨t, rfl, rfl, here⟩)
  · exact decides_giveUp (w := .identifier) fun k suits =>
      starts_of_derives ⟨k, rfl, suits, rfl⟩
  · exact decides_pure ⟨t, rfl, here, rfl⟩

/-! A sequence goes on according to what is read first. -/

theorem Decides.of_looksAt {kind : TokenKind} (inner : Inner kind) {f : Bool → Production α}
    {gs : ι → Bool → Production α}
    (hf : ∀ here, Decides (After []) (f here) (fun i => gs i here) derives) :
    Decides near (looksAt kind >>= f) (fun i => looksAt kind >>= gs i) derives := by
  refine (decides_looksAt inner).bind ?_
  rintro _ here rfl
  exact hf here

theorem Decides.of_require {kind : TokenKind} (inner : Inner kind) {f : Token → Production α}
    {gs : ι → Token → Production α}
    (hf : ∀ t, t.kind = kind →
      Decides (After [t]) (f t) (fun i => gs i t) fun ts => derives (t :: ts)) :
    Decides near (require kind >>= f) (fun i => require kind >>= gs i) derives := by
  refine (decides_require inner).bind ?_
  rintro _ t ⟨rfl, here⟩
  exact hf t here

theorem Decides.of_identifier {f : Ident → Production α} {gs : ι → Ident → Production α}
    (hf : ∀ t, t.kind = .identifier →
      Decides (After [t]) (f (ident t)) (fun i => gs i (ident t)) fun ts => derives (t :: ts)) :
    Decides near (identifier >>= f) (fun i => identifier >>= gs i) derives := by
  refine decides_identifier.bind ?_
  rintro _ _ ⟨t, rfl, name, rfl⟩
  exact hf t name

end Rules

/-! ## Lists -/

theorem decides_identifiers {near : TokenKind → Prop} (n : Nat) (c : ι → Nat) :
    Decides near (identifiers n) (fun i => identifiers (c i)) fun ts is =>
      (∀ t ∈ ts, t.kind = .identifier) ∧ is = ts.map ident := by
  induction n generalizing near c with
  | zero => exact decides_outOfSteps (starts_of_derives ⟨List.forall_mem_nil _, rfl⟩)
  | succ n ih =>
    refine .of_succ (z := fun m _ => identifiers m) (fun _ => rfl) ?_
    refine .of_looksAt (by decide) fun here => ?_
    cases here with
    | false => exact decides_pure ⟨List.forall_mem_nil _, rfl⟩
    | true =>
      refine .of_identifier fun t name => (ih _).bind ?_
      rintro ts _ ⟨names, rfl⟩
      refine decides_pure ⟨?_, by simp⟩
      simpa using And.intro name names

section Parts

variable {near : TokenKind → Prop} {e : Production Expr} {es : ι → Production Expr}
  (he : Decides Inside e es (Tier 1))
include he

theorem decides_arguments (n : Nat) (c : ι → Nat) :
    Decides near (arguments e n) (fun i => arguments (es i) (c i)) Arguments := by
  induction n generalizing near c with
  | zero =>
    obtain ⟨ts, a, spelled, tier⟩ := he.starts
    obtain ⟨l, left, spelledLeft⟩ := Token.exists_spelled (.symbol .leftParen)
    obtain ⟨r, right, spelledRight⟩ := Token.exists_spelled (.symbol .rightParen)
    refine decides_outOfSteps ⟨l :: (ts ++ [r]), [a], ?_, .last left tier right⟩
    exact List.forall_mem_cons.mpr ⟨spelledLeft, List.forall_mem_append.mpr
      ⟨spelled, List.forall_mem_singleton.mpr spelledRight⟩⟩
  | succ n ih =>
    refine .of_succ (z := fun m i => arguments (es i) m) (fun _ => rfl) ?_
    refine .of_require (by decide) fun l left => ?_
    refine (he.behind (by rw [left]; decide)).bind fun ts arg tier => ?_
    refine .of_require (by decide) fun r right => ?_
    refine .of_looksAt (by decide) fun more => ?_
    cases more with
    | false =>
      refine decides_pure ?_
      simpa using Arguments.last left tier right
    | true =>
      refine (ih _).bind fun us others derived => decides_pure ?_
      simpa using Arguments.cons left tier right derived

theorem decides_bindings (n : Nat) (c : ι → Nat) :
    Decides near (bindings e n) (fun i => bindings (es i) (c i)) Bindings := by
  induction n generalizing near c with
  | zero =>
    obtain ⟨ts, a, spelled, tier⟩ := he.starts
    obtain ⟨t, name, spelledName⟩ := Token.exists_spelled .identifier
    obtain ⟨s, assign, spelledAssign⟩ := Token.exists_spelled (.symbol .assign)
    refine decides_outOfSteps ⟨t :: s :: ts, [⟨ident t, a⟩], ?_, .last name assign tier⟩
    exact List.forall_mem_cons.mpr ⟨spelledName, List.forall_mem_cons.mpr ⟨spelledAssign, spelled⟩⟩
  | succ n ih =>
    refine .of_succ (z := fun m i => bindings (es i) m) (fun _ => rfl) ?_
    refine .of_identifier fun t name => .of_require (by decide) fun s assign => ?_
    refine (he.behind (by rw [assign]; decide)).bind fun ts value tier => ?_
    refine (decides_acceptKind (by decide)).bind ?_
    rintro _ _ (⟨rfl, rfl⟩ | ⟨a, rfl, rfl, andKw⟩)
    · refine decides_pure ?_
      simpa using Bindings.last name assign tier
    · refine (ih _).bind fun us others derived => decides_pure ?_
      simpa using Bindings.cons name assign tier andKw derived

end Parts

/-! ## Operators -/

section Operators

variable {operand : Production Expr} {operands : ι → Production Expr}
  (hop : Decides Inside operand operands Primary)
include hop

/-- The climb starts what its left operand, the operators and operands behind it, and the one that
it wants would make of it. -/
theorem decided_climb {n threshold k : Nat} {ts : List Token} {lhs : Expr} {p : Parser}
    (c : ι → Nat) (lexed : p.Lexed) (tier : Tier k ts lhs) (above : threshold < k)
    (stops : p.StopsAt k) :
    Decided (climb operand n threshold lhs) (fun i => climb (operands i) (c i) threshold lhs) p
      (fun us e q => Tier (threshold + 1) (ts ++ us) e ∧ q.StopsAt threshold)
      fun us => Starts (Tier (threshold + 1)) (ts ++ us) := by
  induction n generalizing threshold k ts lhs p c with
  | zero => exact Or.inl ⟨p, rfl⟩
  | succ n ih =>
    refine .of_succ (z := fun m i => climb (operands i) m threshold lhs) (fun _ => rfl) ?_
    by_cases stopsHere : p.StopsAt threshold
    · have whole : Tier (threshold + 1) (ts ++ []) lhs := by
        simpa using tier.mono above
      refine Or.inr ⟨[], .tree lhs, p, rfl, List.forall_mem_nil _, climb_of_stopsAt stopsHere,
        ⟨whole, stopsHere⟩, fun _ q q' _ pass alike => Or.inl ?_⟩
      obtain rfl : q' = q := pass
      exact climb_of_stopsAt ((alike trivial).stopsAt stopsHere)
    · obtain ⟨op, found, tighter⟩ : ∃ op, BinaryOp.ofTokenKind? p.current.kind = some op
          ∧ threshold < op.precedence := by
        simpa [StopsAt] using stopsHere
      have sign := Grammar.joins_iff.mpr ⟨found, rfl⟩
      have notEnd : p.current.kind ≠ .eof := fun here => by rw [here] at found; cases found
      have inside : Inside p.step.previous := fun (here : p.current.kind = _) => by
        rw [here] at found
        cases found
      have highest : op.precedence < 5 := by cases op <;> decide
      have lexed' : p.step.Lexed := lexed_step lexed.2
      have same' : ∀ i q, q.current = p.current →
          climb (operands i) (c i - 1 + 1) threshold lhs q =
            (operation (operands i) (c i - 1) op.precedence >>= fun rhs =>
              climb (operands i) (c i - 1) threshold (.binary p.current op lhs rhs)) q.step := by
        intro i q here
        rw [← here] at found ⊢
        exact climb_of_operator found tighter
      refine Decided.of_step (climb_of_operator found tighter) same' notEnd ?_
      -- the right operand is a climb of its own, with the operator as its threshold
      have rhs : Decided (operation operand n op.precedence)
          (fun i => operation (operands i) (c i - 1) op.precedence) p.step
          (fun us b q => Tier (op.precedence + 1) us b ∧ q.StopsAt op.precedence)
          (Starts (Tier (op.precedence + 1))) :=
        (hop.decided p.step lexed' inside).bind (fun us start => start.tier highest)
          fun us b q pass primary => ih _ (lexed'.passes pass) (.primary primary) highest
            (q.stopsAt_four.mono (by decide))
      -- no operator that comes next bound tighter than `k`, so `lhs` can be the left operand
      have joined : ∀ us b, Tier (op.precedence + 1) us b →
          Tier op.precedence (ts ++ p.current :: us) (.binary p.current op lhs b) :=
        fun us b tier' => .join (tier.mono (stops op found)) sign tier'
      refine rhs.bind ?_ ?_
      · exact fun us start => start.imp fun vs b tier' =>
          ⟨_, by simpa using (joined _ b tier').mono tighter⟩
      · intro us b q pass taken
        have rest := ih (fun i => c i - 1) (lexed'.passes pass) (joined us b taken.1) tighter
          taken.2
        simpa only [List.append_assoc, List.cons_append] using rest

theorem decides_operation (n : Nat) (c : ι → Nat) :
    Decides Inside (operation operand n 0) (fun i => operation (operands i) (c i) 0)
      (Tier 1) := by
  have loosest : 0 < 5 := by decide
  refine ⟨hop.starts.tier (by decide), fun p lexed front => ?_⟩
  refine (hop.decided p lexed front).bind (fun ts start => start.tier (by decide)) ?_
  intro ts first q pass primary
  have rest := decided_climb hop (n := n) c (lexed.passes pass) (.primary primary) loosest
    (q.stopsAt_four.mono (by decide))
  exact rest.mono_post fun us e r taken => taken.1

end Operators

/-! ## Primaries -/

section Parts

variable {e : Production Expr} {es : ι → Production Expr} (he : Decides Inside e es (Tier 1))
  {t : Token}
include he

theorem decides_nameOrCall {near : TokenKind → Prop} (n : Nat) (c : ι → Nat)
    (name : t.kind = .identifier) :
    Decides near (nameOrCall e n t) (fun i => nameOrCall (es i) (c i) t)
      fun ts e => Primary (t :: ts) e := by
  refine .of_looksAt (by decide) fun more => ?_
  cases more with
  | false => exact decides_pure (.var name)
  | true =>
    refine (decides_arguments he n c).bind fun ts args derived => decides_pure ?_
    simpa using Primary.call name derived

theorem decides_group (left : t.kind = .symbol .leftParen) :
    Decides Inside (group e) (fun i => group (es i)) fun ts e => Primary (t :: ts) e := by
  refine he.bind fun ts inner tier => .of_require (by decide) fun r right => ?_
  refine decides_pure ?_
  simpa using Primary.group left tier right

theorem decides_conditional (ifKw : t.kind = .keyword .ifKw) :
    Decides Inside (conditional e t) (fun i => conditional (es i) t)
      fun ts e => Primary (t :: ts) e := by
  refine he.bind fun ts test hc => .of_require (by decide) fun u thenKw => ?_
  refine (he.behind (by rw [thenKw]; decide)).bind fun us thenBranch ha => ?_
  refine .of_require (by decide) fun l elseKw => ?_
  refine (he.behind (by rw [elseKw]; decide)).bind fun vs elseBranch hb => ?_
  refine .of_require (by decide) fun r endKw => ?_
  refine decides_pure ?_
  simpa using Primary.cond ifKw hc thenKw ha elseKw hb endKw

theorem decides_bindingForm {near : TokenKind → Prop} (n : Nat) (c : ι → Nat)
    {node : List Binding → Expr → Expr}
    (rule : ∀ {ts i us r bs body}, Bindings ts bs → i.kind = .keyword .inKw → Tier 1 us body →
      r.kind = .keyword .endKw → Primary (t :: (ts ++ i :: (us ++ [r]))) (node bs body)) :
    Decides near (bindingForm e n node) (fun i => bindingForm (es i) (c i) node)
      fun ts e => Primary (t :: ts) e := by
  refine (decides_bindings he n c).bind fun ts names hb => ?_
  refine .of_require (by decide) fun i inKw => ?_
  refine (he.behind (by rw [inKw]; decide)).bind fun us body he => ?_
  refine .of_require (by decide) fun r endKw => ?_
  refine decides_pure ?_
  simpa using rule hb inKw he endKw

end Parts

/-- What is read behind the token that begins a primary expression. -/
theorem decides_rest {n : Nat} {c : ι → Nat}
    (ih : Decides Inside (primary n) (fun i => primary (c i)) Primary) {head : Head} {t : Token}
    (begins : head.Begins t.kind) (other : head ≠ .integer) :
    Decides Inside (head.rest n t) (fun i => head.rest (c i) t)
      fun ts e => Primary (t :: ts) e := by
  have inner := decides_operation ih n c
  cases head with
  | integer => exact absurd rfl other
  | name => exact decides_nameOrCall inner n c begins
  | unary op => exact ih.bind fun ts operand h => decides_pure (by simpa using .unary begins h)
  | group => exact decides_group inner begins
  | cond => exact decides_conditional inner begins
  | letIn => exact decides_bindingForm inner n c (.letIn begins)
  | loop => exact decides_bindingForm inner n c (.loop begins)
  | recur =>
    exact (decides_arguments inner n c).bind fun ts args h =>
      decides_pure (by simpa using .recur begins h)

/-- The verdict on an integer that has been taken. -/
def literalVerdict (t : Token) : Verdict Expr :=
  match Decimal.read? t.literal with
  | some value => .tree (.integer t value)
  | none => .overflow t

theorem integerLiteral_apply (t : Token) (p : Parser) :
    integerLiteral t p = (literalVerdict t).result p := by
  unfold integerLiteral literalVerdict
  cases Decimal.read? t.literal <;> rfl

theorem decided_integer {n : Nat} {c : ι → Nat} {p : Parser} (lexed : p.Lexed)
    (kind : p.current.kind = .integer) :
    Decided (primary (n + 1)) (fun i => primary (c i + 1)) p (fun ts e _ => Primary ts e)
      (Starts Primary) := by
  have begins : Head.Begins p.current.kind .integer := kind
  have notEnd : ∀ t ∈ [p.current], t.kind ≠ .eof :=
    List.forall_mem_singleton.mpr (by rw [kind]; decide)
  have holds : (literalVerdict p.current).Holds (fun ts e _ => Primary ts e) (Starts Primary)
      [p.current] p.step := by
    unfold literalVerdict
    split
    · next v read =>
      obtain ⟨nonempty, digits⟩ := lexed.1 kind
      exact .integer ((Grammar.number_iff kind nonempty digits).mpr read)
    · exact ⟨kind, [], rfl, fun k ⟨_, number⟩ => starts_of_derives (.integer number)⟩
  refine Or.inr ⟨[p.current], literalVerdict p.current, p.step, ⟨rfl, rfl⟩, notEnd,
    (primary_of_begins begins).trans (integerLiteral_apply _ _), holds, ?_⟩
  rintro i q _ _ ⟨here, rfl⟩ _
  rw [← here] at begins ⊢
  exact Or.inl ((primary_of_begins begins).trans (integerLiteral_apply _ _))

theorem primary_of_none {n : Nat} {p : Parser} (none : Head.ofTokenKind? p.current.kind = none) :
    primary (n + 1) p = (Verdict.stuck .expression).result p := by
  rw [primary, bind_apply]
  simp only [accept, none]
  rfl

theorem decides_primary (n : Nat) (c : ι → Nat) :
    Decides Inside (primary n) (fun i => primary (c i)) Primary := by
  have starts : Starts Primary [] := by
    obtain ⟨t, name, spelled⟩ := Token.exists_spelled .identifier
    exact ⟨[t], _, List.forall_mem_singleton.mpr spelled, .var name⟩
  induction n generalizing c with
  | zero => exact decides_outOfSteps starts
  | succ n ih =>
    refine .of_succ (z := fun m _ => primary m) (fun _ => rfl)
      ⟨starts, fun p lexed inside => ?_⟩
    cases found : Head.ofTokenKind? p.current.kind with
    | none =>
      refine Or.inr ⟨[], .stuck .expression, p, rfl, List.forall_mem_nil _, primary_of_none found,
        fun k ⟨_, number⟩ => starts_of_derives (.integer number),
        fun _ q q' front pass alike => Or.inl ?_⟩
      obtain rfl : q' = q := pass
      -- behind anything but an `end`, a `let` is no border
      have same := (alike trivial).kind_eq inside (front ▸ inside)
      exact primary_of_none (same ▸ found)
    | some head =>
      have begins := Head.begins_iff.mpr found
      by_cases integer : head = .integer
      · subst integer
        exact decided_integer lexed begins
      · have notEnd : p.current.kind ≠ .eof := fun here => by rw [here] at found; cases found
        have inside' : Inside p.step.previous := fun (here : p.current.kind = _) => by
          rw [here] at found
          cases found
        have same' : ∀ i q, q.current = p.current →
            primary (c i - 1 + 1) q = head.rest (c i - 1) p.current q.step := by
          intro i q here
          rw [← here] at begins ⊢
          exact primary_of_begins begins
        exact .of_step (primary_of_begins begins) same' notEnd
          ((decides_rest (ih _) begins integer).decided p.step (lexed_step lexed.2) inside')

theorem decides_expression (n : Nat) (c : ι → Nat) :
    Decides Inside (expression n) (fun i => expression (c i)) Grammar.Expression :=
  decides_operation (decides_primary n c) n c

/-! ## Functions -/

theorem decides_signatureAndBody (near : TokenKind → Prop) (n : Nat) (c : ι → Nat) {t : Token}
    (letKw : t.kind = .keyword .letKw) :
    Decides near (signatureAndBody n t) (fun i => signatureAndBody (c i) t)
      fun ts f => Grammar.Function (t :: ts) f := by
  refine .of_identifier fun i name => .of_identifier fun j first => ?_
  refine (decides_identifiers n c).bind ?_
  rintro js _ ⟨others, rfl⟩
  refine .of_require (by decide) fun s assign => ?_
  refine ((decides_expression n c).behind (by rw [assign]; decide)).bind fun ts body derived => ?_
  refine .of_require (by decide) fun r endKw => ?_
  have params : ∀ u ∈ j :: js, u.kind = .identifier := List.forall_mem_cons.mpr ⟨first, others⟩
  refine decides_pure ?_
  simpa using
    Grammar.Function.mk letKw name params (List.cons_ne_nil _ _) assign derived endKw

theorem function_ne_outOfSteps {n : Nat} {p q : Parser} (small : p.size ≤ n) :
    function n p ≠ .error .outOfSteps q := by
  intro stopped
  have ends := takes_function n p (Nat.lt_succ_of_le small)
  rw [stopped] at ends
  exact ends

/-- Reading a function takes the tokens `ts` and comes to the verdict `v`. A `let` is taken first,
wherever it stands, so what is in front of it plays no part for the verdict. -/
structure FunctionRun (n : Nat) (p : Parser) (ts : List Token) (v : Verdict Function)
    (p' : Parser) : Prop where
  pass : p.Passes ts p'
  notEnd : ∀ t ∈ ts, t.kind ≠ .eof
  result : function n p = v.result p'
  holds : v.Holds (fun ts f _ => Grammar.Function ts f) (Starts Grammar.Function) ts p'
  nothing : ts = [] → p.current.kind ≠ .keyword .letKw ∧ v = .stuck (.kind (.keyword .letKw))
  again : ∀ {m : Nat} {q q' : Parser}, q.size ≤ m → q.Passes ts q' →
    (v.LooksAhead → Alike p' q') → (ts = [] → q.current.kind ≠ .keyword .letKw) →
      function m q = v.result q'

/-- Enough steps bring a function to a verdict. -/
theorem exists_functionRun {n : Nat} {p : Parser} (lexed : p.Lexed) (small : p.size ≤ n) :
    ∃ ts v p', FunctionRun n p ts v p' := by
  by_cases here : p.current.kind = .keyword .letKw
  · have letKw : (p.current.kind ≠ .eof) := by rw [here]; decide
    have decides := decides_signatureAndBody (fun _ => True) n id here
    rcases decides.decided p.step (lexed_step lexed.2) trivial with
      ⟨q, stopped⟩ | ⟨ts, v, p', pass, notEnd, result, holds, repeats⟩
    · have same := function_apply n p
      rw [if_pos here, stopped] at same
      exact absurd same (function_ne_outOfSteps small)
    refine ⟨p.current :: ts, v, p', ⟨rfl, pass⟩, List.forall_mem_cons.mpr ⟨letKw, notEnd⟩,
      by rw [function_apply, if_pos here, result], holds.behind [p.current], nofun,
      fun {m q q'} small' pass' alike _ => ?_⟩
    obtain ⟨front, pass'⟩ := pass'
    have same := function_apply m q
    rw [front, if_pos here] at same
    rcases repeats m q.step q' (congrArg Token.kind front) pass' alike with again | ⟨r, stopped⟩
    · exact same.trans again
    · exact absurd (same.trans stopped) (function_ne_outOfSteps small')
  · refine ⟨[], .stuck (.kind (.keyword .letKw)), p, rfl, List.forall_mem_nil _,
      by rw [function_apply, if_neg here]; rfl, fun k suits => ?_, fun _ => ⟨here, rfl⟩,
      fun {m q q'} _ pass _ other => ?_⟩
    · exact (decides_signatureAndBody (fun _ => True) 0 id suits).starts
    · obtain rfl : q' = q := pass
      rw [function_apply, if_neg (other rfl)]
      rfl

end Parser

end LoopLang
