import LoopLang.Parser.Progress
import LoopLang.Proofs.Cursor.Results

set_option autoImplicit false

/-! # What a production reads

`Parser.Passes p ts q` says that taking the tokens `ts` leads from the parser `p` to `q`, and
`Parser.Reads x p post fails` that the production `x` does nothing else to `p` than to take tokens,
never the end of the text, and that it ends as `post` and `fails` allow for the tokens it took. Of a
production that is not given enough steps it says nothing. There is one rule for each piece that
productions are made of. -/

namespace LoopLang.Parser

variable {α β : Type}

/-! ## Taking tokens -/

/-- Taking these tokens, one after the other, leads from one parser to the other. -/
def Passes : Parser → List Token → Parser → Prop
  | p, [], q => q = p
  | p, t :: ts, q => p.current = t ∧ Passes p.step ts q

theorem passes_append {p r : Parser} {ts us : List Token} :
    p.Passes (ts ++ us) r ↔ ∃ q, p.Passes ts q ∧ q.Passes us r := by
  induction ts generalizing p with
  | nil => simp [Passes]
  | cons t ts ih =>
    simp only [List.cons_append, Passes, ih]
    constructor
    · rintro ⟨here, q, first, second⟩
      exact ⟨q, ⟨here, first⟩, second⟩
    · rintro ⟨q, ⟨here, first⟩, second⟩
      exact ⟨here, q, first, second⟩

theorem Passes.trans {p q r : Parser} {ts us : List Token} (first : p.Passes ts q)
    (second : q.Passes us r) : p.Passes (ts ++ us) r :=
  passes_append.mpr ⟨q, first, second⟩

theorem Passes.size_le {p q : Parser} {ts : List Token} (pass : p.Passes ts q) :
    q.size ≤ p.size := by
  induction ts generalizing p with
  | nil =>
    obtain rfl : q = p := pass
    exact Nat.le_refl _
  | cons t ts ih => exact Nat.le_trans (ih pass.2) p.size_step_le

theorem noted_step (p : Parser) : p.noted <:+ p.step.noted := by
  obtain ⟨ds, noted, _⟩ := p.step_spec
  exact ⟨ds.reverse, noted.symm⟩

/-- Diagnostics are never lost on the way. -/
theorem Passes.noted {p q : Parser} {ts : List Token} (pass : p.Passes ts q) :
    p.noted <:+ q.noted := by
  induction ts generalizing p with
  | nil =>
    obtain rfl : q = p := pass
    exact List.suffix_refl _
  | cons t ts ih => exact p.noted_step.trans (ih pass.2)

/-! ## Tokens read from a text -/

/-- All tokens that the parser looks at, now or later, are as if read from a text. -/
def Lexed (p : Parser) : Prop :=
  p.current.Lexed ∧ ∀ t, .ok t ∈ p.pending → t.Lexed

theorem lexed_step {p : Parser} (lexed : ∀ t, .ok t ∈ p.pending → t.Lexed) : p.step.Lexed := by
  obtain ⟨ds, _, split | ⟨_, nothing, atEnd⟩⟩ := p.step_spec
  · rw [split] at lexed
    exact ⟨lexed _ (by simp), fun t mem => lexed t (by simp [mem])⟩
  · refine ⟨?_, by simp [nothing]⟩
    rw [atEnd]
    exact fun kind => nomatch kind

theorem Lexed.passes {p q : Parser} {ts : List Token} (lexed : p.Lexed) (pass : p.Passes ts q) :
    q.Lexed := by
  induction ts generalizing p with
  | nil =>
    obtain rfl : q = p := pass
    exact lexed
  | cons t ts ih => exact ih (lexed_step lexed.2) pass.2

/-! ## Reading -/

/-- From the parser `p`, the production `x` takes tokens other than the end of the text and ends as
`post` and `fails` allow for these, if it ends. -/
def Reads (x : Production α) (p : Parser) (post : List Token → α → Parser → Prop)
    (fails : List Token → Diagnostic → Parser → Prop) : Prop :=
  match x p with
  | .ok a q => ∃ ts, p.Passes ts q ∧ (∀ t ∈ ts, t.kind ≠ .eof) ∧ post ts a q
  | .error (.failed d) q => ∃ ts, p.Passes ts q ∧ (∀ t ∈ ts, t.kind ≠ .eof) ∧ fails ts d q
  | .error .outOfSteps _ => True

section Rules

variable {p : Parser} {post : List Token → α → Parser → Prop}
  {fails : List Token → Diagnostic → Parser → Prop}

theorem Reads.of_ok {x : Production α} {a : α} {q : Parser} (h : Reads x p post fails)
    (result : x p = .ok a q) : ∃ ts, p.Passes ts q ∧ (∀ t ∈ ts, t.kind ≠ .eof) ∧ post ts a q := by
  rw [Reads, result] at h
  exact h

theorem Reads.of_failed {x : Production α} {d : Diagnostic} {q : Parser} (h : Reads x p post fails)
    (result : x p = .error (.failed d) q) :
    ∃ ts, p.Passes ts q ∧ (∀ t ∈ ts, t.kind ≠ .eof) ∧ fails ts d q := by
  rw [Reads, result] at h
  exact h

theorem Reads.mono_post {post' : List Token → α → Parser → Prop} {x : Production α}
    (h : Reads x p post fails) (hpost : ∀ ts a q, post ts a q → post' ts a q) :
    Reads x p post' fails := by
  unfold Reads at *
  cases result : x p with
  | ok a q =>
    rw [result] at h
    obtain ⟨ts, pass, notEnd, ha⟩ := h
    exact ⟨ts, pass, notEnd, hpost ts a q ha⟩
  | error stop q =>
    rw [result] at h
    cases stop with
    | failed d => exact h
    | outOfSteps => trivial

theorem Reads.bind {x : Production α} {f : α → Production β} {mid : List Token → α → Parser → Prop}
    {post : List Token → β → Parser → Prop} (hx : Reads x p mid fails)
    (hf : ∀ ts a q, p.Passes ts q → mid ts a q →
      Reads (f a) q (fun us => post (ts ++ us)) fun us => fails (ts ++ us)) :
    Reads (x >>= f) p post fails := by
  have joined : ∀ {ts us : List Token}, (∀ t ∈ ts, t.kind ≠ .eof) → (∀ t ∈ us, t.kind ≠ .eof) →
      ∀ t ∈ ts ++ us, t.kind ≠ .eof :=
    fun hts hus t ht => (List.mem_append.mp ht).elim (hts t) (hus t)
  unfold Reads at hx ⊢
  rw [bind_apply]
  cases result : x p with
  | ok a q =>
    rw [result] at hx
    obtain ⟨ts, pass, notEnd, ha⟩ := hx
    -- what the second part takes stands behind what the first part took
    have rest := hf ts a q pass ha
    unfold Reads at rest
    dsimp only
    cases result' : f a q with
    | ok b r =>
      rw [result'] at rest
      obtain ⟨us, pass', notEnd', hb⟩ := rest
      exact ⟨ts ++ us, pass.trans pass', joined notEnd notEnd', hb⟩
    | error stop r =>
      rw [result'] at rest
      cases stop with
      | failed d =>
        obtain ⟨us, pass', notEnd', hd⟩ := rest
        exact ⟨ts ++ us, pass.trans pass', joined notEnd notEnd', hd⟩
      | outOfSteps => trivial
  | error stop q =>
    rw [result] at hx
    cases stop with
    | failed d => exact hx
    | outOfSteps => trivial

theorem reads_pure {a : α} (h : post [] a p) : Reads (pure a) p post fails :=
  ⟨[], rfl, List.forall_mem_nil _, h⟩

theorem reads_outOfSteps : Reads outOfSteps p post fails := trivial

theorem reads_failed {d : Diagnostic} (h : fails [] d p) :
    Reads (throw (.failed d)) p post fails :=
  ⟨[], rfl, List.forall_mem_nil _, h⟩

theorem reads_giveUp {cause : String → Cause}
    (h : fails [] ⟨p.current.pos, cause p.current.text⟩ p) :
    Reads (giveUp cause) p post fails :=
  ⟨[], rfl, List.forall_mem_nil _, h⟩

/-- A production may take the current token and then do what another one does. -/
theorem Reads.of_step {x y : Production α} (same : x p = y p.step) (notEnd : p.current.kind ≠ .eof)
    (h : Reads y p.step (fun ts => post (p.current :: ts)) fun ts => fails (p.current :: ts)) :
    Reads x p post fails := by
  unfold Reads at h ⊢
  rw [same]
  cases result : y p.step with
  | ok a q =>
    rw [result] at h
    obtain ⟨ts, pass, others, ha⟩ := h
    exact ⟨p.current :: ts, ⟨rfl, pass⟩, List.forall_mem_cons.mpr ⟨notEnd, others⟩, ha⟩
  | error stop q =>
    rw [result] at h
    cases stop with
    | failed d =>
      obtain ⟨ts, pass, others, hd⟩ := h
      exact ⟨p.current :: ts, ⟨rfl, pass⟩, List.forall_mem_cons.mpr ⟨notEnd, others⟩, hd⟩
    | outOfSteps => trivial

theorem reads_accept {value : TokenKind → Option β}
    {post : List Token → Option (Token × β) → Parser → Prop} (atEnd : value .eof = none)
    (onNone : value p.current.kind = none → post [] none p)
    (onSome : ∀ b, value p.current.kind = some b →
      post [p.current] (some (p.current, b)) p.step) :
    Reads (accept value) p post fails := by
  unfold Reads accept
  cases found : value p.current.kind with
  | none => exact ⟨[], rfl, List.forall_mem_nil _, onNone found⟩
  | some b =>
    have notEnd : p.current.kind ≠ .eof := by
      intro here
      rw [here, atEnd] at found
      cases found
    exact ⟨[p.current], ⟨rfl, rfl⟩, List.forall_mem_singleton.mpr notEnd, onSome b found⟩

theorem reads_acceptKind {kind : TokenKind} {post : List Token → Option Token → Parser → Prop}
    (notEnd : kind ≠ .eof) (onNone : p.current.kind ≠ kind → post [] none p)
    (onSome : p.current.kind = kind → post [p.current] (some p.current) p.step) :
    Reads (acceptKind kind) p post fails := by
  unfold Reads acceptKind
  by_cases here : p.current.kind = kind
  · rw [if_pos here]
    exact ⟨[p.current], ⟨rfl, rfl⟩, List.forall_mem_singleton.mpr (here ▸ notEnd), onSome here⟩
  · rw [if_neg here]
    exact ⟨[], rfl, List.forall_mem_nil _, onNone here⟩

theorem reads_require {kind : TokenKind} {post : List Token → Token → Parser → Prop}
    (notEnd : kind ≠ .eof)
    (onOther : p.current.kind ≠ kind →
      fails [] ⟨p.current.pos, .unexpectedToken p.current.text kind.text⟩ p)
    (onKind : p.current.kind = kind → post [p.current] p.current p.step) :
    Reads (require kind) p post fails := by
  unfold Reads
  rw [require_apply]
  by_cases here : p.current.kind = kind
  · rw [if_pos here]
    exact ⟨[p.current], ⟨rfl, rfl⟩, List.forall_mem_singleton.mpr (here ▸ notEnd), onKind here⟩
  · rw [if_neg here]
    exact ⟨[], rfl, List.forall_mem_nil _, onOther here⟩

theorem reads_identifier {post : List Token → Ident → Parser → Prop}
    (onOther : p.current.kind ≠ .identifier →
      fails [] ⟨p.current.pos, .expectedIdentifier p.current.text⟩ p)
    (onName : p.current.kind = .identifier →
      post [p.current] ⟨p.current, p.current.literal⟩ p.step) :
    Reads identifier p post fails := by
  unfold Reads
  rw [identifier_apply]
  by_cases here : p.current.kind = .identifier
  · rw [if_pos here]
    have notEnd : p.current.kind ≠ .eof := by rw [here]; simp
    exact ⟨[p.current], ⟨rfl, rfl⟩, List.forall_mem_singleton.mpr notEnd, onName here⟩
  · rw [if_neg here]
    exact ⟨[], rfl, List.forall_mem_nil _, onOther here⟩

theorem reads_looksAt {kind : TokenKind} {post : List Token → Bool → Parser → Prop}
    (h : post [] (p.current.kind == kind) p) : Reads (looksAt kind) p post fails :=
  ⟨[], rfl, List.forall_mem_nil _, h⟩

end Rules

end LoopLang.Parser
