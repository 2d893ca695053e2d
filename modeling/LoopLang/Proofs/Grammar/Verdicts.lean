import LoopLang.Proofs.Cursor.Lexemes
import LoopLang.Proofs.Grammar.Choices
import LoopLang.Proofs.Parser.Reads

set_option autoImplicit false

/-! # What a production decides

A production that is given enough steps comes to a verdict: a tree, a token that it wanted and did
not find, or a literal out of range. `Decided x ys p post starts` says three things about the
verdict of `x` at the parser `p`. It satisfies `post` if it is a tree. If it is not, the tokens
taken are not to blame: with a token behind them that would have suited, they start something
(`starts`). And the verdict belongs to the tokens alone: every `ys i`, which is `x` with other
steps, comes to it wherever these tokens come next and the one behind them is of the same kind. Here
the end of the text and a `let` behind an `end` count as the same, since no production takes either.
There is one rule for each piece that productions are made of. -/

namespace LoopLang.Parser

variable {α β ι : Type}

/-! ## Verdicts -/

/-- What a production finds missing when it gives up. -/
inductive Wanted where
  | kind (kind : TokenKind)
  | identifier
  | expression

/-- The cause to give up for, which tells the text of the token found instead. -/
def Wanted.cause : Wanted → String → Cause
  | kind k, found => .unexpectedToken found k.text
  | identifier, found => .expectedIdentifier found
  | expression, found => .expectedExpression found

/-- The token would have been taken; an expression can always begin with a number. -/
def Wanted.Suits : Wanted → Token → Prop
  | kind k, t => t.kind = k
  | identifier, t => t.kind = .identifier
  | expression, t => ∃ v, Grammar.Number t v

theorem Wanted.exists_suits (w : Wanted) : ∃ k, w.Suits k ∧ k.Spelled := by
  cases w with
  | kind kind => exact Token.exists_spelled kind
  | identifier => exact Token.exists_spelled .identifier
  | expression =>
    have digits : ∀ c ∈ ['0'], Lexical.Digit c :=
      List.forall_mem_singleton.mpr (Lexical.isDigit_iff.mp rfl)
    have number : Grammar.Number ⟨.integer, "0", .nowhere⟩ 0 :=
      ⟨rfl, by decide, by decide, by decide, by decide⟩
    exact ⟨⟨.integer, "0", .nowhere⟩, ⟨0, number⟩, Or.inr ⟨List.cons_ne_nil _ _, digits⟩⟩

/-- How a production ends. -/
inductive Verdict (α : Type) where
  /-- With a tree. -/
  | tree (a : α)
  /-- At a token that does not suit. -/
  | stuck (wanted : Wanted)
  /-- Behind an integer that is out of range. -/
  | overflow (t : Token)

namespace Verdict

/-- The result of a production that comes to the verdict at this parser. -/
def result : Verdict α → Parser → EStateM.Result Stop Parser α
  | tree a, p => .ok a p
  | stuck w, p => .error (.failed ⟨p.current.pos, w.cause p.current.text⟩) p
  | overflow t, p => .error (.failed ⟨t.pos, .literalOutOfRange t.literal⟩) p

/-- The verdict depends on the token behind those taken. -/
def LooksAhead : Verdict α → Prop
  | overflow _ => False
  | _ => True

/-- What is known of a verdict behind the tokens `ts`, at a parser. -/
def Holds (post : List Token → α → Parser → Prop) (starts : List Token → Prop) (ts : List Token)
    (p : Parser) : Verdict α → Prop
  | tree a => post ts a p
  | stuck w => ∀ k, w.Suits k → starts (ts ++ [k])
  | overflow t => t.kind = .integer ∧
      ∃ us, ts = us ++ [t] ∧ ∀ k, Wanted.expression.Suits k → starts (us ++ [k])

end Verdict

/-! ## Borders -/

/-- The parser looks at the end of the text or at a `let` behind an `end`. -/
def AtBorder (p : Parser) : Prop :=
  p.current.kind = .eof ∨ (p.current.kind = .keyword .letKw ∧ p.previous = .keyword .endKw)

/-- The parsers look at tokens of the same kind, or both are at a border. -/
def Alike (p q : Parser) : Prop :=
  p.current.kind = q.current.kind ∨ (p.AtBorder ∧ q.AtBorder)

/-- No border is at a token of this kind. -/
def Inner (kind : TokenKind) : Prop :=
  kind ≠ .eof ∧ kind ≠ .keyword .letKw

instance : DecidablePred Inner := fun _ => inferInstanceAs (Decidable (_ ∧ _))

theorem AtBorder.not_inner {p : Parser} (border : p.AtBorder) : ¬Inner p.current.kind := by
  rintro ⟨notEnd, notLet⟩
  exact border.elim notEnd fun both => notLet both.1

theorem Alike.kind_iff {p q : Parser} {kind : TokenKind} (alike : Alike p q)
    (inner : Inner kind) : p.current.kind = kind ↔ q.current.kind = kind := by
  rcases alike with same | ⟨border, border'⟩
  · rw [same]
  · exact iff_of_false (fun here => border.not_inner (here ▸ inner))
      fun here => border'.not_inner (here ▸ inner)

/-- Behind anything but an `end`, the only border is the end of the text. -/
theorem Alike.kind_eq {p q : Parser} (alike : Alike p q) (inside : p.previous ≠ .keyword .endKw)
    (inside' : q.previous ≠ .keyword .endKw) : p.current.kind = q.current.kind := by
  rcases alike with same | ⟨border, border'⟩
  · exact same
  · have atEnd := border.resolve_right fun both => inside both.2
    have atEnd' := border'.resolve_right fun both => inside' both.2
    rw [atEnd, atEnd']

theorem Alike.stopsAt {p q : Parser} {threshold : Nat} (alike : Alike p q)
    (stops : p.StopsAt threshold) : q.StopsAt threshold := by
  intro op found
  rcases alike with same | ⟨_, border⟩
  · exact stops op (same ▸ found)
  · -- neither border is an operator
    rcases border with atEnd | ⟨atLet, _⟩
    · rw [atEnd] at found
      cases found
    · rw [atLet] at found
      cases found

/-! ## The token in front -/

/-- The kind of the last token, or of what came before if there are none. -/
def lastKind (before : TokenKind) (ts : List Token) : TokenKind :=
  ts.foldl (fun _ t => t.kind) before

theorem Passes.previous {p q : Parser} {ts : List Token} (pass : p.Passes ts q) :
    q.previous = lastKind p.previous ts := by
  induction ts generalizing p with
  | nil =>
    obtain rfl : q = p := pass
    rfl
  | cons t ts ih =>
    obtain ⟨rfl, pass⟩ := pass
    exact ih pass

/-- The same tokens are in front of both. -/
theorem Passes.previous_eq {p p' q q' : Parser} {ts : List Token} (pass : p.Passes ts p')
    (pass' : q.Passes ts q') (same : q.previous = p.previous) : q'.previous = p'.previous := by
  rw [pass.previous, pass'.previous, same]

/-- Where the same tokens come next, the same token does if there is one. -/
theorem Passes.alike {p p' q q' : Parser} {ts : List Token} (pass : p.Passes ts p')
    (pass' : q.Passes ts q') (alike : ts = [] → Alike p' q') : Alike p q := by
  cases ts with
  | nil =>
    obtain rfl : p' = p := pass
    obtain rfl : q' = q := pass'
    exact alike rfl
  | cons t ts => exact Or.inl (by rw [pass.1, pass'.1])

/-! ## Decided -/

/-- The productions come to the verdict that was come to between `p` and `p'`, wherever the same
tokens come next, unless they are not given enough steps. -/
def Repeats (ys : ι → Production α) (p : Parser) (ts : List Token) (v : Verdict α) (p' : Parser) :
    Prop :=
  ∀ (i : ι) (q q' : Parser), q.previous = p.previous → q.Passes ts q' →
    (v.LooksAhead → Alike p' q') → ys i q = v.result q' ∨ ∃ r, ys i q = .error .outOfSteps r

/-- If `x` ends at the parser `p`, it has taken some tokens and comes to a verdict that holds, and
that the productions `ys` repeat. -/
def Decided (x : Production α) (ys : ι → Production α) (p : Parser)
    (post : List Token → α → Parser → Prop) (starts : List Token → Prop) : Prop :=
  (∃ q, x p = .error .outOfSteps q) ∨
    ∃ ts v p', p.Passes ts p' ∧ (∀ t ∈ ts, t.kind ≠ .eof) ∧ x p = v.result p'
      ∧ v.Holds post starts ts p' ∧ Repeats ys p ts v p'

section Rules

variable {p : Parser} {post : List Token → α → Parser → Prop} {starts : List Token → Prop}

theorem Decided.mono_post {x : Production α} {ys : ι → Production α}
    {post' : List Token → α → Parser → Prop} (h : Decided x ys p post starts)
    (hpost : ∀ ts a q, post ts a q → post' ts a q) : Decided x ys p post' starts := by
  rcases h with stopped | ⟨ts, v, p', pass, notEnd, result, holds, repeats⟩
  · exact Or.inl stopped
  · refine Or.inr ⟨ts, v, p', pass, notEnd, result, ?_, repeats⟩
    cases v with
    | tree a => exact hpost ts a p' holds
    | stuck w => exact holds
    | overflow t => exact holds

/-- Productions that were given no steps need not come to a verdict. -/
theorem Decided.of_succ {x : Production α} {z : Nat → ι → Production α} {c : ι → Nat}
    (none : ∀ i, z 0 i = outOfSteps)
    (h : Decided x (fun i => z (c i - 1 + 1) i) p post starts) :
    Decided x (fun i => z (c i) i) p post starts := by
  rcases h with stopped | ⟨ts, v, p', pass, notEnd, result, holds, repeats⟩
  · exact Or.inl stopped
  refine Or.inr ⟨ts, v, p', pass, notEnd, result, holds, fun i q q' same pass' alike => ?_⟩
  have again := repeats i q q' same pass' alike
  dsimp only at again ⊢
  by_cases noSteps : c i = 0
  · rw [noSteps, none]
    exact Or.inr ⟨q, rfl⟩
  · have steps : c i - 1 + 1 = c i := by omega
    rwa [steps] at again

theorem bind_of_error {x : Production α} {f : α → Production β} {p q : Parser} {stop : Stop}
    (first : x p = .error stop q) : (x >>= f) p = .error stop q := by
  rw [bind_apply, first]

/-- A verdict of the second part is one of the sequence. -/
theorem Verdict.Holds.behind {v : Verdict α} {us : List Token} {q : Parser} (ts : List Token)
    (h : v.Holds (fun us => post (ts ++ us)) (fun us => starts (ts ++ us)) us q) :
    v.Holds post starts (ts ++ us) q := by
  cases v with
  | tree a => exact h
  | stuck w =>
    intro k suits
    rw [List.append_assoc]
    exact h k suits
  | overflow t =>
    obtain ⟨kind, us, rfl, start⟩ := h
    refine ⟨kind, ts ++ us, (List.append_assoc _ _ _).symm, fun k suits => ?_⟩
    rw [List.append_assoc]
    exact start k suits

/-- A verdict that does not depend on the next token is about one that was taken. -/
theorem Verdict.Holds.looksAhead {v : Verdict α} {ts : List Token} {q : Parser}
    (h : v.Holds post starts ts q) (nothing : ts = []) : v.LooksAhead := by
  cases v with
  | tree a => trivial
  | stuck w => trivial
  | overflow t =>
    obtain ⟨_, us, split, _⟩ := h
    rw [nothing] at split
    exact absurd split.symm (List.append_ne_nil_of_right_ne_nil us (List.cons_ne_nil t []))

theorem Decided.bind {x : Production α} {ys : ι → Production α} {f : α → Production β}
    {gs : ι → α → Production β} {mid : List Token → α → Parser → Prop}
    {post : List Token → β → Parser → Prop} {first : List Token → Prop}
    (hx : Decided x ys p mid first) (extends' : ∀ ts, first ts → starts ts)
    (hf : ∀ ts a q, p.Passes ts q → mid ts a q → Decided (f a) (fun i => gs i a) q
      (fun us => post (ts ++ us)) fun us => starts (ts ++ us)) :
    Decided (x >>= f) (fun i => ys i >>= gs i) p post starts := by
  rcases hx with ⟨q, stopped⟩ | ⟨ts, v, p₁, pass, notEnd, result, holds, repeats⟩
  · exact Or.inl ⟨q, bind_of_error stopped⟩
  cases v with
  | tree a =>
    rcases hf ts a p₁ pass holds with
      ⟨q, stopped⟩ | ⟨us, v, p₂, pass', notEnd', result', holds', repeats'⟩
    · exact Or.inl ⟨q, (bind_of_ok result).trans stopped⟩
    have notEnds : ∀ t ∈ ts ++ us, t.kind ≠ .eof := fun t mem =>
      (List.mem_append.mp mem).elim (notEnd t) (notEnd' t)
    refine Or.inr ⟨ts ++ us, v, p₂, pass.trans pass', notEnds, (bind_of_ok result).trans result',
      holds'.behind ts, fun i q q₂ same both alike => ?_⟩
    obtain ⟨q₁, pass₁, pass₂⟩ := passes_append.mp both
    -- behind the first part comes what the second takes, if it takes anything
    have alike₁ : Alike p₁ q₁ :=
      pass'.alike pass₂ fun nothing => alike (holds'.looksAhead nothing)
    rcases repeats i q q₁ same pass₁ fun _ => alike₁ with again | ⟨r, stopped⟩
    · have rest := repeats' i q₁ q₂ (pass.previous_eq pass₁ same) pass₂ alike
      dsimp only
      rwa [bind_of_ok again]
    · exact Or.inr ⟨r, bind_of_error stopped⟩
  | stuck w =>
    refine Or.inr ⟨ts, .stuck w, p₁, pass, notEnd, bind_of_error result,
      fun k suits => extends' _ (holds k suits), fun i q q₁ same pass₁ alike => ?_⟩
    rcases repeats i q q₁ same pass₁ alike with again | ⟨r, stopped⟩
    · exact Or.inl (bind_of_error again)
    · exact Or.inr ⟨r, bind_of_error stopped⟩
  | overflow t =>
    obtain ⟨kind, us, split, start⟩ := holds
    refine Or.inr ⟨ts, .overflow t, p₁, pass, notEnd, bind_of_error result,
      ⟨kind, us, split, fun k suits => extends' _ (start k suits)⟩, fun i q q₁ same pass₁ _ => ?_⟩
    rcases repeats i q q₁ same pass₁ nofun with again | ⟨r, stopped⟩
    · exact Or.inl (bind_of_error again)
    · exact Or.inr ⟨r, bind_of_error stopped⟩

/-- A production may take the current token and then do what another one does. -/
theorem Decided.of_step {x x' : Production α} {ys ys' : ι → Production α} (same : x p = x' p.step)
    (same' : ∀ i q, q.current = p.current → ys i q = ys' i q.step)
    (notEnd : p.current.kind ≠ .eof)
    (h : Decided x' ys' p.step (fun ts => post (p.current :: ts))
      fun ts => starts (p.current :: ts)) :
    Decided x ys p post starts := by
  rcases h with ⟨q, stopped⟩ | ⟨ts, v, p', pass, notEnd', result, holds, repeats⟩
  · exact Or.inl ⟨q, same.trans stopped⟩
  refine Or.inr ⟨p.current :: ts, v, p', ⟨rfl, pass⟩, List.forall_mem_cons.mpr ⟨notEnd, notEnd'⟩,
    same.trans result, Verdict.Holds.behind [p.current] holds, ?_⟩
  intro i q q' _ pass' alike
  obtain ⟨here, pass'⟩ := pass'
  have front : q.step.previous = p.step.previous := congrArg Token.kind here
  rw [same' i q here]
  exact repeats i q.step q' front pass' alike

end Rules

end LoopLang.Parser
