import LoopLang.Proofs.BigStep.Adequacy
import LoopLang.Proofs.BigStep.Blame

set_option autoImplicit false

/-! # Bindings in one list and in several

The bindings of a `let` are evaluated one behind the other, so a `let` with a list of bindings is
the `let` with the first of them around the `let` with the others, wherever the list is cut. Both
are bindings and what is done in the scope they lead to, and a cut only moves some of the bindings
from the one to the other. A loop is its bindings and rounds in the same way; if no `recur` can
start it again, there is one round, which is the body of a `let`. -/

namespace LoopLang

variable {α : Type}

/-! ## Behind bindings -/

namespace BigStep

/-- From the scope that the bindings lead to, `next` goes on to this outcome; or it is the error in
which they end. -/
def Behind (p : Program) (σ : Scope) (bs : List Binding)
    (next : Scope → Except RuntimeError α → Prop) (r : Except RuntimeError α) : Prop :=
  (∃ τ, Bindings p σ bs (.ok τ) ∧ next τ r) ∨ ∃ x, Bindings p σ bs (.error x) ∧ r = .error x

section Behind

variable {p : Program} {σ : Scope} {next : Scope → Except RuntimeError α → Prop}
  {r : Except RuntimeError α}

theorem behind_congr {bs : List Binding} {next' : Scope → Except RuntimeError α → Prop}
    (same : ∀ τ, next τ r ↔ next' τ r) : Behind p σ bs next r ↔ Behind p σ bs next' r := by
  simp only [Behind, same]

theorem behind_nil_iff : Behind p σ [] next r ↔ next σ r := by
  constructor
  · rintro (⟨_, ⟨⟩, h⟩ | ⟨_, ⟨⟩, _⟩)
    exact h
  · exact fun h => Or.inl ⟨σ, .nil, h⟩

theorem behind_cons_iff {b : Binding} {bs : List Binding} :
    Behind p σ (b :: bs) next r ↔
      (∃ v, Value p σ .binding b.value (.ok v) ∧ Behind p (σ.bind b.name v) bs next r)
        ∨ ∃ x, Value p σ .binding b.value (.error x) ∧ r = .error x := by
  constructor
  · rintro (⟨τ, bindings, h⟩ | ⟨x, bindings, rfl⟩)
    · cases bindings with
      | cons first others => exact Or.inl ⟨_, first, Or.inl ⟨τ, others, h⟩⟩
    · cases bindings with
      | cons first others => exact Or.inl ⟨_, first, Or.inr ⟨x, others, rfl⟩⟩
      | fails first => exact Or.inr ⟨x, first, rfl⟩
  · rintro (⟨v, first, ⟨τ, others, h⟩ | ⟨x, others, rfl⟩⟩ | ⟨x, first, rfl⟩)
    · exact Or.inl ⟨τ, .cons first others, h⟩
    · exact Or.inr ⟨x, .cons first others, rfl⟩
    · exact Or.inr ⟨x, .fails first, rfl⟩

/-- What is done behind some bindings may be to go on with the others. -/
theorem behind_append_iff {bs cs : List Binding} :
    Behind p σ (bs ++ cs) next r ↔ Behind p σ bs (fun τ => Behind p τ cs next) r := by
  induction bs generalizing σ with
  | nil => rw [List.nil_append, behind_nil_iff]
  | cons b bs ih =>
    rw [List.cons_append, behind_cons_iff, behind_cons_iff]
    simp only [ih]

end Behind

/-! ## Lets and loops -/

section Forms

variable {p : Program} {σ : Scope} {t u : Token} {bs cs : List Binding} {e : Expr}
  {r : Except RuntimeError Ending}

theorem eval_letIn_iff :
    Eval p σ (.letIn t bs e) r ↔ Behind p σ bs (fun τ => Eval p τ e) r := by
  constructor
  · intro h
    cases h with
    | letIn bindings body => exact Or.inl ⟨_, bindings, body⟩
    | letFails bindings => exact Or.inr ⟨_, bindings, rfl⟩
  · rintro (⟨τ, bindings, body⟩ | ⟨x, bindings, rfl⟩)
    · exact .letIn bindings body
    · exact .letFails bindings

theorem eval_loop_iff :
    Eval p σ (.loop t bs e) r ↔
      Behind p σ bs
        (fun τ r => ∃ q, Rounds p τ (bs.map Binding.name) e q ∧ r = q.map Ending.value) r := by
  constructor
  · intro h
    cases h with
    | loop bindings rounds => exact Or.inl ⟨_, bindings, _, rounds, rfl⟩
    | loopFails bindings rounds => exact Or.inl ⟨_, bindings, _, rounds, rfl⟩
    | loopBindingFails bindings => exact Or.inr ⟨_, bindings, rfl⟩
  · rintro (⟨τ, bindings, q, rounds, rfl⟩ | ⟨x, bindings, rfl⟩)
    · cases q with
      | ok v => exact .loop bindings rounds
      | error x => exact .loopFails bindings rounds
    · exact .loopBindingFails bindings

/-- Where no `recur` is in tail position, the first round of a loop is the last. -/
theorem rounds_iff_eval {names : List String} (last : ¬∃ pos count, e.TailRecur pos count) :
    (∃ q, Rounds p σ names e q ∧ r = q.map Ending.value) ↔ Eval p σ e r := by
  constructor
  · rintro ⟨q, rounds, rfl⟩
    -- another round, or a wrong number of values for it, takes a `recur` in tail position
    cases rounds with
    | done body => exact body
    | fails body => exact body
    | again pending _ _ => exact absurd ⟨_, _, pending.tailRecur⟩ last
    | arity pending _ => exact absurd ⟨_, _, pending.tailRecur⟩ last
  · intro body
    match r, body with
    | .ok (.value v), body => exact ⟨.ok v, .done body, rfl⟩
    | .ok (.pending vs pos), body => exact absurd ⟨_, _, body.tailRecur⟩ last
    | .error x, body => exact ⟨.error x, .fails body, rfl⟩

/-- A list of bindings may be cut in two. -/
theorem eval_letIn_append_iff {t' : Token} :
    Eval p σ (.letIn t (bs ++ cs) e) r ↔ Eval p σ (.letIn t' bs (.letIn u cs e)) r :=
  calc
    Eval p σ (.letIn t (bs ++ cs) e) r
        ↔ Behind p σ (bs ++ cs) (fun τ => Eval p τ e) r := eval_letIn_iff
    _ ↔ Behind p σ bs (fun τ => Behind p τ cs fun ρ => Eval p ρ e) r := behind_append_iff
    _ ↔ Behind p σ bs (fun τ => Eval p τ (.letIn u cs e)) r :=
      behind_congr fun _ => eval_letIn_iff.symm
    _ ↔ Eval p σ (.letIn t' bs (.letIn u cs e)) r := eval_letIn_iff.symm

/-- A loop that is not started again is a `let`. -/
theorem eval_loop_iff_eval_letIn (last : ¬∃ pos count, e.TailRecur pos count) :
    Eval p σ (.loop t bs e) r ↔ Eval p σ (.letIn u bs e) r :=
  eval_loop_iff.trans ((behind_congr fun _ => rounds_iff_eval last).trans eval_letIn_iff.symm)

end Forms

end BigStep

/-! ## Runs -/

namespace Program

/-- On every stack, both expressions end in the same way, if one of them ends: with the same value
or pending `recur` and then with the same stack, or with the same error. -/
def EndsAlike (p : Program) (e e' : Expr) : Prop :=
  ∀ s, (∀ ending t, (∃ fuel, p.eval fuel e s = .ok ending t) ↔
      ∃ fuel, p.eval fuel e' s = .ok ending t)
    ∧ ∀ x, (∃ fuel t, p.eval fuel e s = .error (.error x) t) ↔
      ∃ fuel t, p.eval fuel e' s = .error (.error x) t

section Ends

variable {p : Program} {e : Expr} {s : Stack}

theorem exists_eval_eq_ok_iff {ending : Ending} {t : Stack} :
    (∃ fuel, p.eval fuel e s = .ok ending t) ↔ t = s ∧ BigStep.Eval p s.scope e (.ok ending) := by
  constructor
  · rintro ⟨fuel, run⟩
    exact (BigStep.sound_eval p fuel e s).of_ok run
  · rintro ⟨rfl, derived⟩
    obtain ⟨fuel, ends⟩ := (derived.ends rfl).exists
    exact ⟨fuel, (p.keeps_eval fuel e).eq_of_endsIn ends⟩

theorem exists_eval_eq_error_iff {x : RuntimeError} :
    (∃ fuel t, p.eval fuel e s = .error (.error x) t) ↔ BigStep.Eval p s.scope e (.error x) := by
  constructor
  · rintro ⟨fuel, t, run⟩
    exact (BigStep.sound_eval p fuel e s).of_error run
  · exact fun derived => (derived.ends rfl).exists

/-- Expressions of one meaning end alike. -/
theorem endsAlike_of_eval_iff {e' : Expr}
    (same : ∀ σ r, BigStep.Eval p σ e r ↔ BigStep.Eval p σ e' r) : p.EndsAlike e e' := by
  intro s
  refine ⟨fun ending t => ?_, fun x => ?_⟩
  · rw [exists_eval_eq_ok_iff, exists_eval_eq_ok_iff, same]
  · rw [exists_eval_eq_error_iff, exists_eval_eq_error_iff, same]

end Ends

/-- **A list of bindings is the nesting of its parts.** A `let` ends like the `let` with the first
of its bindings around the `let` with the others, wherever its list is cut; and a loop whose body
has no `recur` in tail position ends like the `let` with its bindings and its body. -/
theorem bindings_nest (p : Program) (t t' u : Token) (bs cs : List Binding) (body : Expr) :
    p.EndsAlike (.letIn t (bs ++ cs) body) (.letIn t' bs (.letIn u cs body))
    ∧ ((¬∃ pos count, body.TailRecur pos count) →
        p.EndsAlike (.loop t bs body) (.letIn t' bs body)) :=
  ⟨endsAlike_of_eval_iff fun _ _ => BigStep.eval_letIn_append_iff,
    fun last => endsAlike_of_eval_iff fun _ _ => BigStep.eval_loop_iff_eval_letIn last⟩

end Program

/-- The bindings `a = n and a = a + a`, without the tokens of their source. -/
def Binding.doubling : List Binding :=
  let t : Token := .endOfText .nowhere
  [⟨⟨t, "a"⟩, .var t "n"⟩, ⟨⟨t, "a"⟩, .binary t .add (.var t "a") (.var t "a")⟩]

/-- The bindings `b = a and a = a * b`, without the tokens of their source. -/
def Binding.squaring : List Binding :=
  let t : Token := .endOfText .nowhere
  [⟨⟨t, "b"⟩, .var t "a"⟩, ⟨⟨t, "a"⟩, .binary t .mul (.var t "a") (.var t "b")⟩]

/-- The sum `a + e`. -/
def Expr.plusA (e : Expr) : Expr :=
  let t : Token := .endOfText .nowhere
  .binary t .add (.var t "a") e

/-- With three for `n`, the bindings lead to 36 for `a` and 6 for `b`, in one list and in two. As
the operand of a sum, a `recur` is refused in a loop and in a `let`. -/
theorem Program.bindings_nest_squaring :
    let t : Token := .endOfText .nowhere
    (∃ fuel, Program.eval ⟨[]⟩ fuel
        (.letIn t Binding.doubling (.letIn t Binding.squaring (.plusA (.var t "b")))) [⟨"n", 3⟩]
      = .ok (.value 42) [⟨"n", 3⟩])
    ∧ ∃ fuel s, Program.eval ⟨[]⟩ fuel
        (.letIn t Binding.doubling (.plusA (.recur t [.var t "a"]))) [⟨"n", 3⟩]
      = .error (.error (.recurIn .binary .nowhere)) s := by
  intro t
  have nest := Program.bindings_nest ⟨[]⟩ t t t Binding.doubling Binding.squaring
  have last : ¬∃ pos count, (Expr.plusA (.recur t [.var t "a"])).TailRecur pos count := by
    rintro ⟨pos, count, t', args, path, -⟩
    rcases path.cases_head with same | ⟨part, hands, -⟩
    · cases same
    · cases hands
  exact ⟨(((nest _).1 _).1 _ _).mp ⟨6, rfl⟩, (((nest _).2 last _).2 _).mp ⟨6, _, rfl⟩⟩

end LoopLang
