import LoopLang.Proofs.BigStep.Soundness
import Mathlib.Order.Filter.AtTopBot.Basic

set_option autoImplicit false

/-! # The rules and the evaluation agree

Whatever the rules derive in a scope, evaluation ends with on every stack that stands for that
scope, given enough fuel (`Filter.atTop` is the filter of large amounts). The rules are gone through
one by one, by recursion on the derivation. Together with soundness this makes the two agree on
every outcome: a value, a pending `recur` and an error alike. -/

namespace LoopLang

open Filter Run

/-! ## Ending -/

namespace Run

variable {α β : Type}

/-- The run `x` ends on the stack `s` with this outcome. -/
def EndsIn (x : Run α) (s : Stack) : Except RuntimeError α → Prop
  | .ok a => ∃ t, x s = .ok a t
  | .error e => ∃ t, x s = .error (.error e) t

variable {s t : Stack}

theorem endsIn_pure (a : α) : EndsIn (pure a : Run α) s (.ok a) := ⟨s, rfl⟩

theorem endsIn_fail (e : RuntimeError) : EndsIn (fail e : Run α) s (.error e) := ⟨s, rfl⟩

theorem endsIn_ofExcept (r : Except RuntimeError α) :
    EndsIn (ofExcept (r.mapError Halt.error)) s r := by
  cases r with
  | ok a => exact ⟨s, rfl⟩
  | error e => exact ⟨s, rfl⟩

theorem Keeps.eq_of_endsIn {x : Run α} {a : α} (keeps : Keeps x) (h : EndsIn x s (.ok a)) :
    x s = .ok a s := by
  obtain ⟨t, ht⟩ := h
  have same : t = s := (keeps s).of_ok ht
  rw [ht, same]

theorem EndsIn.bind {x : Run α} {f : α → Run β} {a : α} {r : Except RuntimeError β}
    (hx : x s = .ok a t) (hf : EndsIn (f a) t r) : EndsIn (x >>= f) s r := by
  have step : (x >>= f) s = f a t := by rw [bind_apply, hx]
  cases r with
  | ok b => exact hf.imp fun u hu => step.trans hu
  | error e => exact hf.imp fun u hu => step.trans hu

/-- Behind a step that keeps the stack, a run goes on where it was. -/
theorem EndsIn.andThen {x : Run α} {f : α → Run β} {a : α} {r : Except RuntimeError β}
    (hx : EndsIn x s (.ok a)) (keeps : Keeps x) (hf : EndsIn (f a) s r) : EndsIn (x >>= f) s r :=
  .bind (keeps.eq_of_endsIn hx) hf

theorem EndsIn.bind_error {x : Run α} {f : α → Run β} {e : RuntimeError}
    (hx : EndsIn x s (.error e)) : EndsIn (x >>= f) s (.error e) := by
  obtain ⟨t, ht⟩ := hx
  exact ⟨t, by rw [bind_apply, ht]⟩

theorem EndsIn.thenPop {x : Run α} {count : Nat} {r : Except RuntimeError α}
    (hx : EndsIn x s r)
    (room : Ensures x s (fun _ t => count ≤ t.length) fun _ t => count ≤ t.length) :
    EndsIn (Run.thenPop x count) s r := by
  cases r with
  | ok a =>
    obtain ⟨t, ht⟩ := hx
    have popped := pop_eq_ok (room.of_ok ht)
    exact ⟨t.drop count, by simp only [Run.thenPop, ht, bind_apply, popped]; rfl⟩
  | error e =>
    obtain ⟨t, ht⟩ := hx
    have popped := pop_eq_ok (room.of_error ht)
    exact ⟨t.drop count, by simp only [Run.thenPop, ht, bind_apply, popped]; rfl⟩

end Run

namespace BigStep

/-- What holds of every large amount of fuel but one holds of every large amount. -/
theorem eventually_of_succ {P : Nat → Prop} (h : ∀ᶠ n in atTop, P (n + 1)) :
    ∀ᶠ n in atTop, P n := by
  rw [← map_add_atTop_eq_nat 1]
  exact h

/-- Where bindings lead: to one stack for the whole scope, given enough fuel. -/
def BindingsEnd (p : Program) (bs : List Binding) (s : Stack) : Except RuntimeError Scope → Prop
  | .ok σ => ∃ t, t.scope = σ ∧ ∀ᶠ n in atTop, Run.bindings (p.eval n) bs s = .ok () t
  | .error x => ∀ᶠ n in atTop, EndsIn (Run.bindings (p.eval n) bs) s (.error x)

theorem BindingsEnd.framed {p : Program} {bs : List Binding} {s t : Stack}
    (h : ∀ᶠ n in atTop, Run.bindings (p.eval n) bs s = .ok () t) :
    Framed (bs.map Binding.name) s t := by
  obtain ⟨n, hn⟩ := h.exists
  exact (ensures_bindings_framed (p.keeps_eval n) bs s).of_ok hn

variable {p : Program}

mutual

theorem Eval.ends {σ : Scope} {e : Expr} {r : Except RuntimeError Ending} (h : Eval p σ e r)
    {s : Stack} (hs : s.scope = σ) : ∀ᶠ n in atTop, EndsIn (p.eval n e) s r := by
  -- a node takes one unit of fuel; what is left is enough for its parts, by recursion on the rules
  refine eventually_of_succ ?_
  match h with
  | .integer => exact .of_forall fun n => endsIn_pure _
  | .var bound =>
    have found : s.get? _ = some _ := (congrFun hs _).trans bound
    exact .of_forall fun n => .bind (by rw [fetch_apply, found]) (endsIn_pure _)
  | .unbound free =>
    have missing : s.get? _ = none := (congrFun hs _).trans free
    exact .of_forall fun n => .bind_error ⟨s, by rw [fetch_apply, missing]⟩
  | .call args result =>
    filter_upwards [args.ends hs, result.ends] with n hargs hcall
    refine hargs.andThen (keeps_args (p.keeps_eval n) _) (.bind (t := s) ?_ (endsIn_pure _))
    rw [hcall]
    rfl
  | .callFails args result =>
    filter_upwards [args.ends hs, result.ends] with n hargs hcall
    refine hargs.andThen (keeps_args (p.keeps_eval n) _) (.bind_error ?_)
    rw [hcall]
    exact endsIn_ofExcept _
  | .callArgFails args =>
    filter_upwards [args.ends hs] with n hargs
    exact hargs.bind_error
  | .ifTrue test nonzero branch =>
    filter_upwards [test.ends hs, branch.ends hs] with n htest hbranch
    refine htest.andThen (keeps_value (p.keeps_eval n) _ _) ?_
    rwa [if_neg nonzero]
  | .ifFalse test branch =>
    filter_upwards [test.ends hs, branch.ends hs] with n htest hbranch
    refine htest.andThen (keeps_value (p.keeps_eval n) _ _) ?_
    rwa [if_pos rfl]
  | .ifFails test =>
    filter_upwards [test.ends hs] with n htest
    exact htest.bind_error
  | .unary operand =>
    filter_upwards [operand.ends hs] with n hoperand
    exact hoperand.andThen (keeps_value (p.keeps_eval n) _ _) (endsIn_pure _)
  | .unaryFails operand =>
    filter_upwards [operand.ends hs] with n hoperand
    exact hoperand.bind_error
  | .binary lhs rhs =>
    filter_upwards [lhs.ends hs, rhs.ends hs] with n hl hr
    exact hl.andThen (keeps_value (p.keeps_eval n) _ _)
      (hr.andThen (keeps_value (p.keeps_eval n) _ _) (endsIn_pure _))
  | .leftFails lhs =>
    filter_upwards [lhs.ends hs] with n hl
    exact hl.bind_error
  | .rightFails lhs rhs =>
    filter_upwards [lhs.ends hs, rhs.ends hs] with n hl hr
    exact hl.andThen (keeps_value (p.keeps_eval n) _ _) hr.bind_error
  | .letIn bindings body =>
    obtain ⟨t, ht, reached⟩ := bindings.ends hs
    filter_upwards [reached, body.ends ht] with n hreached hbody
    exact .bind hreached (hbody.thenPop (BindingsEnd.framed reached).room)
  | .letFails bindings =>
    filter_upwards [bindings.ends hs] with n hbindings
    exact hbindings.bind_error
  | .loop bindings rounds =>
    obtain ⟨t, ht, reached⟩ := bindings.ends hs
    have framed := BindingsEnd.framed reached
    -- the loop gets as many rounds as there is fuel, so these have to be more than `k` as well
    obtain ⟨k, hrounds⟩ := rounds.ends framed ht
    filter_upwards [reached, hrounds, eventually_gt_atTop k] with n hreached hrounds hk
    obtain ⟨u, hu⟩ := hrounds n hk
    have framed := (ensures_rounds_framed (p.keeps_eval n _) n framed).of_ok hu
    have fits := List.length_map Binding.name ▸ framed.length_le
    exact .bind rfl (.bind hreached (.bind hu (.bind (pop_eq_ok fits) (endsIn_pure _))))
  | .loopFails bindings rounds =>
    obtain ⟨t, ht, reached⟩ := bindings.ends hs
    obtain ⟨k, hrounds⟩ := rounds.ends (BindingsEnd.framed reached) ht
    filter_upwards [reached, hrounds, eventually_gt_atTop k] with n hreached hrounds hk
    exact .bind rfl (.bind hreached (hrounds n hk).bind_error)
  | .loopBindingFails bindings =>
    filter_upwards [bindings.ends hs] with n hbindings
    exact EndsIn.bind rfl hbindings.bind_error
  | .recur args =>
    filter_upwards [args.ends hs] with n hargs
    exact hargs.andThen (keeps_args (p.keeps_eval n) _) (endsIn_pure _)
  | .recurFails args =>
    filter_upwards [args.ends hs] with n hargs
    exact hargs.bind_error

theorem Value.ends {σ : Scope} {site : RecurSite} {e : Expr} {r : Except RuntimeError Int64}
    (h : Value p σ site e r) {s : Stack} (hs : s.scope = σ) :
    ∀ᶠ n in atTop, EndsIn (Run.value (p.eval n) site e) s r := by
  match h with
  | .value expr =>
    filter_upwards [expr.ends hs] with n hexpr
    exact hexpr.andThen (p.keeps_eval n _) (endsIn_pure _)
  | .pending expr =>
    filter_upwards [expr.ends hs] with n hexpr
    exact hexpr.andThen (p.keeps_eval n _) (endsIn_fail _)
  | .fails expr =>
    filter_upwards [expr.ends hs] with n hexpr
    exact hexpr.bind_error

theorem Args.ends {σ : Scope} {es : List Expr} {r : Except RuntimeError (List Int64)}
    (h : Args p σ es r) {s : Stack} (hs : s.scope = σ) :
    ∀ᶠ n in atTop, EndsIn (Run.args (p.eval n) es) s r := by
  match h with
  | .nil => exact .of_forall fun n => endsIn_pure _
  | .cons first others =>
    filter_upwards [first.ends hs, others.ends hs] with n hfirst hothers
    exact hfirst.andThen (keeps_value (p.keeps_eval n) _ _)
      (hothers.andThen (keeps_args (p.keeps_eval n) _) (endsIn_pure _))
  | .firstFails first =>
    filter_upwards [first.ends hs] with n hfirst
    exact hfirst.bind_error
  | .othersFail first others =>
    filter_upwards [first.ends hs, others.ends hs] with n hfirst hothers
    exact hfirst.andThen (keeps_value (p.keeps_eval n) _ _) hothers.bind_error

theorem Bindings.ends {σ : Scope} {bs : List Binding} {r : Except RuntimeError Scope}
    (h : Bindings p σ bs r) {s : Stack} (hs : s.scope = σ) : BindingsEnd p bs s r := by
  match h with
  | .nil => exact ⟨s, hs, .of_forall fun n => rfl⟩
  | .cons first others =>
    have hfirst := first.ends hs
    have hothers := others.ends (hs ▸ s.scope_push _ _)
    match r, hothers with
    | .ok σ', ⟨t, ht, reached⟩ =>
      refine ⟨t, ht, ?_⟩
      filter_upwards [hfirst, reached] with n hfirst hreached
      have bound := (keeps_value (p.keeps_eval n) _ _).eq_of_endsIn hfirst
      show (Run.value (p.eval n) .binding _ >>= _) s = _
      rw [bind_apply, bound]
      exact hreached
    | .error x, hothers =>
      show ∀ᶠ n in atTop, _
      filter_upwards [hfirst, hothers] with n hfirst hothers
      exact hfirst.andThen (keeps_value (p.keeps_eval n) _ _) (.bind rfl hothers)
  | .fails first =>
    show ∀ᶠ n in atTop, _
    filter_upwards [first.ends hs] with n hfirst
    exact hfirst.bind_error

theorem Rounds.ends {σ : Scope} {names : List String} {body : Expr} {r : Except RuntimeError Int64}
    (h : Rounds p σ names body r) {s t : Stack} (framed : Framed names s t) (ht : t.scope = σ) :
    ∃ k, ∀ᶠ n in atTop, ∀ m, k < m → EndsIn (Run.rounds (p.eval n) s.length names body m) t r := by
  match h with
  | .done hbody =>
    refine ⟨0, ?_⟩
    filter_upwards [hbody.ends ht] with n ends m hm
    obtain ⟨m, rfl⟩ := Nat.exists_eq_add_of_lt hm
    exact ends.andThen (p.keeps_eval n _) (endsIn_pure _)
  | .again hbody fits others =>
    obtain ⟨above, rfl, mine⟩ := framed
    -- the slots of the loop now stand for the scope in which the rules go on
    have scope := ht ▸ Stack.scope_reframe mine fits
    obtain ⟨k, hothers⟩ := others.ends ⟨_, rfl, Stack.map_name_frame fits⟩ scope
    refine ⟨k + 1, ?_⟩
    filter_upwards [hbody.ends ht, hothers] with n ends hothers m hm
    obtain ⟨m, rfl⟩ := Nat.exists_eq_add_of_lt hm
    refine ends.andThen (p.keeps_eval n _) ?_
    dsimp only
    rw [if_pos fits]
    exact .bind (rebind_eq_ok mine fits) (hothers _ (by omega))
  | .arity hbody differs =>
    refine ⟨0, ?_⟩
    filter_upwards [hbody.ends ht] with n ends m hm
    obtain ⟨m, rfl⟩ := Nat.exists_eq_add_of_lt hm
    refine ends.andThen (p.keeps_eval n _) ?_
    dsimp only
    rw [if_neg differs]
    exact endsIn_fail _
  | .fails hbody =>
    refine ⟨0, ?_⟩
    filter_upwards [hbody.ends ht] with n ends m hm
    obtain ⟨m, rfl⟩ := Nat.exists_eq_add_of_lt hm
    exact ends.bind_error

theorem Call.ends {name : String} {pos : Position} {vs : List Int64}
    {r : Except RuntimeError Int64} (h : Call p name pos vs r) :
    ∀ᶠ n in atTop, p.call (p.eval n) name pos vs = r.mapError Halt.error := by
  match h with
  | .undefined missing =>
    refine .of_forall fun n => ?_
    rw [Program.call, missing]
    rfl
  | .arity found differs =>
    refine .of_forall fun n => ?_
    rw [Program.call, found]
    exact if_neg differs
  | .returns found fits body =>
    filter_upwards [body.ends (Stack.scope_ofArgs _ _)] with n ends
    obtain ⟨t, ht⟩ := ends
    simp only [Program.call, found, if_pos fits, Run.enter, ht]
    rfl
  | .escapes found fits body =>
    filter_upwards [body.ends (Stack.scope_ofArgs _ _)] with n ends
    obtain ⟨t, ht⟩ := ends
    simp only [Program.call, found, if_pos fits, Run.enter, ht]
    rfl
  | .fails found fits body =>
    filter_upwards [body.ends (Stack.scope_ofArgs _ _)] with n ends
    obtain ⟨t, ht⟩ := ends
    simp only [Program.call, found, if_pos fits, Run.enter, ht]
    rfl

end

end BigStep

/-- **The evaluation and the rules agree.** On a stack, evaluation ends with an outcome exactly if
the rules derive that outcome in the scope of the stack; it makes no difference whether ending means
to end with some amount of fuel or with every large amount. -/
theorem Program.eval_endsIn_iff (p : Program) (e : Expr) (s : Stack)
    (outcome : Except RuntimeError Ending) :
    ((∃ fuel, EndsIn (p.eval fuel e) s outcome) ↔ BigStep.Eval p s.scope e outcome)
      ∧ ((∀ᶠ fuel in atTop, EndsIn (p.eval fuel e) s outcome) ↔
          BigStep.Eval p s.scope e outcome) := by
  have sound : ∀ fuel, EndsIn (p.eval fuel e) s outcome → BigStep.Eval p s.scope e outcome := by
    intro fuel h
    cases outcome with
    | ok ending =>
      obtain ⟨t, ht⟩ := h
      exact ((BigStep.sound_eval p fuel e s).of_ok ht).2
    | error x =>
      obtain ⟨t, ht⟩ := h
      exact (BigStep.sound_eval p fuel e s).of_error ht
  refine ⟨⟨fun ⟨fuel, h⟩ => sound fuel h, fun h => (h.ends rfl).exists⟩, fun h => ?_,
    fun h => h.ends rfl⟩
  obtain ⟨fuel, h⟩ := h.exists
  exact sound fuel h

end LoopLang
