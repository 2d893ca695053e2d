import LoopLang.Proofs.BigStep.Scope
import LoopLang.Proofs.Evaluation.StackDiscipline

set_option autoImplicit false

/-! # Evaluation in a scope

`Program.evalIn` evaluates without a stack: it is handed a scope, and hands the scopes that
bindings make on to the parts that see them. It spends fuel as the evaluation on the stack does, so
both come to the same outcome with every amount of fuel, running out of it included
(`Program.outcome_eval`). Runs of two programs, or in two scopes, are compared here, where nothing
is pushed or popped. -/

namespace LoopLang

variable {α β : Type}

/-! ## Outcomes -/

/-- What a run ends with, whatever becomes of the stack. -/
abbrev Outcome (α : Type) := Except (Halt RuntimeError) α

/-- The outcome of a run that starts on the stack `s`. -/
def Run.outcome (x : Run α) (s : Stack) : Outcome α :=
  match x s with
  | .ok a _ => .ok a
  | .error halt _ => .error halt

/-- What a function of this name hands back, if its body ends so. -/
def Ending.handBack (name : String) : Ending → Outcome Int64
  | value v => .ok v
  | pending _ pos => .error (.error (.escapedRecur name pos))

namespace Run

variable {s : Stack}

theorem outcome_of_ok {x : Run α} {a : α} {t : Stack} (h : x s = .ok a t) :
    outcome x s = .ok a := by
  rw [outcome, h]

theorem outcome_of_error {x : Run α} {halt : Halt RuntimeError} {t : Stack}
    (h : x s = .error halt t) : outcome x s = .error halt := by
  rw [outcome, h]

theorem outcome_bind_of_ok {x : Run α} {f : α → Run β} {a : α} {t : Stack} (h : x s = .ok a t) :
    outcome (x >>= f) s = outcome (f a) t := by
  rw [outcome, bind_apply, h]
  rfl

theorem outcome_ofExcept (r : Outcome α) : outcome (ofExcept r) s = r := by
  cases r <;> rfl

/-- Behind a step that keeps the stack, a run goes on where it was. -/
theorem Keeps.outcome_bind {x : Run α} (keeps : Keeps x) (f : α → Run β) :
    outcome (x >>= f) s = outcome x s >>= fun a => outcome (f a) s := by
  cases result : x s with
  | ok a t =>
    obtain rfl : t = s := (keeps s).of_ok result
    rw [outcome_of_ok result, outcome_bind_of_ok result]
    rfl
  | error halt t =>
    rw [outcome_of_error result, outcome, bind_apply, result]
    rfl

/-- A function hands back what its body ends with on the stack of its parameters. -/
theorem enter_eq (ev : Expr → Run Ending) (f : Function) (values : List Int64) :
    enter ev f values
      = outcome (ev f.body) (.ofArgs f.params values) >>= Ending.handBack f.name := by
  unfold enter outcome
  cases ev f.body (.ofArgs f.params values) with
  | ok ending t => cases ending <;> rfl
  | error halt t => rfl

/-- Leaving a scope makes no difference to the outcome, if the scope is there to leave. -/
theorem outcome_thenPop {x : Run α} {count : Nat}
    (room : Ensures x s (fun _ t => count ≤ t.length) fun _ t => count ≤ t.length) :
    outcome (thenPop x count) s = outcome x s := by
  unfold outcome thenPop
  cases result : x s with
  | ok a t =>
    simp only [bind_apply, pop_eq_ok (room.of_ok result)]
    rfl
  | error halt t =>
    cases halt with
    | error e =>
      simp only [bind_apply, pop_eq_ok (room.of_error result)]
      rfl
    | brokenStack => rfl
    | outOfFuel => rfl

end Run

/-! ## Parts of expressions

Each is given the evaluation `ev` of its sub-expressions in a scope. -/

namespace Scoped

section Parts

variable (ev : Expr → Scope → Outcome Ending)

/-- Evaluates an expression where a value is needed on the spot. -/
def value (site : RecurSite) (e : Expr) (σ : Scope) : Outcome Int64 := do
  match ← ev e σ with
  | .value v => return v
  | .pending _ pos => throw (.error (.recurIn site pos))

/-- Evaluates arguments in order. -/
def args : List Expr → Scope → Outcome (List Int64)
  | [], _ => return []
  | e :: es, σ => do
    let v ← value ev .argument e σ
    let vs ← args es σ
    return v :: vs

/-- Evaluates bindings in order and gives the scope that they lead to. -/
def bindings : List Binding → Scope → Outcome Scope
  | [], σ => return σ
  | b :: bs, σ => do
    let v ← value ev .binding b.value σ
    bindings bs (σ.bind b.name v)

/-- Runs the body of a loop until it ends with a value, for at most so many rounds. -/
def rounds (names : List String) (body : Expr) : Nat → Scope → Outcome Int64
  | 0, _ => throw .outOfFuel
  | n + 1, σ => do
    match ← ev body σ with
    | .value v => return v
    | .pending values pos =>
      if values.length = names.length then
        rounds names body n (σ.bindAll names values)
      else
        throw (.error (.recurArity names.length values.length pos))

/-- Runs the body of a function in a scope of just the parameters. -/
def enter (f : Function) (values : List Int64) : Outcome Int64 := do
  let ending ← ev f.body (Scope.empty.bindAll (f.params.map Ident.name) values)
  ending.handBack f.name

/-- Calls the function of this name. -/
def call (p : Program) (name : String) (pos : Position) (values : List Int64) : Outcome Int64 :=
  match p.lookup? name with
  | none => throw (.error (.undefinedFunction name pos))
  | some f =>
    if values.length = f.params.length then
      enter ev f values
    else
      throw (.error (.callArity name f.params.length values.length pos))

end Parts

end Scoped

/-- Evaluates an expression of a program in a scope. -/
def Program.evalIn (p : Program) : Nat → Expr → Scope → Outcome Ending
  | 0, _, _ => throw .outOfFuel
  | fuel + 1, e, σ => do
    let ev := p.evalIn fuel
    match e with
    | .integer _ n => return .value n
    | .var token name =>
      match σ name with
      | some v => return .value v
      | none => throw (.error (.unboundVariable name token.pos))
    | .call token name args =>
      let values ← Scoped.args ev args σ
      return .value (← Scoped.call ev p name token.pos values)
    | .cond _ test thenBranch elseBranch =>
      let t ← Scoped.value ev .condition test σ
      if t = 0 then ev elseBranch σ else ev thenBranch σ
    | .unary _ op operand =>
      let v ← Scoped.value ev .unary operand σ
      return .value (op.apply v)
    | .binary _ op lhs rhs =>
      let l ← Scoped.value ev .binary lhs σ
      let r ← Scoped.value ev .binary rhs σ
      return .value (op.apply l r)
    | .letIn _ bindings body =>
      ev body (← Scoped.bindings ev bindings σ)
    | .loop _ bindings body =>
      let inner ← Scoped.bindings ev bindings σ
      return .value (← Scoped.rounds ev (bindings.map Binding.name) body fuel inner)
    | .recur token args =>
      let values ← Scoped.args ev args σ
      return .pending values token.pos

/-! ## The stack and the scope -/

namespace Run

/-- In the scope of each stack, `sv` comes to the outcome that `ev` has on it. -/
structure Mirrors (ev : Expr → Run Ending) (sv : Expr → Scope → Outcome Ending) : Prop where
  keeps : ∀ e, Keeps (ev e)
  same : ∀ e s, outcome (ev e) s = sv e (Stack.scope s)

section Parts

variable {ev : Expr → Run Ending} {sv : Expr → Scope → Outcome Ending} (h : Mirrors ev sv)
include h

theorem Mirrors.value (site : RecurSite) (e : Expr) (s : Stack) :
    outcome (Run.value ev site e) s = Scoped.value sv site e (Stack.scope s) := by
  unfold Run.value Scoped.value
  rw [(h.keeps e).outcome_bind, h.same]
  refine bind_congr fun ending => ?_
  cases ending <;> rfl

theorem Mirrors.args (es : List Expr) (s : Stack) :
    outcome (Run.args ev es) s = Scoped.args sv es (Stack.scope s) := by
  induction es with
  | nil => rfl
  | cons e es ih =>
    rw [Run.args, Scoped.args, (keeps_value h.keeps _ _).outcome_bind, h.value]
    refine bind_congr fun v => ?_
    rw [(keeps_args h.keeps es).outcome_bind, ih]
    rfl

/-- Behind bindings, a run goes on where the scope does that the bindings lead to. -/
theorem Mirrors.bindings {bs : List Binding} {s : Stack} {f : Unit → Run β}
    {g : Scope → Outcome β}
    (rest : ∀ t, Framed (bs.map Binding.name) s t → outcome (f ()) t = g (Stack.scope t)) :
    outcome (Run.bindings ev bs >>= f) s = Scoped.bindings sv bs (Stack.scope s) >>= g := by
  induction bs generalizing s with
  | nil => exact rest s ⟨[], rfl, rfl⟩
  | cons b bs ih =>
    rw [Run.bindings, Scoped.bindings, bind_assoc, (keeps_value h.keeps _ _).outcome_bind, h.value,
      bind_assoc]
    refine bind_congr fun v => ?_
    have pushed : push b.name v s = .ok () (s.push b.name v) := rfl
    rw [bind_assoc, outcome_bind_of_ok pushed, ← Stack.scope_push]
    refine ih fun t framed => rest t ?_
    obtain ⟨above, rfl, mine⟩ := framed
    exact ⟨above ++ [⟨b.name, v⟩], by simp [Stack.push], by simp [mine]⟩

theorem Mirrors.rounds {body : Expr} {names : List String} {s t : Stack} {n : Nat}
    (framed : Framed names s t) :
    outcome (Run.rounds ev s.length names body n) t
      = Scoped.rounds sv names body n (Stack.scope t) := by
  induction n generalizing t with
  | zero => rfl
  | succ n ih =>
    rw [Run.rounds, Scoped.rounds, (h.keeps body).outcome_bind, h.same]
    refine bind_congr fun ending => ?_
    cases ending with
    | value v => rfl
    | pending vs pos =>
      dsimp only
      split
      · next fits =>
        obtain ⟨above, rfl, mine⟩ := framed
        rw [outcome_bind_of_ok (rebind_eq_ok mine fits), ← Stack.scope_reframe mine fits]
        exact ih ⟨_, rfl, Stack.map_name_frame fits⟩
      · rfl

theorem Mirrors.enter (f : Function) (values : List Int64) :
    Run.enter ev f values = Scoped.enter sv f values := by
  rw [enter_eq, h.same, Stack.scope_ofArgs, Scoped.enter]

theorem Mirrors.call (p : Program) (name : String) (pos : Position) (values : List Int64) :
    p.call ev name pos values = Scoped.call sv p name pos values := by
  unfold Program.call Scoped.call
  cases p.lookup? name with
  | none => rfl
  | some f =>
    dsimp only
    rw [h.enter]

end Parts

end Run

open Run

/-- With the same fuel, evaluation comes to the same outcome on a stack and in its scope. -/
theorem Program.mirrors_eval (p : Program) (fuel : Nat) :
    Mirrors (p.eval fuel) (p.evalIn fuel) := by
  refine ⟨p.keeps_eval fuel, ?_⟩
  induction fuel with
  | zero => exact fun _ _ => rfl
  | succ n ih =>
    have h : Mirrors (p.eval n) (p.evalIn n) := ⟨p.keeps_eval n, ih⟩
    intro e s
    cases e with
    | integer _ v => rfl
    | var token name =>
      rw [eval, evalIn, (keeps_fetch _ _).outcome_bind, outcome, fetch_apply]
      show _ = match s.get? name with
        | some v => _
        | none => _
      cases s.get? name <;> rfl
    | call token name args =>
      rw [eval, evalIn, (keeps_args h.keeps args).outcome_bind, h.args]
      refine bind_congr fun values => ?_
      have keeps := (p.returns_call_of_keeps h.keeps name token.pos values).keeps
      rw [keeps.outcome_bind, outcome_ofExcept, h.call]
      rfl
    | cond _ test thenBranch elseBranch =>
      rw [eval, evalIn, (keeps_value h.keeps _ test).outcome_bind, h.value]
      refine bind_congr fun t => ?_
      split
      · exact ih elseBranch s
      · exact ih thenBranch s
    | unary _ op operand =>
      rw [eval, evalIn, (keeps_value h.keeps _ operand).outcome_bind, h.value]
      rfl
    | binary _ op lhs rhs =>
      rw [eval, evalIn, (keeps_value h.keeps _ lhs).outcome_bind, h.value]
      refine bind_congr fun l => ?_
      rw [(keeps_value h.keeps _ rhs).outcome_bind, h.value]
      rfl
    | letIn _ bs body =>
      rw [eval, evalIn]
      refine h.bindings fun t framed => ?_
      rw [outcome_thenPop framed.room, ih]
    | loop _ bs body =>
      rw [eval, evalIn]
      have height : (get : Run Stack) s = .ok s s := rfl
      rw [outcome_bind_of_ok height]
      refine h.bindings fun t framed => ?_
      -- the rounds leave the frame of the loop on the stack, which is popped afterwards
      rw [← h.rounds framed]
      cases result : Run.rounds (p.eval n) s.length (bs.map Binding.name) body n t with
      | ok v u =>
        have framed' := (ensures_rounds_framed (h.keeps body) n framed).of_ok result
        have fits := List.length_map Binding.name ▸ framed'.length_le
        rw [outcome_bind_of_ok result, outcome_bind_of_ok (pop_eq_ok fits), outcome_of_ok result]
        rfl
      | error halt u =>
        rw [outcome_of_error result, outcome, bind_apply, result]
        rfl
    | recur token args =>
      rw [eval, evalIn, (keeps_args h.keeps args).outcome_bind, h.args]
      rfl

theorem Program.outcome_eval (p : Program) (fuel : Nat) (e : Expr) (s : Stack) :
    outcome (p.eval fuel e) s = p.evalIn fuel e s.scope :=
  (p.mirrors_eval fuel).same e s

end LoopLang
