import LoopLang.Proofs.BigStep.Blame
import LoopLang.Proofs.BigStep.FreeVariables

set_option autoImplicit false

/-! # A loop as a function of its own

A loop whose body knows no other names than those of the loop can be taken out: the names become the
parameters of a function, every `recur` in tail position becomes a call of it, and the loop a `let`
with a first call. In a program that has this function, the loop and the `let` end with the same
values. A round that ends with a pending `recur` is a call that calls the function again; either way
the rest goes on in a scope in which the names stand for the values that are passed. -/

namespace LoopLang

/-! ## Taking a loop out -/

/-- Calls of `g` in the place of the `recur`s in tail position. -/
def Expr.tailCalls (g : String) : Expr → Expr
  | .recur t args => .call t g args
  | .cond t test thenBranch elseBranch =>
    .cond t test (thenBranch.tailCalls g) (elseBranch.tailCalls g)
  | .letIn t bindings body => .letIn t bindings (body.tailCalls g)
  | e => e

namespace Expr

section TailCalls

variable {g name : String} {t : Token} {e a b c : Expr} {args : List Expr} {bs : List Binding}

theorem exists_of_tailCalls_cond (same : .cond t c a b = e.tailCalls g) :
    ∃ a' b', e = .cond t c a' b' ∧ a = a'.tailCalls g ∧ b = b'.tailCalls g := by
  cases e with
  | cond _ _ a' b' =>
    obtain ⟨rfl, rfl, rfl, rfl⟩ := Expr.cond.inj same
    exact ⟨a', b', rfl, rfl, rfl⟩
  | _ => cases same

theorem exists_of_tailCalls_letIn (same : .letIn t bs a = e.tailCalls g) :
    ∃ a', e = .letIn t bs a' ∧ a = a'.tailCalls g := by
  cases e with
  | letIn _ _ a' =>
    obtain ⟨rfl, rfl, rfl⟩ := Expr.letIn.inj same
    exact ⟨a', rfl, rfl⟩
  | _ => cases same

/-- A call was a call before, or it stands for a `recur`. -/
theorem of_tailCalls_call (same : .call t name args = e.tailCalls g) :
    e = .call t name args ∨ (e = .recur t args ∧ name = g) := by
  cases e with
  | call _ _ _ => exact Or.inl same.symm
  | recur _ _ =>
    obtain ⟨rfl, rfl, rfl⟩ := Expr.call.inj same
    exact Or.inr ⟨rfl, rfl⟩
  | _ => cases same

/-- The expression is neither a call nor lets a pending `recur` through. -/
def Plain : Expr → Prop
  | .call _ _ _ | .cond _ _ _ _ | .letIn _ _ _ => False
  | _ => True

theorem of_tailCalls_plain (same : a = e.tailCalls g) (plain : a.Plain) : e = a := by
  subst same
  cases e with
  | recur _ _ | cond _ _ _ _ | letIn _ _ _ => cases plain
  | _ => rfl

end TailCalls

end Expr

/-- The name that a binding introduces, as an expression. -/
def Binding.var (b : Binding) : Expr := .var b.ident.token b.name

/-- What a loop is made of. -/
structure Loop where
  token : Token
  bindings : List Binding
  body : Expr

namespace Loop

/-- The loop as an expression. -/
def expr (l : Loop) : Expr := .loop l.token l.bindings l.body

/-- The names that the loop introduces. -/
def names (l : Loop) : List String := l.bindings.map Binding.name

/-- The `let` with the first call, which stands where the loop was. -/
def entry (l : Loop) (g : String) : Expr :=
  .letIn l.token l.bindings (.call l.token g (l.bindings.map Binding.var))

/-- The function that the loop becomes. -/
def function (l : Loop) (g : String) : Function :=
  ⟨l.token, ⟨l.token, g⟩, l.bindings.map Binding.ident, l.body.tailCalls g⟩

/-- The body of the loop knows no other names. -/
def Closed (l : Loop) : Prop := ∀ x ∈ l.body.freeVars, x ∈ l.names

theorem function_params (l : Loop) (g : String) :
    (l.function g).params.map Ident.name = l.names := by
  simp only [function, names, List.map_map]
  rfl

theorem function_params_length (l : Loop) (g : String) :
    (l.function g).params.length = l.names.length := by
  simp [function, names]

end Loop

open Scope (Agree)

namespace BigStep

/-! ## Names as arguments -/

section Vars

variable {p : Program} {σ σ' : Scope} {bs : List Binding} {vs : List Int64}

/-- Bindings that end leave names in scope, those that there were and their own. -/
theorem Bindings.isSome (h : Bindings p σ bs (.ok σ')) {x : String}
    (mine : (σ x).isSome ∨ x ∈ bs.map Binding.name) : (σ' x).isSome := by
  induction bs generalizing σ with
  | nil =>
    cases h
    simpa using mine
  | cons b bs ih =>
    cases h with
    | cons _ others =>
      refine ih others ?_
      rw [List.map_cons, List.mem_cons] at mine
      by_cases here : x = b.name
      · simp [Scope.bind, here]
      · simpa [Scope.bind, here] using mine

/-- Names in scope can be passed as arguments. -/
theorem exists_args (bound : ∀ x ∈ bs.map Binding.name, (σ x).isSome) :
    ∃ vs, Args p σ (bs.map Binding.var) (.ok vs) := by
  induction bs with
  | nil => exact ⟨[], .nil⟩
  | cons b bs ih =>
    obtain ⟨here, others⟩ := List.forall_mem_cons.mp bound
    obtain ⟨v, here⟩ := Option.isSome_iff_exists.mp here
    obtain ⟨vs, others⟩ := ih others
    exact ⟨v :: vs, .cons (.value (.var here)) others⟩

/-- Bound to what is passed for them, the names stand for the same as where they are passed. -/
theorem Args.agree_vars (h : Args p σ (bs.map Binding.var) (.ok vs)) (τ : Scope) :
    Agree (bs.map Binding.name) σ (τ.bindAll (bs.map Binding.name) vs) := by
  induction bs generalizing vs τ with
  | nil => exact List.forall_mem_nil _
  | cons b bs ih =>
    cases h with
    | @cons _ _ _ v vs first others =>
      have bound : σ b.name = some v := by
        cases first with
        | value expr =>
          cases expr with
          | var bound => exact bound
      have rest := ih others (τ.bind b.name v)
      refine List.forall_mem_cons.mpr ⟨?_, rest⟩
      by_cases again : b.name ∈ bs.map Binding.name
      · exact rest _ again
      · rw [List.map_cons, Scope.bindAll, Scope.bindAll_of_not_mem again, Scope.bind_self, bound]

end Vars

/-! ## From rounds to calls and back -/

end BigStep

/-- The ending is this value, or the values of a pending `recur` go on to it. -/
def Ending.LeadsTo (v : Int64) (goesOn : List Int64 → Prop) : Ending → Prop
  | .value w => w = v
  | .pending vs _ => goesOn vs

namespace BigStep

section Function

variable {p : Program} {l : Loop} {g : String} {v : Int64}

/-- With these values for its names, the loop goes on to the value. -/
def RoundsFrom (p : Program) (l : Loop) (v : Int64) (vs : List Int64) : Prop :=
  vs.length = l.names.length
    ∧ ∀ σ : Scope, Rounds p (σ.bindAll l.names vs) l.names l.body (.ok v)

theorem Rounds.of_agree {σ τ : Scope} (h : Rounds p σ l.names l.body (.ok v)) (closed : l.Closed)
    (same : Agree l.names σ τ) : Rounds p τ l.names l.body (.ok v) :=
  h.agree fun x mem => same x (closed x mem)

/-- The rounds of a closed loop are one round and what it leads to. -/
theorem rounds_iff {σ : Scope} (closed : l.Closed) :
    Rounds p σ l.names l.body (.ok v) ↔
      ∃ ending, Eval p σ l.body (.ok ending) ∧ ending.LeadsTo v (RoundsFrom p l v) := by
  constructor
  · intro h
    cases h with
    | done body => exact ⟨_, body, rfl⟩
    | again body fits others =>
      exact ⟨_, body, fits, fun σ => others.of_agree closed (Scope.agree_bindAll fits)⟩
  · rintro ⟨ending | ⟨vs, pos⟩, body, leads⟩
    · obtain rfl : _ = v := leads
      exact .done body
    · exact .again body leads.1 (leads.2 σ)

/-- Where calls of `g` go on from a pending `recur`, tail calls of `g` may stand for the
`recur`s. -/
theorem Eval.tailCalls {σ : Scope} {e : Expr} {r : Except RuntimeError Ending}
    (h : Eval p σ e r) {ending : Ending} (ok : r = .ok ending)
    (leads : ending.LeadsTo v fun vs => ∀ pos, Call p g pos vs (.ok v)) :
    Eval p σ (e.tailCalls g) (.ok (.value v)) := by
  match h with
  | .ifTrue test nonzero branch => exact .ifTrue test nonzero (branch.tailCalls ok leads)
  | .ifFalse test branch => exact .ifFalse test (branch.tailCalls ok leads)
  | .letIn bindings body => exact .letIn bindings (body.tailCalls ok leads)
  | .recur args =>
    cases ok
    exact .call args (leads _)
  | .integer =>
    cases ok
    exact leads ▸ .integer
  | .var bound =>
    cases ok
    exact leads ▸ .var bound
  | .call args result =>
    cases ok
    exact leads ▸ .call args result
  | .unary operand =>
    cases ok
    exact leads ▸ .unary operand
  | .binary lhs rhs =>
    cases ok
    exact leads ▸ .binary lhs rhs
  | .loop bindings rounds =>
    cases ok
    exact leads ▸ .loop bindings rounds
  | .unbound _ | .callFails _ _ | .callArgFails _ | .ifFails _ | .unaryFails _ | .leftFails _
  | .rightFails _ _ | .letFails _ | .loopFails _ _ | .loopBindingFails _ | .recurFails _ =>
    cases ok

mutual

/-- Tail calls of `g` stand for `recur`s that go on in the rounds of the loop. -/
theorem Eval.of_tailCalls {σ : Scope} {e' : Expr} {r : Except RuntimeError Ending}
    (h : Eval p σ e' r) {e : Expr} (closed : l.Closed) (found : p.lookup? g = some (l.function g))
    (same : e' = e.tailCalls g) (ok : r = .ok (.value v)) :
    ∃ ending, Eval p σ e (.ok ending) ∧ ending.LeadsTo v (RoundsFrom p l v) := by
  match h with
  | .ifTrue test nonzero branch =>
    obtain ⟨a, b, rfl, chosen, _⟩ := Expr.exists_of_tailCalls_cond same
    obtain ⟨ending, branch, leads⟩ := branch.of_tailCalls closed found chosen ok
    exact ⟨ending, .ifTrue test nonzero branch, leads⟩
  | .ifFalse test branch =>
    obtain ⟨a, b, rfl, _, chosen⟩ := Expr.exists_of_tailCalls_cond same
    obtain ⟨ending, branch, leads⟩ := branch.of_tailCalls closed found chosen ok
    exact ⟨ending, .ifFalse test branch, leads⟩
  | .letIn bindings body =>
    obtain ⟨a, rfl, inner⟩ := Expr.exists_of_tailCalls_letIn same
    obtain ⟨ending, body, leads⟩ := body.of_tailCalls closed found inner ok
    exact ⟨ending, .letIn bindings body, leads⟩
  | .call args result =>
    have ends := Ending.value.inj (Except.ok.inj ok)
    rcases Expr.of_tailCalls_call same with rfl | ⟨rfl, called⟩
    · exact ⟨_, .call args result, ends⟩
    · exact ⟨_, .recur args, result.roundsFrom closed found called (congrArg _ ends)⟩
  | .integer =>
    cases ok
    obtain rfl := Expr.of_tailCalls_plain same trivial
    exact ⟨_, .integer, rfl⟩
  | .var bound =>
    cases ok
    obtain rfl := Expr.of_tailCalls_plain same trivial
    exact ⟨_, .var bound, rfl⟩
  | .unary operand =>
    cases ok
    obtain rfl := Expr.of_tailCalls_plain same trivial
    exact ⟨_, .unary operand, rfl⟩
  | .binary lhs rhs =>
    cases ok
    obtain rfl := Expr.of_tailCalls_plain same trivial
    exact ⟨_, .binary lhs rhs, rfl⟩
  | .loop bindings rounds =>
    cases ok
    obtain rfl := Expr.of_tailCalls_plain same trivial
    exact ⟨_, .loop bindings rounds, rfl⟩
  | .recur _ | .unbound _ | .callFails _ _ | .callArgFails _ | .ifFails _ | .unaryFails _
  | .leftFails _ | .rightFails _ _ | .letFails _ | .loopFails _ _ | .loopBindingFails _
  | .recurFails _ => cases ok

/-- A call of the function that the loop becomes goes through the rounds of the loop. -/
theorem Call.roundsFrom {name : String} {pos : Position} {vs : List Int64}
    {r : Except RuntimeError Int64} (h : Call p name pos vs r) (closed : l.Closed)
    (found : p.lookup? g = some (l.function g)) (called : name = g) (ok : r = .ok v) :
    RoundsFrom p l v vs := by
  match h with
  | .returns found' fits body =>
    rw [called] at found'
    have function := Option.some.inj (found'.symm.trans found)
    have round := body.of_tailCalls closed found (congrArg Function.body function)
      (congrArg (Except.ok ∘ Ending.value) (Except.ok.inj ok))
    rw [function, Loop.function_params, ← rounds_iff closed] at round
    rw [function, Loop.function_params_length] at fits
    exact ⟨fits, fun τ => round.of_agree closed (Scope.agree_bindAll fits)⟩
  | .undefined _ | .arity _ _ | .escapes _ _ _ | .fails _ _ _ => cases ok

end

theorem call_of_body {pos : Position} {vs : List Int64} (found : p.lookup? g = some (l.function g))
    (fits : vs.length = l.names.length)
    (body : Eval p (Scope.empty.bindAll l.names vs) (l.body.tailCalls g) (.ok (.value v))) :
    Call p g pos vs (.ok v) := by
  refine .returns found (fits.trans (l.function_params_length g).symm) ?_
  rwa [Loop.function_params]

/-- What the rounds of the loop end with, a call of the function that it becomes ends with too, if
it passes what the names stand for. -/
theorem Rounds.call {σ : Scope} {names : List String} {e : Expr} {r : Except RuntimeError Int64}
    (h : Rounds p σ names e r) (closed : l.Closed) (found : p.lookup? g = some (l.function g))
    (named : names = l.names) (same : e = l.body) (ok : r = .ok v) {pos : Position}
    {vs : List Int64} (fits : vs.length = l.names.length)
    (agree : Agree l.names σ (Scope.empty.bindAll l.names vs)) : Call p g pos vs (.ok v) := by
  have inside : Agree e.freeVars σ (Scope.empty.bindAll l.names vs) :=
    fun x mem => agree x (closed x (same ▸ mem))
  match h with
  | .done body =>
    have last := (body.agree inside).tailCalls (g := g) rfl (Except.ok.inj ok)
    exact call_of_body found fits (same ▸ last)
  | .again body fits' others =>
    have next := Scope.agree_bindAll (σ := σ) (τ := Scope.empty) fits'
    have first := (body.agree inside).tailCalls (g := g) rfl fun pos =>
      others.call closed found named same ok (named ▸ fits') (named ▸ next)
    exact call_of_body found fits (same ▸ first)
  | .arity _ _ | .fails _ => cases ok

/-- In a program with the function that it becomes, a closed loop and the first call of the function
end in the same way, if they end without an error. -/
theorem eval_entry_iff {σ : Scope} {ending : Ending} (closed : l.Closed)
    (found : p.lookup? g = some (l.function g)) :
    Eval p σ (l.entry g) (.ok ending) ↔ Eval p σ l.expr (.ok ending) := by
  constructor
  · intro h
    cases h with
    | @letIn _ σ' _ _ _ _ bindings body =>
      cases body with
      | call args result =>
        have rounds := (result.roundsFrom closed found rfl rfl).2 σ'
        have same : Agree l.names _ σ' := fun x mem => (args.agree_vars σ' x mem).symm
        exact .loop bindings (rounds.of_agree closed same)
  · intro h
    cases h with
    | loop bindings rounds =>
      obtain ⟨vs, args⟩ := exists_args (p := p) fun x mem => bindings.isSome (Or.inr mem)
      have fits : vs.length = l.names.length := by
        rw [args.length_eq, Loop.names, List.length_map, List.length_map]
      exact .letIn bindings (.call args
        (rounds.call closed found rfl rfl rfl fits (args.agree_vars Scope.empty)))

end Function

end BigStep

end LoopLang
