import LoopLang.Proofs.BigStep.Scope

set_option autoImplicit false

/-! # Evaluation looks at free variables only

The free variables of an expression are the names that it takes from the scope it stands in: a
binding takes its name away from the later bindings and from the body. Two scopes in which these
names stand for the same lead to the same outcome. -/

namespace LoopLang

/-! ## Free variables -/

mutual

/-- The names that an expression takes from its scope. -/
def Expr.freeVars : Expr → List String
  | .integer _ _ => []
  | .var _ name => [name]
  | .call _ _ args => Expr.allFreeVars args
  | .cond _ test thenBranch elseBranch =>
    test.freeVars ++ (thenBranch.freeVars ++ elseBranch.freeVars)
  | .unary _ _ operand => operand.freeVars
  | .binary _ _ lhs rhs => lhs.freeVars ++ rhs.freeVars
  | .letIn _ bindings body => Binding.freeVars bindings body.freeVars
  | .loop _ bindings body => Binding.freeVars bindings body.freeVars
  | .recur _ args => Expr.allFreeVars args

/-- The names that the expressions of a list take from their scope. -/
def Expr.allFreeVars : List Expr → List String
  | [] => []
  | e :: es => e.freeVars ++ Expr.allFreeVars es

/-- The names that bindings and what stands behind them take from their scope, if the latter takes
the names `inner` from its own. -/
def Binding.freeVars : List Binding → List String → List String
  | [], inner => inner
  | ⟨ident, value⟩ :: bs, inner =>
    value.freeVars ++ (Binding.freeVars bs inner).filter (· ≠ ident.name)

end

theorem Binding.freeVars_cons (b : Binding) (bs : List Binding) (inner : List String) :
    Binding.freeVars (b :: bs) inner =
      b.value.freeVars ++ (Binding.freeVars bs inner).filter (· ≠ b.name) := by
  cases b with
  | mk ident value => rfl

/-! ## Scopes that agree -/

namespace Scope

/-- The names stand for the same in both scopes. -/
def Agree (names : List String) (σ τ : Scope) : Prop := ∀ x ∈ names, σ x = τ x

section Agree

variable {σ τ : Scope} {names xs ys : List String} {name : String} {v : Int64} {vs : List Int64}

@[simp] theorem bind_self : σ.bind name v name = some v := if_pos rfl

@[simp] theorem agree_append : Agree (xs ++ ys) σ τ ↔ Agree xs σ τ ∧ Agree ys σ τ :=
  List.forall_mem_append

theorem Agree.bind (h : Agree (xs.filter (· ≠ name)) σ τ) :
    Agree xs (σ.bind name v) (τ.bind name v) := by
  intro x mem
  by_cases here : x = name
  · simp [Scope.bind, here]
  · simp [Scope.bind, here, h x (by simp [mem, here])]

/-- What agrees on a name still does when some names are bound to the same values. -/
theorem bindAll_eq {x : String} (h : σ x = τ x) : σ.bindAll names vs x = τ.bindAll names vs x := by
  induction names generalizing σ τ vs with
  | nil => exact h
  | cons name names ih =>
    cases vs with
    | nil => exact h
    | cons v vs => exact ih (by simp [Scope.bind, h])

theorem Agree.bindAll (h : Agree xs σ τ) : Agree xs (σ.bindAll names vs) (τ.bindAll names vs) :=
  fun x mem => bindAll_eq (h x mem)

theorem bindAll_of_not_mem {x : String} (other : x ∉ names) : σ.bindAll names vs x = σ x := by
  induction names generalizing σ vs with
  | nil => rfl
  | cons name names ih =>
    rw [List.mem_cons, not_or] at other
    cases vs with
    | nil => rfl
    | cons v vs => rw [Scope.bindAll, ih other.2, Scope.bind, if_neg other.1]

/-- Names that are bound to the same values agree, whatever they stood for. -/
theorem agree_bindAll (same : vs.length = names.length) :
    Agree names (σ.bindAll names vs) (τ.bindAll names vs) := by
  induction names generalizing σ τ vs with
  | nil => exact List.forall_mem_nil _
  | cons name names ih =>
    cases vs with
    | nil => cases same
    | cons v vs =>
      refine List.forall_mem_cons.mpr ⟨?_, ih (Nat.succ.inj same)⟩
      rw [Scope.bindAll, Scope.bindAll]
      exact bindAll_eq (bind_self.trans bind_self.symm)

end Agree

/-- The same outcome, but for scopes that agree on the names. -/
inductive SameOutcome (names : List String) :
    Except RuntimeError Scope → Except RuntimeError Scope → Prop where
  | ok {σ τ} (agree : Agree names σ τ) : SameOutcome names (.ok σ) (.ok τ)
  | error {x} : SameOutcome names (.error x) (.error x)

end Scope

/-! ## Outcomes -/

namespace BigStep

open Scope (Agree SameOutcome agree_append)

mutual

/-- The outcome of an expression depends on its free variables only. -/
theorem Eval.agree {p : Program} {σ τ : Scope} {e : Expr} {r : Except RuntimeError Ending}
    (h : Eval p σ e r) (same : Agree e.freeVars σ τ) : Eval p τ e r := by
  match h with
  | .integer => exact .integer
  | .var bound => exact .var (same _ List.mem_cons_self ▸ bound)
  | .unbound free => exact .unbound (same _ List.mem_cons_self ▸ free)
  | .call args result => exact .call (args.agree same) result
  | .callFails args result => exact .callFails (args.agree same) result
  | .callArgFails args => exact .callArgFails (args.agree same)
  | .ifTrue test nonzero branch =>
    obtain ⟨first, branches⟩ := agree_append.mp same
    exact .ifTrue (test.agree first) nonzero (branch.agree (agree_append.mp branches).1)
  | .ifFalse test branch =>
    obtain ⟨first, branches⟩ := agree_append.mp same
    exact .ifFalse (test.agree first) (branch.agree (agree_append.mp branches).2)
  | .ifFails test => exact .ifFails (test.agree (agree_append.mp same).1)
  | .unary operand => exact .unary (operand.agree same)
  | .unaryFails operand => exact .unaryFails (operand.agree same)
  | .binary lhs rhs =>
    obtain ⟨left, right⟩ := agree_append.mp same
    exact .binary (lhs.agree left) (rhs.agree right)
  | .leftFails lhs => exact .leftFails (lhs.agree (agree_append.mp same).1)
  | .rightFails lhs rhs =>
    obtain ⟨left, right⟩ := agree_append.mp same
    exact .rightFails (lhs.agree left) (rhs.agree right)
  | .letIn bindings body =>
    obtain ⟨_, bindings, ⟨inner⟩⟩ := bindings.agree same
    exact .letIn bindings (body.agree inner)
  | .letFails bindings =>
    obtain ⟨_, bindings, ⟨⟩⟩ := bindings.agree same
    exact .letFails bindings
  | .loop bindings rounds =>
    obtain ⟨_, bindings, ⟨inner⟩⟩ := bindings.agree same
    exact .loop bindings (rounds.agree inner)
  | .loopFails bindings rounds =>
    obtain ⟨_, bindings, ⟨inner⟩⟩ := bindings.agree same
    exact .loopFails bindings (rounds.agree inner)
  | .loopBindingFails bindings =>
    obtain ⟨_, bindings, ⟨⟩⟩ := bindings.agree same
    exact .loopBindingFails bindings
  | .recur args => exact .recur (args.agree same)
  | .recurFails args => exact .recurFails (args.agree same)

theorem Value.agree {p : Program} {σ τ : Scope} {site : RecurSite} {e : Expr}
    {r : Except RuntimeError Int64} (h : Value p σ site e r) (same : Agree e.freeVars σ τ) :
    Value p τ site e r := by
  match h with
  | .value expr => exact .value (expr.agree same)
  | .pending expr => exact .pending (expr.agree same)
  | .fails expr => exact .fails (expr.agree same)

theorem Args.agree {p : Program} {σ τ : Scope} {es : List Expr}
    {r : Except RuntimeError (List Int64)} (h : Args p σ es r)
    (same : Agree (Expr.allFreeVars es) σ τ) : Args p τ es r := by
  match h with
  | .nil => exact .nil
  | .cons first others =>
    obtain ⟨here, behind⟩ := agree_append.mp same
    exact .cons (first.agree here) (others.agree behind)
  | .firstFails first => exact .firstFails (first.agree (agree_append.mp same).1)
  | .othersFail first others =>
    obtain ⟨here, behind⟩ := agree_append.mp same
    exact .othersFail (first.agree here) (others.agree behind)

theorem Bindings.agree {p : Program} {σ τ : Scope} {bs : List Binding} {inner : List String}
    {r : Except RuntimeError Scope} (h : Bindings p σ bs r)
    (same : Agree (Binding.freeVars bs inner) σ τ) :
    ∃ r', Bindings p τ bs r' ∧ SameOutcome inner r r' := by
  match h with
  | .nil => exact ⟨_, .nil, .ok same⟩
  | .cons first others =>
    rw [Binding.freeVars_cons] at same
    obtain ⟨here, behind⟩ := agree_append.mp same
    obtain ⟨_, others, inner⟩ := others.agree behind.bind
    exact ⟨_, .cons (first.agree here) others, inner⟩
  | .fails first =>
    rw [Binding.freeVars_cons] at same
    exact ⟨_, .fails (first.agree (agree_append.mp same).1), .error⟩

theorem Rounds.agree {p : Program} {σ τ : Scope} {names : List String} {e : Expr}
    {r : Except RuntimeError Int64} (h : Rounds p σ names e r) (same : Agree e.freeVars σ τ) :
    Rounds p τ names e r := by
  match h with
  | .done body => exact .done (body.agree same)
  | .again body fits others => exact .again (body.agree same) fits (others.agree same.bindAll)
  | .arity body differs => exact .arity (body.agree same) differs
  | .fails body => exact .fails (body.agree same)

end

end BigStep

end LoopLang
