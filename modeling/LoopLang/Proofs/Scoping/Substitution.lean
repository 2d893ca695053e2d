import LoopLang.Proofs.Scoping.Basic

set_option autoImplicit false

/-! # Scopes are substitutions

What a name stands for in a scope can as well be written in its place. `Expr.subst` does so for the
free occurrences of all names in a scope; a binding takes its name away from the later bindings and
from the body. Evaluating the expression in the scope and evaluating what it becomes without one
come to the same. For the proof only part of a scope is written down: `σ.or τ` looks a name up in
`σ` and then in `τ`, and writing `σ` down leaves `τ`, where evaluation goes on to bind names that
are hidden from `σ`. -/

namespace LoopLang

/-! ## Substitution -/

namespace Scope

/-- The scope without these names. -/
def hide (σ : Scope) (names : List String) : Scope :=
  fun x => if x ∈ names then none else σ x

/-- The scope in which names stand for what they do in `σ`, or else for what they do in `τ`. -/
def or (σ τ : Scope) : Scope :=
  fun x => (σ x).or (τ x)

end Scope

mutual

/-- The expression with the values of the scope in place of the free occurrences of its names. -/
def Expr.subst (σ : Scope) : Expr → Expr
  | .integer t v => .integer t v
  | .var t name =>
    match σ name with
    | some v => .integer t v
    | none => .var t name
  | .call t name args => .call t name (Expr.substAll σ args)
  | .cond t test thenBranch elseBranch =>
    .cond t (test.subst σ) (thenBranch.subst σ) (elseBranch.subst σ)
  | .unary t op operand => .unary t op (operand.subst σ)
  | .binary t op lhs rhs => .binary t op (lhs.subst σ) (rhs.subst σ)
  | .letIn t bindings body =>
    .letIn t (Binding.substAll σ bindings) (body.subst (σ.hide (bindings.map Binding.name)))
  | .loop t bindings body =>
    .loop t (Binding.substAll σ bindings) (body.subst (σ.hide (bindings.map Binding.name)))
  | .recur t args => .recur t (Expr.substAll σ args)

/-- Substitution in each expression of a list. -/
def Expr.substAll (σ : Scope) : List Expr → List Expr
  | [] => []
  | e :: es => e.subst σ :: Expr.substAll σ es

/-- Substitution in bindings, each of which hides its name from the later ones. -/
def Binding.substAll (σ : Scope) : List Binding → List Binding
  | [] => []
  | ⟨ident, value⟩ :: bs => ⟨ident, value.subst σ⟩ :: Binding.substAll (σ.hide [ident.name]) bs

end

theorem Binding.substAll_cons (σ : Scope) (b : Binding) (bs : List Binding) :
    Binding.substAll σ (b :: bs) =
      ⟨b.ident, b.value.subst σ⟩ :: Binding.substAll (σ.hide [b.name]) bs := by
  cases b with
  | mk ident value => rfl

@[simp] theorem Binding.map_name_substAll (σ : Scope) (bs : List Binding) :
    (Binding.substAll σ bs).map Binding.name = bs.map Binding.name := by
  induction bs generalizing σ with
  | nil => rfl
  | cons b bs ih =>
    rw [substAll_cons, List.map_cons, List.map_cons, ih]
    rfl

namespace Scope

variable {σ τ : Scope}

theorem or_empty (σ : Scope) : σ.or empty = σ := by
  funext x
  exact Option.or_none

theorem hide_nil (σ : Scope) : σ.hide [] = σ := by
  funext x
  exact if_neg List.not_mem_nil

theorem hide_cons (σ : Scope) (name : String) (names : List String) :
    σ.hide (name :: names) = (σ.hide [name]).hide names := by
  funext x
  by_cases here : x = name <;> simp [hide, here]

theorem hide_of_mem {names : List String} {x : String} (mem : x ∈ names) :
    σ.hide names x = none :=
  if_pos mem

/-- A name that is bound is hidden from what lies above. -/
theorem or_bind (name : String) (v : Int64) :
    (σ.or τ).bind name v = (σ.hide [name]).or (τ.bind name v) := by
  funext x
  by_cases here : x = name <;> simp [bind, or, hide, here]

theorem or_bindAll {names : List String} {values : List Int64}
    (hidden : ∀ x ∈ names, σ x = none) :
    (σ.or τ).bindAll names values = σ.or (τ.bindAll names values) := by
  induction names generalizing τ values with
  | nil => rfl
  | cons name names ih =>
    obtain ⟨here, others⟩ := List.forall_mem_cons.mp hidden
    cases values with
    | nil => rfl
    | cons v vs =>
      have same : σ.hide [name] = σ := by
        funext x
        by_cases this : x = name <;> simp [hide, this, here]
      rw [bindAll, bindAll, or_bind, same, ih others]

end Scope

/-! ## Evaluation -/

namespace Scoped

variable {β : Type} {ev : Expr → Scope → Outcome Ending}

/-- Writing part of a scope down does not change what `ev` comes to. -/
def Substitutes (ev : Expr → Scope → Outcome Ending) : Prop :=
  ∀ e σ τ, ev e (Scope.or σ τ) = ev (e.subst σ) τ

section Parts

variable (h : Substitutes ev) {σ τ : Scope}
include h

theorem Substitutes.value (site : RecurSite) (e : Expr) :
    value ev site e (σ.or τ) = value ev site (e.subst σ) τ := by
  rw [Scoped.value, Scoped.value, h]

theorem Substitutes.args (es : List Expr) :
    args ev es (σ.or τ) = args ev (Expr.substAll σ es) τ := by
  induction es with
  | nil => rfl
  | cons e es ih => rw [Expr.substAll, Scoped.args, Scoped.args, h.value, ih]

/-- Bindings lead on to a scope with their names hidden from what is written down. -/
theorem Substitutes.bindings {bs : List Binding} {f g : Scope → Outcome β}
    (rest : ∀ τ', f ((σ.hide (bs.map Binding.name)).or τ') = g τ') :
    bindings ev bs (σ.or τ) >>= f = bindings ev (Binding.substAll σ bs) τ >>= g := by
  induction bs generalizing σ τ with
  | nil =>
    rw [List.map_nil, Scope.hide_nil] at rest
    exact rest τ
  | cons b bs ih =>
    rw [Binding.substAll_cons, Scoped.bindings, Scoped.bindings, h.value, bind_assoc, bind_assoc]
    refine bind_congr fun v => ?_
    rw [Scope.or_bind]
    refine ih fun τ' => ?_
    rw [← Scope.hide_cons]
    exact rest τ'

theorem Substitutes.rounds {names : List String} {body : Expr} {n : Nat}
    (hidden : ∀ x ∈ names, σ x = none) :
    rounds ev names body n (σ.or τ) = rounds ev names (body.subst σ) n τ := by
  induction n generalizing τ with
  | zero => rfl
  | succ n ih =>
    rw [Scoped.rounds, Scoped.rounds, h]
    refine bind_congr fun ending => ?_
    cases ending with
    | value v => rfl
    | pending vs pos =>
      dsimp only
      rw [Scope.or_bindAll hidden, ih]

end Parts

end Scoped

/-- Evaluation in a scope is evaluation of what the expression becomes in it. -/
theorem Program.substitutes_evalIn (p : Program) (fuel : Nat) :
    Scoped.Substitutes (p.evalIn fuel) := by
  induction fuel with
  | zero => exact fun _ _ _ => rfl
  | succ n h =>
    intro e σ τ
    cases e with
    | integer _ v => rfl
    | var t name =>
      rw [Expr.subst]
      cases found : σ name with
      | some v => simp [evalIn, Scope.or, found]
      | none => simp [evalIn, Scope.or, found]
    | call t name args => rw [Expr.subst, evalIn, evalIn, h.args]
    | cond _ test thenBranch elseBranch => rw [Expr.subst, evalIn, evalIn, h.value, h, h]
    | unary _ op operand => rw [Expr.subst, evalIn, evalIn, h.value]
    | binary _ op lhs rhs => rw [Expr.subst, evalIn, evalIn, h.value, h.value]
    | letIn _ bs body =>
      rw [Expr.subst, evalIn, evalIn]
      exact h.bindings fun τ' => h body _ τ'
    | loop _ bs body =>
      rw [Expr.subst, evalIn, evalIn, Binding.map_name_substAll]
      refine h.bindings fun τ' => ?_
      rw [h.rounds fun x mem => Scope.hide_of_mem mem]
    | recur t args => rw [Expr.subst, evalIn, evalIn, h.args]

open Run

/-- **Environments behave as substitutions.** On every stack an expression comes to the outcome that
it comes to on the empty stack once the innermost values on the stack are written in place of its
free variables; and entering a function comes to what its body does with the arguments in place of
the parameters, of equal ones the last. -/
theorem Program.eval_eq_eval_subst (p : Program) (fuel : Nat) :
    (∀ (e : Expr) (s : Stack),
      outcome (p.eval fuel e) s = outcome (p.eval fuel (e.subst s.scope)) [])
    ∧ ∀ (f : Function) (values : List Int64),
        enter (p.eval fuel) f values =
          outcome (p.eval fuel
              (f.body.subst (Scope.empty.bindAll (f.params.map Ident.name) values))) []
            >>= Ending.handBack f.name := by
  have closed : ∀ e σ, p.evalIn fuel e σ = outcome (p.eval fuel (e.subst σ)) [] := by
    intro e σ
    rw [p.outcome_eval, ← p.substitutes_evalIn fuel e σ]
    exact congrArg _ σ.or_empty.symm
  refine ⟨fun e s => ?_, fun f values => ?_⟩
  · rw [p.outcome_eval, closed]
  · rw [(p.mirrors_eval fuel).enter, Scoped.enter, closed]

end LoopLang
