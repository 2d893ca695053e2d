import LoopLang.Proofs.Relocation.Trees
import LoopLang.Proofs.Scoping.Basic

set_option autoImplicit false

/-! # Evaluation at other places

A run takes places from the tree to the errors that tell them and never looks at one. So a program
at other places comes to the same outcome with the same fuel, but for the place that is told. This
is shown on the evaluation in a scope, part by part. -/

namespace LoopLang

variable {α α' β β' : Type} {f : Position → Position}

/-! ## Outcomes -/

/-- The outcome at other places, with the result that `move` makes of the result. -/
def Outcome.relocate (f : Position → Position) (move : α → β) : Outcome α → Outcome β
  | .ok a => .ok (move a)
  | .error halt => .error (halt.map (RuntimeError.relocate f))

theorem Outcome.relocate_bind {move : α → α'} {move' : β → β'} {x : Outcome α} {y : Outcome α'}
    {k : α → Outcome β} {l : α' → Outcome β'} (first : y = Outcome.relocate f move x)
    (rest : ∀ a, l (move a) = Outcome.relocate f move' (k a)) :
    (y >>= l) = Outcome.relocate f move' (x >>= k) := by
  rw [first]
  cases x with
  | ok a => exact rest a
  | error halt => rfl

theorem Ending.handBack_relocate (name : String) (ending : Ending) :
    (ending.relocate f).handBack name = Outcome.relocate f id (ending.handBack name) := by
  cases ending <;> rfl

/-! ## Functions by name -/

namespace Program

theorem lookup?_relocate (p : Program) (name : String) :
    (p.relocate f).lookup? name = (p.lookup? name).map (Function.relocate f) := by
  unfold lookup?
  rw [relocate, List.find?_map]
  rfl

theorem firstDuplicate?_relocate (earlier : List String) (gs : List Function) :
    firstDuplicate? earlier (gs.map (Function.relocate f)) =
      (firstDuplicate? earlier gs).map (Function.relocate f) := by
  induction gs generalizing earlier with
  | nil => rfl
  | cons g gs ih =>
    rw [List.map_cons, firstDuplicate?, firstDuplicate?, Function.relocate_name, ih]
    split <;> rfl

theorem duplicate?_relocate (p : Program) :
    (p.relocate f).duplicate? = p.duplicate?.map (Function.relocate f) :=
  firstDuplicate?_relocate [] p.functions

end Program

/-! ## Parts of expressions -/

namespace Scoped

/-- On expressions at other places, `ev'` comes to the outcome that `ev` comes to, at these
places. -/
def Carries (f : Position → Position) (ev ev' : Expr → Scope → Outcome Ending) : Prop :=
  ∀ e σ, ev' (e.relocate f) σ = Outcome.relocate f (Ending.relocate f) (ev e σ)

section Parts

variable {ev ev' : Expr → Scope → Outcome Ending} (h : Carries f ev ev')
include h

theorem Carries.value (site : RecurSite) (e : Expr) (σ : Scope) :
    Scoped.value ev' site (e.relocate f) σ = Outcome.relocate f id (Scoped.value ev site e σ) := by
  refine Outcome.relocate_bind (h e σ) fun ending => ?_
  cases ending <;> rfl

theorem Carries.args (es : List Expr) (σ : Scope) :
    Scoped.args ev' (es.map (Expr.relocate f)) σ = Outcome.relocate f id (Scoped.args ev es σ) := by
  induction es with
  | nil => rfl
  | cons e es ih =>
    refine Outcome.relocate_bind (h.value _ e σ) fun v => ?_
    exact Outcome.relocate_bind ih fun vs => rfl

theorem Carries.bindings (bs : List Binding) (σ : Scope) :
    Scoped.bindings ev' (bs.map (Binding.relocate f)) σ =
      Outcome.relocate f id (Scoped.bindings ev bs σ) := by
  induction bs generalizing σ with
  | nil => rfl
  | cons b bs ih => exact Outcome.relocate_bind (h.value _ b.value σ) fun v => ih _

theorem Carries.rounds (names : List String) (body : Expr) (n : Nat) (σ : Scope) :
    Scoped.rounds ev' names (body.relocate f) n σ =
      Outcome.relocate f id (Scoped.rounds ev names body n σ) := by
  induction n generalizing σ with
  | zero => rfl
  | succ n ih =>
    refine Outcome.relocate_bind (h body σ) fun ending => ?_
    cases ending with
    | value v => rfl
    | pending values pos =>
      show (if values.length = names.length then _ else _) =
        Outcome.relocate f id (if _ then _ else _)
      by_cases fits : values.length = names.length
      · rw [if_pos fits, if_pos fits, ih]
      · rw [if_neg fits, if_neg fits]
        rfl

theorem Carries.enter (g : Function) (values : List Int64) :
    Scoped.enter ev' (g.relocate f) values = Outcome.relocate f id (Scoped.enter ev g values) := by
  have params : (g.relocate f).params.map Ident.name = g.params.map Ident.name := by
    show (g.params.map (Ident.relocate f)).map Ident.name = _
    rw [List.map_map]
    rfl
  unfold Scoped.enter
  rw [params]
  exact Outcome.relocate_bind (h g.body _) fun ending => ending.handBack_relocate g.name

theorem Carries.call (p : Program) (name : String) (pos : Position) (values : List Int64) :
    Scoped.call ev' (p.relocate f) name (f pos) values =
      Outcome.relocate f id (Scoped.call ev p name pos values) := by
  unfold Scoped.call
  rw [p.lookup?_relocate]
  cases p.lookup? name with
  | none => rfl
  | some g =>
    have arity : (g.relocate f).params.length = g.params.length := List.length_map _
    dsimp only [Option.map]
    rw [arity]
    by_cases fits : values.length = g.params.length
    · rw [if_pos fits, if_pos fits, h.enter]
    · rw [if_neg fits, if_neg fits]
      rfl

end Parts

end Scoped

/-! ## Programs -/

namespace Program

open Scoped

theorem carries_evalIn (p : Program) (fuel : Nat) :
    Carries f (p.evalIn fuel) ((p.relocate f).evalIn fuel) := by
  induction fuel with
  | zero => exact fun _ _ => rfl
  | succ n ih =>
    intro e σ
    cases e with
    | integer _ v => rfl
    | var _ name =>
      rw [Expr.relocate, evalIn, evalIn]
      cases σ name <;> rfl
    | call _ name args =>
      rw [Expr.relocate, Expr.relocateAll_eq_map, evalIn, evalIn]
      refine Outcome.relocate_bind (ih.args args σ) fun values => ?_
      exact Outcome.relocate_bind (ih.call p name _ values) fun v => rfl
    | cond _ test thenBranch elseBranch =>
      rw [Expr.relocate, evalIn, evalIn]
      refine Outcome.relocate_bind (ih.value _ test σ) fun t => ?_
      dsimp only [id]
      split
      · exact ih elseBranch σ
      · exact ih thenBranch σ
    | unary _ op operand =>
      rw [Expr.relocate, evalIn, evalIn]
      exact Outcome.relocate_bind (ih.value _ operand σ) fun v => rfl
    | binary _ op lhs rhs =>
      rw [Expr.relocate, evalIn, evalIn]
      refine Outcome.relocate_bind (ih.value _ lhs σ) fun l => ?_
      exact Outcome.relocate_bind (ih.value _ rhs σ) fun r => rfl
    | letIn _ bs body =>
      rw [Expr.relocate, Binding.relocateAll_eq_map, evalIn, evalIn]
      exact Outcome.relocate_bind (ih.bindings bs σ) fun inner => ih body inner
    | loop _ bs body =>
      have names : (bs.map (Binding.relocate f)).map Binding.name = bs.map Binding.name := by
        rw [List.map_map]
        rfl
      rw [Expr.relocate, Binding.relocateAll_eq_map, evalIn, evalIn, names]
      refine Outcome.relocate_bind (ih.bindings bs σ) fun inner => ?_
      exact Outcome.relocate_bind (ih.rounds _ body n inner) fun v => rfl
    | recur _ args =>
      rw [Expr.relocate, Expr.relocateAll_eq_map, evalIn, evalIn]
      exact Outcome.relocate_bind (ih.args args σ) fun values => rfl

/-- A program at other places comes to the same outcome, at these places. -/
theorem evaluate_relocate (p : Program) (fuel : Nat) (args : List Int64) :
    (p.relocate f).evaluate fuel args = Outcome.relocate f id (p.evaluate fuel args) := by
  unfold evaluate
  rw [p.duplicate?_relocate, p.lookup?_relocate]
  cases p.duplicate? with
  | some g => rfl
  | none =>
    cases p.lookup? "main" with
    | none => rfl
    | some main =>
      have arity : (main.relocate f).params.length = main.params.length := List.length_map _
      dsimp only [Option.map]
      rw [arity, (mirrors_eval _ fuel).enter, (p.mirrors_eval fuel).enter,
        (p.carries_evalIn fuel).enter]
      split <;> rfl

end Program

end LoopLang
