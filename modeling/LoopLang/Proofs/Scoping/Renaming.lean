import LoopLang.Proofs.Scoping.Basic
import Mathlib.Data.List.Forall2

set_option autoImplicit false

/-! # Renaming bound variables

A program can be renamed: its parameters and the names of its bindings get other names, and each
variable follows the binder that it refers to. Which binders there are around an expression, and
what each is called before and after, is a list of pairs; a variable refers to the first of them
with its name. A name may be used once more, or twice in one list, on one of the sides only. As long
as no variable comes to refer to another binder, both programs evaluate to the same. -/

namespace LoopLang

/-! ## Binders -/

/-- The names that the binders around an expression have on both sides, the innermost first. -/
abbrev Binders := List (String × String)

/-- The binders of a list of parameters or bindings, the last innermost. -/
def Binders.ofNames (names names' : List String) : Binders :=
  (names.zip names').reverse

/-- `x` on the one side and `y` on the other refer to the same binder, or to none and are equal. -/
inductive SameBinder : Binders → String → String → Prop where
  | free {x} : SameBinder [] x x
  | here {Γ x y} : SameBinder ((x, y) :: Γ) x y
  | outer {Γ a b x y} (left : x ≠ a) (right : y ≠ b) (further : SameBinder Γ x y) :
      SameBinder ((a, b) :: Γ) x y

/-- What two names refer to lies among the first binders, or these are all skipped. -/
theorem SameBinder.split {Φ Γ : Binders} {x y : String} (h : SameBinder (Φ ++ Γ) x y) :
    (∀ Δ, SameBinder (Φ ++ Δ) x y)
      ∨ SameBinder Γ x y ∧ ∀ Δ, SameBinder Δ x y → SameBinder (Φ ++ Δ) x y := by
  induction Φ with
  | nil => exact .inr ⟨h, fun _ => id⟩
  | cons b Φ ih =>
    cases h with
    | here => exact .inl fun _ => .here
    | outer left right further =>
      refine (ih further).imp ?_ ?_
      · exact fun inside Δ => .outer left right (inside Δ)
      · exact fun ⟨below, skip⟩ => ⟨below, fun Δ this => .outer left right (skip Δ this)⟩

/-- Behind some binders, the same binders once more are never referred to. -/
theorem SameBinder.again {Φ Γ : Binders} {x y : String} (h : SameBinder (Φ ++ Γ) x y) :
    SameBinder (Φ ++ (Φ ++ Γ)) x y := by
  rcases h.split with inside | ⟨_, skip⟩
  · exact inside _
  · exact skip _ h

/-! ## Renamed programs -/

mutual

/-- The second expression is the first with other names for its bindings, among these binders. -/
inductive Expr.Renamed : Binders → Expr → Expr → Prop where
  | integer {Γ t v} : Expr.Renamed Γ (.integer t v) (.integer t v)
  | var {Γ t t' x y} (place : t.pos = t'.pos) (same : SameBinder Γ x y) :
      Expr.Renamed Γ (.var t x) (.var t' y)
  | call {Γ t name es es'} (args : Expr.AllRenamed Γ es es') :
      Expr.Renamed Γ (.call t name es) (.call t name es')
  | cond {Γ t c c' a a' b b'} (test : Expr.Renamed Γ c c') (thenBranch : Expr.Renamed Γ a a')
      (elseBranch : Expr.Renamed Γ b b') : Expr.Renamed Γ (.cond t c a b) (.cond t c' a' b')
  | unary {Γ t op e e'} (operand : Expr.Renamed Γ e e') :
      Expr.Renamed Γ (.unary t op e) (.unary t op e')
  | binary {Γ t op a a' b b'} (lhs : Expr.Renamed Γ a a') (rhs : Expr.Renamed Γ b b') :
      Expr.Renamed Γ (.binary t op a b) (.binary t op a' b')
  | letIn {Γ Δ t bs bs' e e'} (bindings : Binding.AllRenamed Γ bs bs' Δ)
      (body : Expr.Renamed Δ e e') : Expr.Renamed Γ (.letIn t bs e) (.letIn t bs' e')
  | loop {Γ Δ t bs bs' e e'} (bindings : Binding.AllRenamed Γ bs bs' Δ)
      (body : Expr.Renamed Δ e e') : Expr.Renamed Γ (.loop t bs e) (.loop t bs' e')
  | recur {Γ t es es'} (args : Expr.AllRenamed Γ es es') :
      Expr.Renamed Γ (.recur t es) (.recur t es')

/-- Renamed expressions, one by one. -/
inductive Expr.AllRenamed : Binders → List Expr → List Expr → Prop where
  | nil {Γ} : Expr.AllRenamed Γ [] []
  | cons {Γ e e' es es'} (first : Expr.Renamed Γ e e') (others : Expr.AllRenamed Γ es es') :
      Expr.AllRenamed Γ (e :: es) (e' :: es')

/-- Renamed bindings, each of which is a binder for the later ones, and the binders behind them. -/
inductive Binding.AllRenamed : Binders → List Binding → List Binding → Binders → Prop where
  | nil {Γ} : Binding.AllRenamed Γ [] [] Γ
  | cons {Γ Δ b b' bs bs'} (first : Expr.Renamed Γ b.value b'.value)
      (others : Binding.AllRenamed ((b.name, b'.name) :: Γ) bs bs' Δ) :
      Binding.AllRenamed Γ (b :: bs) (b' :: bs') Δ

end

/-- The second function is the first with other names for its parameters and bindings. -/
structure Function.Renamed (f g : Function) : Prop where
  token : f.token = g.token
  name : f.name = g.name
  arity : f.params.length = g.params.length
  body : Expr.Renamed (.ofNames (f.params.map Ident.name) (g.params.map Ident.name)) f.body g.body

/-- The second program is the first with other names for its parameters and bindings. -/
def Program.Renamed (p q : Program) : Prop :=
  List.Forall₂ Function.Renamed p.functions q.functions

/-- Behind renamed bindings there are the binders of their names. -/
theorem Binding.AllRenamed.binders {Γ Δ : Binders} {bs bs' : List Binding}
    (h : AllRenamed Γ bs bs' Δ) :
    bs.length = bs'.length
      ∧ Δ = Binders.ofNames (bs.map Binding.name) (bs'.map Binding.name) ++ Γ := by
  match h with
  | .nil => exact ⟨rfl, rfl⟩
  | .cons _ others =>
    obtain ⟨count, inner⟩ := others.binders
    refine ⟨congrArg Nat.succ count, ?_⟩
    rw [inner]
    simp [Binders.ofNames]

/-! ## Scopes on both sides -/

/-- Names that refer to the same binder stand for the same value, and only equal names for none. -/
def Scope.Matches (Γ : Binders) (σ τ : Scope) : Prop :=
  ∀ x y, SameBinder Γ x y → σ x = τ y ∧ (σ x = none → x = y)

theorem Scope.matches_empty : Matches [] empty empty
  | _, _, .free => ⟨rfl, fun _ => rfl⟩

namespace Scope.Matches

variable {Γ : Binders} {σ τ : Scope} {names names' : List String} {values : List Int64}

theorem bind (h : Matches Γ σ τ) (a b : String) (v : Int64) :
    Matches ((a, b) :: Γ) (σ.bind a v) (τ.bind b v) := by
  intro x y same
  cases same with
  | here => simp [Scope.bind]
  | outer left right further => simpa [Scope.bind, left, right] using h x y further

theorem bindAll (h : Matches Γ σ τ) (count : names.length = names'.length)
    (fits : values.length = names.length) :
    Matches (.ofNames names names' ++ Γ) (σ.bindAll names values) (τ.bindAll names' values) := by
  induction names generalizing Γ σ τ names' values with
  | nil =>
    obtain rfl : names' = [] := List.length_eq_zero_iff.mp count.symm
    exact h
  | cons a names ih =>
    obtain ⟨b, names', rfl⟩ := List.exists_cons_of_length_eq_add_one count.symm
    obtain ⟨v, values, rfl⟩ := List.exists_cons_of_length_eq_add_one fits
    have inner := ih (h.bind a b v) (Nat.succ.inj count) (Nat.succ.inj fits)
    simpa [Binders.ofNames, Scope.bindAll] using inner

/-- A loop that starts again finds its binders as they were. -/
theorem rebind (h : Matches (.ofNames names names' ++ Γ) σ τ) (count : names.length = names'.length)
    (fits : values.length = names.length) :
    Matches (.ofNames names names' ++ Γ) (σ.bindAll names values) (τ.bindAll names' values) :=
  fun x y same => h.bindAll count fits x y same.again

end Scope.Matches

/-! ## Evaluation on both sides -/

namespace Scoped

variable {β : Type} {ev ev' : Expr → Scope → Outcome Ending}

/-- In scopes that match, `ev'` comes to the same for a renamed expression as `ev` did before. -/
def Renames (ev ev' : Expr → Scope → Outcome Ending) : Prop :=
  ∀ Γ e e' σ τ, Expr.Renamed Γ e e' → Scope.Matches Γ σ τ → ev e σ = ev' e' τ

section Parts

variable (h : Renames ev ev') {Γ Δ : Binders} {σ τ : Scope}
include h

theorem Renames.value {e e' : Expr} (site : RecurSite) (renamed : Expr.Renamed Γ e e')
    (matching : Scope.Matches Γ σ τ) : value ev site e σ = value ev' site e' τ := by
  rw [Scoped.value, Scoped.value, h _ _ _ _ _ renamed matching]

theorem Renames.args {es es' : List Expr} (renamed : Expr.AllRenamed Γ es es')
    (matching : Scope.Matches Γ σ τ) : args ev es σ = args ev' es' τ := by
  induction es generalizing es' with
  | nil =>
    cases renamed
    rfl
  | cons e es ih =>
    cases renamed with
    | cons first others => rw [Scoped.args, Scoped.args, h.value _ first matching, ih others]

/-- Behind renamed bindings, the two sides go on in scopes that match. -/
theorem Renames.bindings {bs bs' : List Binding} {f g : Scope → Outcome β}
    (renamed : Binding.AllRenamed Γ bs bs' Δ) (matching : Scope.Matches Γ σ τ)
    (rest : ∀ σ' τ', Scope.Matches Δ σ' τ' → f σ' = g τ') :
    bindings ev bs σ >>= f = bindings ev' bs' τ >>= g := by
  induction bs generalizing bs' Γ σ τ with
  | nil =>
    cases renamed
    exact rest σ τ matching
  | cons b bs ih =>
    cases renamed with
    | cons first others =>
      rw [Scoped.bindings, Scoped.bindings, h.value _ first matching, bind_assoc, bind_assoc]
      exact bind_congr fun v => ih others (matching.bind _ _ v)

theorem Renames.rounds {names names' : List String} {body body' : Expr} {n : Nat}
    (count : names.length = names'.length)
    (renamed : Expr.Renamed (.ofNames names names' ++ Γ) body body')
    (matching : Scope.Matches (.ofNames names names' ++ Γ) σ τ) :
    rounds ev names body n σ = rounds ev' names' body' n τ := by
  induction n generalizing σ τ with
  | zero => rfl
  | succ n ih =>
    rw [Scoped.rounds, Scoped.rounds, h _ _ _ _ _ renamed matching]
    refine bind_congr fun ending => ?_
    cases ending with
    | value v => rfl
    | pending values pos =>
      dsimp only
      rw [← count]
      split
      · next fits => exact ih (matching.rebind count fits)
      · rfl

theorem Renames.enter {f g : Function} {values : List Int64} (renamed : f.Renamed g)
    (fits : values.length = f.params.length) : enter ev f values = enter ev' g values := by
  have arity : (f.params.map Ident.name).length = (g.params.map Ident.name).length := by
    simpa using renamed.arity
  have matching := Scope.matches_empty.bindAll arity (by simpa using fits)
  rw [List.append_nil] at matching
  rw [Scoped.enter, Scoped.enter, h _ _ _ _ _ renamed.body matching, renamed.name]

end Parts

end Scoped

namespace Program

variable {p q : Program}

theorem Renamed.lookup? (h : p.Renamed q) (name : String) :
    Option.Rel Function.Renamed (p.lookup? name) (q.lookup? name) := by
  unfold Program.Renamed at h
  unfold Program.lookup?
  generalize p.functions = fs, q.functions = gs at h
  induction h with
  | nil => exact .none
  | cons first _ ih =>
    rw [List.find?_cons, List.find?_cons, first.name]
    split
    · exact .some first
    · exact ih

theorem Renamed.duplicate? (h : p.Renamed q) :
    Option.Rel Function.Renamed p.duplicate? q.duplicate? := by
  unfold Program.Renamed at h
  unfold Program.duplicate?
  generalize p.functions = fs, q.functions = gs, [] = earlier at h
  induction h generalizing earlier with
  | nil => exact .none
  | cons first _ ih =>
    rw [firstDuplicate?, firstDuplicate?, first.name]
    split
    · exact .some first
    · exact ih _

theorem Renamed.call {ev ev' : Expr → Scope → Outcome Ending} (h : p.Renamed q)
    (same : Scoped.Renames ev ev') (name : String) (pos : Position) (values : List Int64) :
    Scoped.call ev p name pos values = Scoped.call ev' q name pos values := by
  have found := h.lookup? name
  unfold Scoped.call
  generalize p.lookup? name = f?, q.lookup? name = g? at found
  cases found with
  | none => rfl
  | some renamed =>
    dsimp only
    rw [← renamed.arity]
    split
    · next fits => exact same.enter renamed fits
    · rfl

theorem Renamed.renames_evalIn (h : p.Renamed q) (fuel : Nat) :
    Scoped.Renames (p.evalIn fuel) (q.evalIn fuel) := by
  induction fuel with
  | zero => exact fun _ _ _ _ _ _ _ => rfl
  | succ n same =>
    intro Γ e e' σ τ renamed matching
    cases renamed with
    | integer => rfl
    | @var _ t t' x y place binder =>
      obtain ⟨values, free⟩ := matching x y binder
      rw [evalIn, evalIn, ← values]
      cases here : σ x with
      | some v => rfl
      | none => rw [free here, place]
    | call args => rw [evalIn, evalIn, same.args args matching, funext (h.call same _ _)]
    | cond test thenBranch elseBranch =>
      rw [evalIn, evalIn, same.value _ test matching, same _ _ _ _ _ thenBranch matching,
        same _ _ _ _ _ elseBranch matching]
    | unary operand => rw [evalIn, evalIn, same.value _ operand matching]
    | binary lhs rhs =>
      rw [evalIn, evalIn, same.value _ lhs matching, same.value _ rhs matching]
    | letIn bindings body =>
      rw [evalIn, evalIn]
      exact same.bindings bindings matching fun σ' τ' => same _ _ _ σ' τ' body
    | loop bindings body =>
      obtain ⟨count, rfl⟩ := bindings.binders
      rw [evalIn, evalIn]
      refine same.bindings bindings matching fun σ' τ' matching' => ?_
      rw [same.rounds (by simpa using count) body matching']
    | recur args => rw [evalIn, evalIn, same.args args matching]

/-- **Names of bound variables do not matter.** With the same arguments and the same fuel, a program
and what it is renamed to evaluate to the same value or fail with the same error. -/
theorem Renamed.evaluate_eq (h : p.Renamed q) (fuel : Nat) (args : List Int64) :
    p.evaluate fuel args = q.evaluate fuel args := by
  have repeated := h.duplicate?
  have main := h.lookup? "main"
  unfold evaluate
  generalize p.duplicate? = d, q.duplicate? = d' at repeated
  generalize p.lookup? "main" = f?, q.lookup? "main" = g? at main
  cases repeated with
  | some renamed =>
    dsimp only
    rw [renamed.name, renamed.token]
  | none =>
    cases main with
    | none => rfl
    | some renamed =>
      dsimp only
      rw [← renamed.arity]
      split
      · next fits =>
        rw [(p.mirrors_eval fuel).enter, (q.mirrors_eval fuel).enter,
          (h.renames_evalIn fuel).enter renamed fits]
      · rfl

/-- The program `let main(a, b) = let c = b + 1 in loop d = c in if d < 10 then recur(d + b) else d
end end end` with these names, without the tokens of its source. -/
def stepping (a b c d : String) : Program :=
  let t : Token := .endOfText .nowhere
  let next : Expr := .binary t .add (.var t d) (.var t b)
  let round : Expr :=
    .cond t (.binary t .less (.var t d) (.integer t 10)) (.recur t [next]) (.var t d)
  ⟨[⟨t, ⟨t, "main"⟩, [⟨t, a⟩, ⟨t, b⟩],
    .letIn t [⟨⟨t, c⟩, .binary t .add (.var t b) (.integer t 1)⟩]
      (.loop t [⟨⟨t, d⟩, .var t c⟩] round)⟩]⟩

/-- Nothing refers to `a`, and to `c` only in front of `d`, so that just `b` has to stay apart. -/
theorem stepping_renamed (a c d a' c' d' : String) {b b' : String} (apart : b ≠ c ∧ b ≠ d)
    (apart' : b' ≠ c' ∧ b' ≠ d') : (stepping a b c d).Renamed (stepping a' b' c' d') := by
  have step : SameBinder [(d, d'), (c, c'), (b, b'), (a, a')] b b' :=
    .outer apart.2 apart'.2 (.outer apart.1 apart'.1 .here)
  refine .cons ⟨rfl, rfl, rfl, ?_⟩ .nil
  refine .letIn (.cons (.binary (.var rfl .here) .integer) .nil) ?_
  refine .loop (.cons (.var rfl .here) .nil) ?_
  refine .cond (.binary (.var rfl .here) .integer) (.recur (.cons ?_ .nil)) (.var rfl .here)
  exact .binary (.var rfl .here) (.var rfl step)

/-- Two names do for all four binders, but with one name for all the loop adds another variable. -/
theorem stepping_evaluate :
    (stepping "a" "b" "c" "d").evaluate 20 [0, 3] = (stepping "n" "n" "m" "m").evaluate 20 [0, 3]
      ∧ (stepping "a" "b" "c" "d").evaluate 20 [0, 3] = .ok 10
      ∧ (stepping "n" "n" "n" "n").evaluate 20 [0, 3] = .ok 16 :=
  ⟨(stepping_renamed _ _ _ _ _ _ (by decide) (by decide)).evaluate_eq 20 [0, 3],
    by decide +kernel, by decide +kernel⟩

end Program

end LoopLang
