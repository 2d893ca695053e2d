import LoopLang.Proofs.BigStep.Adequacy
import LoopLang.Proofs.BigStep.FreeVariables
import Mathlib.Data.Int.ModEq

set_option autoImplicit false

/-! # Arithmetic is exact up to multiples of 2 ^ 64

Negation, addition and multiplication of words are those of the integers up to a multiple of
2 ^ 64, and `let` only gives names to values. So arithmetic may be computed over the integers all
the way, with names that stand for integers of any size, and brought into the range of a word at the
very end: wherever the evaluation wraps around, it ends with the same word.

The invariant is that a name stands for an integer in one scope and for the word of that integer in
the other. Equality of the two is not kept, since the integer may have left the range of a word. -/

namespace LoopLang

open Filter

/-! ## Words of integers -/

/-- The word of an integer is the only one that differs from it by a multiple of 2 ^ 64. -/
theorem toInt_modEq_iff {w : Int64} {z : Int} :
    w.toInt ≡ z [ZMOD 2 ^ 64] ↔ w = Int64.ofInt z := by
  have low := w.le_toInt
  have high := w.toInt_lt
  rw [eq_comm, Int64.ofInt_eq_iff_bmod_eq_toInt, Int.bmod_def, Int.ModEq]
  split <;> omega

/-! ## Arithmetic over the integers -/

/-- What names stand for over the integers. -/
def IntScope := String → Option Int

/-- The scope `τ` with `name` standing for `z`. -/
def IntScope.bind (τ : IntScope) (name : String) (z : Int) : IntScope :=
  fun x => if x = name then some z else τ x

/-- What the names on a stack stand for, over the integers. -/
def Stack.intScope (s : Stack) : IntScope := fun x => (s.get? x).map Int64.toInt

mutual

/-- The value of an expression over the integers: of arithmetic, if the names that it takes from the
scope stand for integers there. -/
def Expr.intValue? : Expr → IntScope → Option Int
  | .integer _ n, _ => some n.toInt
  | .var _ name, τ => τ name
  | .unary _ .neg operand, τ => do
    let z ← operand.intValue? τ
    return -z
  | .binary _ .add lhs rhs, τ => do
    let l ← lhs.intValue? τ
    let r ← rhs.intValue? τ
    return l + r
  | .binary _ .mul lhs rhs, τ => do
    let l ← lhs.intValue? τ
    let r ← rhs.intValue? τ
    return l * r
  | .letIn _ bindings body, τ => do
    let τ' ← Binding.intScope? bindings τ
    body.intValue? τ'
  | _, _ => none

/-- The scope that bindings lead to over the integers, each seen by the later ones. -/
def Binding.intScope? : List Binding → IntScope → Option IntScope
  | [], τ => some τ
  | ⟨ident, value⟩ :: bs, τ => do
    let z ← value.intValue? τ
    Binding.intScope? bs (τ.bind ident.name z)

end

theorem Binding.intScope?_cons (b : Binding) (bs : List Binding) (τ : IntScope) :
    Binding.intScope? (b :: bs) τ =
      (b.value.intValue? τ).bind fun z => Binding.intScope? bs (τ.bind b.name z) := by
  cases b with
  | mk ident value => rfl

/-- The expressions built from integers, variables, negation, addition, multiplication and `let`. -/
inductive Expr.Arithmetic : Expr → Prop where
  | integer {t n} : Arithmetic (.integer t n)
  | var {t name} : Arithmetic (.var t name)
  | neg {t e} (operand : Arithmetic e) : Arithmetic (.unary t .neg e)
  | add {t a b} (lhs : Arithmetic a) (rhs : Arithmetic b) : Arithmetic (.binary t .add a b)
  | mul {t a b} (lhs : Arithmetic a) (rhs : Arithmetic b) : Arithmetic (.binary t .mul a b)
  | letIn {t bs e} (values : ∀ b ∈ bs, Arithmetic b.value) (body : Arithmetic e) :
      Arithmetic (.letIn t bs e)

section Defined

variable {τ : IntScope}

/-- Each of the names stands for an integer. -/
def IntScope.Covers (τ : IntScope) (names : List String) : Prop :=
  ∀ x ∈ names, ∃ z, τ x = some z

@[simp] theorem IntScope.covers_append {xs ys : List String} :
    τ.Covers (xs ++ ys) ↔ τ.Covers xs ∧ τ.Covers ys :=
  List.forall_mem_append

theorem IntScope.Covers.bind {xs : List String} {name : String} {z : Int}
    (h : τ.Covers (xs.filter (· ≠ name))) : (τ.bind name z).Covers xs := by
  intro x mem
  by_cases here : x = name
  · exact ⟨z, by simp [IntScope.bind, here]⟩
  · obtain ⟨y, hy⟩ := h x (by simp [mem, here])
    exact ⟨y, by simp [IntScope.bind, here, hy]⟩

/-- Bindings lead to a scope if each of their values has one wherever its names stand for
integers. -/
theorem Binding.exists_intScope? {bs : List Binding} {inner : List String}
    (values : ∀ b ∈ bs, ∀ {τ : IntScope}, τ.Covers b.value.freeVars →
      ∃ z, b.value.intValue? τ = some z)
    (covers : τ.Covers (Binding.freeVars bs inner)) :
    ∃ τ', Binding.intScope? bs τ = some τ' ∧ τ'.Covers inner := by
  induction bs generalizing τ with
  | nil => exact ⟨τ, rfl, covers⟩
  | cons b bs ih =>
    rw [Binding.freeVars_cons, IntScope.covers_append] at covers
    obtain ⟨z, hz⟩ := values b List.mem_cons_self covers.1
    obtain ⟨τ', reached, inner⟩ :=
      ih (fun c mem => values c (List.mem_cons_of_mem b mem)) (covers.2.bind (z := z))
    exact ⟨τ', by simp [Binding.intScope?_cons, hz, reached], inner⟩

/-- Arithmetic has a value over the integers wherever its free variables stand for integers. -/
theorem Expr.Arithmetic.exists_intValue? {e : Expr} (arithmetic : e.Arithmetic)
    (covers : τ.Covers e.freeVars) : ∃ z, e.intValue? τ = some z := by
  induction arithmetic generalizing τ with
  | integer => exact ⟨_, rfl⟩
  | var => exact covers _ List.mem_cons_self
  | neg _ ih =>
    obtain ⟨z, hz⟩ := ih covers
    exact ⟨-z, by simp [Expr.intValue?, hz]⟩
  | add _ _ ihl ihr =>
    obtain ⟨left, right⟩ := IntScope.covers_append.mp covers
    obtain ⟨l, hl⟩ := ihl left
    obtain ⟨r, hr⟩ := ihr right
    exact ⟨l + r, by simp [Expr.intValue?, hl, hr]⟩
  | mul _ _ ihl ihr =>
    obtain ⟨left, right⟩ := IntScope.covers_append.mp covers
    obtain ⟨l, hl⟩ := ihl left
    obtain ⟨r, hr⟩ := ihr right
    exact ⟨l * r, by simp [Expr.intValue?, hl, hr]⟩
  | letIn _ _ values body =>
    obtain ⟨τ', reached, inner⟩ := Binding.exists_intScope? values covers
    obtain ⟨z, hz⟩ := body inner
    exact ⟨z, by simp [Expr.intValue?, reached, hz]⟩

end Defined

/-! ## From the integers to words -/

/-- A name that stands for an integer in `τ` stands for the word of that integer in `σ`, and the
others stand for nothing. -/
def Scope.Wraps (σ : Scope) (τ : IntScope) : Prop := ∀ x, σ x = (τ x).map Int64.ofInt

theorem Scope.Wraps.bind {σ : Scope} {τ : IntScope} (wraps : σ.Wraps τ) (name : String) (z : Int) :
    (σ.bind name (.ofInt z)).Wraps (τ.bind name z) := by
  intro x
  by_cases here : x = name
  · simp [Scope.bind, IntScope.bind, here]
  · simp [Scope.bind, IntScope.bind, here, wraps x]

theorem Stack.wraps_scope (s : Stack) : s.scope.Wraps s.intScope := by
  intro x
  simp [Stack.scope, Stack.intScope, Function.comp_def]

namespace BigStep

mutual

/-- Evaluation ends with the word of the value over the integers. -/
theorem eval_of_intValue? {p : Program} {σ : Scope} {τ : IntScope} {e : Expr} {z : Int}
    (wraps : σ.Wraps τ) (value : e.intValue? τ = some z) :
    Eval p σ e (.ok (.value (.ofInt z))) := by
  match e with
  | .integer _ n =>
    obtain rfl : n.toInt = z := by simpa [Expr.intValue?] using value
    rw [Int64.ofInt_toInt]
    exact .integer
  | .var _ name =>
    have found : τ name = some z := value
    exact .var (by rw [wraps, found]; rfl)
  | .unary _ .neg operand =>
    obtain ⟨y, hy, rfl⟩ : ∃ y, operand.intValue? τ = some y ∧ -y = z := by
      simpa [Expr.intValue?, Option.bind_eq_some_iff] using value
    rw [Int64.ofInt_neg]
    exact .unary (.value (eval_of_intValue? wraps hy))
  | .binary _ .add lhs rhs =>
    obtain ⟨l, hl, r, hr, rfl⟩ : ∃ l, lhs.intValue? τ = some l ∧
        ∃ r, rhs.intValue? τ = some r ∧ l + r = z := by
      simpa [Expr.intValue?, Option.bind_eq_some_iff] using value
    rw [Int64.ofInt_add]
    exact .binary (.value (eval_of_intValue? wraps hl)) (.value (eval_of_intValue? wraps hr))
  | .binary _ .mul lhs rhs =>
    obtain ⟨l, hl, r, hr, rfl⟩ : ∃ l, lhs.intValue? τ = some l ∧
        ∃ r, rhs.intValue? τ = some r ∧ l * r = z := by
      simpa [Expr.intValue?, Option.bind_eq_some_iff] using value
    rw [Int64.ofInt_mul]
    exact .binary (.value (eval_of_intValue? wraps hl)) (.value (eval_of_intValue? wraps hr))
  | .letIn _ bs body =>
    obtain ⟨τ', reached, hz⟩ : ∃ τ', Binding.intScope? bs τ = some τ' ∧
        body.intValue? τ' = some z := by simpa [Expr.intValue?, Option.bind_eq_some_iff] using value
    obtain ⟨σ', bound, wraps⟩ := bindings_of_intScope? wraps reached
    exact .letIn bound (eval_of_intValue? wraps hz)

/-- Bindings lead to scopes that correspond as before. -/
theorem bindings_of_intScope? {p : Program} {σ : Scope} {τ τ' : IntScope} {bs : List Binding}
    (wraps : σ.Wraps τ) (reached : Binding.intScope? bs τ = some τ') :
    ∃ σ', Bindings p σ bs (.ok σ') ∧ σ'.Wraps τ' := by
  match bs with
  | [] =>
    obtain rfl : τ = τ' := by simpa [Binding.intScope?] using reached
    exact ⟨σ, .nil, wraps⟩
  | ⟨ident, value⟩ :: bs =>
    rw [Binding.intScope?_cons] at reached
    obtain ⟨z, hz, others⟩ : ∃ z, value.intValue? τ = some z ∧
        Binding.intScope? bs (τ.bind ident.name z) = some τ' :=
      Option.bind_eq_some_iff.mp reached
    obtain ⟨σ', bound, inner⟩ := bindings_of_intScope? (wraps.bind ident.name z) others
    exact ⟨σ', .cons (.value (eval_of_intValue? wraps hz)) bound, inner⟩

end

end BigStep

/-- **Arithmetic is exact modulo 2 ^ 64.** On a stack that binds its free variables, arithmetic has
a value over the integers, and evaluation ends with the one word that differs from it by a multiple
of 2 ^ 64. -/
theorem Program.eval_arithmetic_exact (p : Program) {e : Expr} (arithmetic : e.Arithmetic)
    {s : Stack} (bound : ∀ x ∈ e.freeVars, ∃ v, s.get? x = some v) :
    ∃ z v, e.intValue? s.intScope = some z
      ∧ (∀ᶠ fuel in atTop, p.eval fuel e s = .ok (.value v) s)
      ∧ ∀ w : Int64, w.toInt ≡ z [ZMOD 2 ^ 64] ↔ w = v := by
  have covers : s.intScope.Covers e.freeVars := by
    intro x mem
    obtain ⟨v, hv⟩ := bound x mem
    exact ⟨v.toInt, by simp [Stack.intScope, hv]⟩
  obtain ⟨z, hz⟩ := arithmetic.exists_intValue? covers
  have derived : BigStep.Eval p s.scope e (.ok (.value (.ofInt z))) :=
    BigStep.eval_of_intValue? s.wraps_scope hz
  refine ⟨z, .ofInt z, hz, ?_, fun w => toInt_modEq_iff⟩
  filter_upwards [derived.ends rfl] with fuel ends
  exact (p.keeps_eval fuel e).eq_of_endsIn ends

/-- The expression `let a = n * 3 in -n + a * a end`, without the tokens of its source. -/
def Expr.tripleSquared : Expr :=
  let t : Token := .endOfText .nowhere
  .letIn t [⟨⟨t, "a"⟩, .binary t .mul (.var t "n") (.integer t 3)⟩]
    (.binary t .add (.unary t .neg (.var t "n")) (.binary t .mul (.var t "a") (.var t "a")))

theorem Expr.tripleSquared_arithmetic : Expr.tripleSquared.Arithmetic := by
  refine .letIn ?_ (.add (.neg .var) (.mul .var .var))
  intro b mem
  obtain rfl := List.mem_singleton.mp mem
  exact .mul .var .integer

/-- For the least word every operation but the addition overflows, and `a` is used twice behind its
overflow. -/
theorem Program.eval_tripleSquared_least :
    ∃ z v, Expr.tripleSquared.intValue? (Stack.intScope [⟨"n", Int64.minValue⟩]) = some z
      ∧ (∀ᶠ fuel in atTop, (⟨[]⟩ : Program).eval fuel Expr.tripleSquared [⟨"n", Int64.minValue⟩] =
          .ok (.value v) [⟨"n", Int64.minValue⟩])
      ∧ z = 9 * 2 ^ 126 + 2 ^ 63 ∧ v = Int64.minValue := by
  have bound : ∀ x ∈ Expr.tripleSquared.freeVars,
      ∃ v, Stack.get? [⟨"n", Int64.minValue⟩] x = some v := by
    intro x mem
    obtain rfl : x = "n" := by simpa [Expr.tripleSquared, Expr.freeVars, Binding.freeVars] using mem
    exact ⟨_, rfl⟩
  obtain ⟨z, v, hz, ends, unique⟩ :=
    Program.eval_arithmetic_exact ⟨[]⟩ Expr.tripleSquared_arithmetic bound
  have value : Expr.tripleSquared.intValue? (Stack.intScope [⟨"n", Int64.minValue⟩]) =
      some (9 * 2 ^ 126 + 2 ^ 63) := by decide +kernel
  obtain rfl : 9 * 2 ^ 126 + 2 ^ 63 = z := by simpa [value] using hz
  exact ⟨_, v, hz, ends, rfl, ((unique Int64.minValue).mp (by decide)).symm⟩

end LoopLang
