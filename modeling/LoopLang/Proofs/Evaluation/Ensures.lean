import LoopLang.Evaluation

set_option autoImplicit false

/-! # What a run ensures

`Run.Ensures x s post fails` says how the run `x` may stop when it starts on the stack `s`: with a
result and a stack in `post`, or with an error and a stack in `fails`, but never on a broken stack.
Of a run that needs more fuel it says nothing. There is one rule for each step that evaluation is
built from; a loop is given an invariant, and so is a list of bindings. -/

namespace LoopLang.Run

variable {α β : Type}

/-- From the stack `s`, the run `x` stops as `post` and `fails` allow, if it stops. -/
def Ensures (x : Run α) (s : Stack) (post : α → Stack → Prop)
    (fails : RuntimeError → Stack → Prop) : Prop :=
  match x s with
  | .ok a t => post a t
  | .error (.error e) t => fails e t
  | .error .brokenStack _ => False
  | .error .outOfFuel _ => True

section Rules

variable {s : Stack} {post : α → Stack → Prop} {fails : RuntimeError → Stack → Prop}

/-! ## Logical rules -/

theorem Ensures.mono {post' : α → Stack → Prop} {fails' : RuntimeError → Stack → Prop} {x : Run α}
    (h : Ensures x s post fails) (hpost : ∀ a t, post a t → post' a t)
    (hfails : ∀ e t, fails e t → fails' e t) : Ensures x s post' fails' := by
  unfold Ensures at *
  cases result : x s with
  | ok a t =>
    rw [result] at h
    exact hpost a t h
  | error halt t =>
    rw [result] at h
    cases halt with
    | error e => exact hfails e t h
    | brokenStack => exact h
    | outOfFuel => trivial

theorem Ensures.mono_post {post' : α → Stack → Prop} {x : Run α} (h : Ensures x s post fails)
    (hpost : ∀ a t, post a t → post' a t) : Ensures x s post' fails :=
  h.mono hpost fun _ _ he => he

theorem Ensures.mono_fails {fails' : RuntimeError → Stack → Prop} {x : Run α}
    (h : Ensures x s post fails) (hfails : ∀ e t, fails e t → fails' e t) :
    Ensures x s post fails' :=
  h.mono (fun _ _ ht => ht) hfails

theorem Ensures.and {post' : α → Stack → Prop} {fails' : RuntimeError → Stack → Prop} {x : Run α}
    (h : Ensures x s post fails) (h' : Ensures x s post' fails') :
    Ensures x s (fun a t => post a t ∧ post' a t) (fun e t => fails e t ∧ fails' e t) := by
  unfold Ensures at *
  cases result : x s with
  | ok a t =>
    rw [result] at h h'
    exact ⟨h, h'⟩
  | error halt t =>
    rw [result] at h h'
    cases halt with
    | error e => exact ⟨h, h'⟩
    | brokenStack => exact h
    | outOfFuel => trivial

theorem Ensures.of_ok {x : Run α} {a : α} {t : Stack} (h : Ensures x s post fails)
    (result : x s = .ok a t) : post a t := by
  rw [Ensures, result] at h
  exact h

theorem Ensures.of_error {x : Run α} {e : RuntimeError} {t : Stack} (h : Ensures x s post fails)
    (result : x s = .error (.error e) t) : fails e t := by
  rw [Ensures, result] at h
  exact h

/-! ## Sequences -/

theorem ensures_pure {a : α} (h : post a s) : Ensures (pure a) s post fails := h

theorem ensures_fail {e : RuntimeError} (h : fails e s) : Ensures (fail e) s post fails := h

theorem ensures_outOfFuel : Ensures (throw .outOfFuel) s post fails := trivial

theorem bind_apply (x : Run α) (f : α → Run β) (s : Stack) :
    (x >>= f) s =
      match x s with
      | .ok a t => f a t
      | .error halt t => .error halt t := by
  show EStateM.bind x f s = _
  unfold EStateM.bind
  cases x s <;> rfl

theorem Ensures.bind {post' : β → Stack → Prop} {x : Run α} {f : α → Run β}
    (hx : Ensures x s post fails) (hf : ∀ a t, post a t → Ensures (f a) t post' fails) :
    Ensures (x >>= f) s post' fails := by
  unfold Ensures at hx ⊢
  rw [bind_apply]
  cases result : x s with
  | ok a t =>
    rw [result] at hx
    exact hf a t hx
  | error halt t =>
    rw [result] at hx
    cases halt with
    | error e => exact hx
    | brokenStack => exact hx
    | outOfFuel => trivial

theorem ensures_get_bind {f : Stack → Run α} (h : Ensures (f s) s post fails) :
    Ensures (get >>= f) s post fails := h

end Rules

/-! ## Results without a stack -/

/-- The result `x` is as `post` and `fails` allow, if it is a result. -/
def Returns (x : Except (Halt RuntimeError) α) (post : α → Prop) (fails : RuntimeError → Prop) :
    Prop :=
  match x with
  | .ok a => post a
  | .error (.error e) => fails e
  | .error .brokenStack => False
  | .error .outOfFuel => True

theorem Returns.ensures {s : Stack} {post : α → Prop} {fails : RuntimeError → Prop}
    {x : Except (Halt RuntimeError) α} (h : Returns x post fails) :
    Ensures (ofExcept x) s (fun a t => t = s ∧ post a) fun e t => t = s ∧ fails e := by
  cases x with
  | ok a => exact ⟨rfl, h⟩
  | error halt =>
    cases halt with
    | error e => exact ⟨rfl, h⟩
    | brokenStack => exact h
    | outOfFuel => trivial

theorem Returns.ok_or_outOfFuel {post : α → Prop} {x : Except (Halt RuntimeError) α}
    (h : Returns x post fun _ => False) :
    (∃ a, x = .ok a ∧ post a) ∨ x = .error .outOfFuel := by
  cases x with
  | ok a => exact Or.inl ⟨a, rfl, h⟩
  | error halt =>
    cases halt with
    | error e => exact absurd h id
    | brokenStack => exact absurd h id
    | outOfFuel => exact Or.inr rfl

/-! ## Steps on the stack -/

section Stack

variable {s : Stack} {fails : RuntimeError → Stack → Prop}

theorem fetch_apply (name : String) (pos : Position) (s : Stack) :
    fetch name pos s =
      match s.get? name with
      | some v => .ok v s
      | none => .error (.error (.unboundVariable name pos)) s := by
  show (match s.get? name with
    | some v => pure v
    | none => fail (.unboundVariable name pos) : Run Int64) s = _
  cases s.get? name <;> rfl

theorem ensures_fetch {post : Int64 → Stack → Prop} {name : String} {pos : Position}
    (found : ∀ v, s.get? name = some v → post v s)
    (missing : s.get? name = none → fails (.unboundVariable name pos) s) :
    Ensures (fetch name pos) s post fails := by
  rw [Ensures, fetch_apply]
  cases h : s.get? name with
  | some v => exact found v h
  | none => exact missing h

theorem ensures_push {name : String} {v : Int64} :
    Ensures (push name v) s (fun _ t => t = s.push name v) fails := rfl

theorem pop_apply (count : Nat) (s : Stack) :
    pop count s =
      match s.pop? count with
      | some t => .ok () t
      | none => .error .brokenStack s := by
  show (match s.pop? count with
    | some t => set t
    | none => throw .brokenStack : Run Unit) s = _
  cases s.pop? count <;> rfl

theorem pop_eq_ok {count : Nat} {s : Stack} (fits : count ≤ s.length) :
    pop count s = .ok () (s.drop count) := by
  rw [pop_apply, Stack.pop?, if_pos fits]

theorem rebind_apply (base : Nat) (names : List String) (values : List Int64) (s : Stack) :
    rebind base names values s =
      match s.rebind? base names values with
      | some t => .ok () t
      | none => .error .brokenStack s := by
  show (match s.rebind? base names values with
    | some t => set t
    | none => throw .brokenStack : Run Unit) s = _
  cases s.rebind? base names values <;> rfl

theorem rebind_eq_ok {above s : Stack} {names : List String} {values : List Int64}
    (mine : above.map Slot.name = names.reverse) (same : values.length = names.length) :
    rebind s.length names values (above ++ s) = .ok () (Stack.frame names values ++ s) := by
  rw [rebind_apply, Stack.rebind?_append mine same]

theorem ensures_pop {count : Nat} (fits : count ≤ s.length) :
    Ensures (pop count) s (fun _ t => t = s.drop count) fails := by
  rw [Ensures, pop_eq_ok fits]

/-- Behind a step, a scope is left on either way out of it. -/
theorem Ensures.thenPop {post post' : α → Stack → Prop} {fails' : RuntimeError → Stack → Prop}
    {x : Run α} {count : Nat} (hx : Ensures x s post fails)
    (hok : ∀ a t, post a t → count ≤ t.length ∧ post' a (t.drop count))
    (herror : ∀ e t, fails e t → count ≤ t.length ∧ fails' e (t.drop count)) :
    Ensures (thenPop x count) s post' fails' := by
  -- whichever way out is taken, what is done there starts on the stack below the scope
  have leave : ∀ {y : Run α} {t : Stack}, count ≤ t.length → Ensures y (t.drop count) post' fails' →
      Ensures (do pop count; y) t post' fails' := fun fits hy =>
    (ensures_pop fits).bind fun _ u hu => hu ▸ hy
  unfold Ensures Run.thenPop at *
  cases result : x s with
  | ok a t =>
    rw [result] at hx
    obtain ⟨fits, h⟩ := hok a t hx
    exact leave fits h
  | error halt t =>
    rw [result] at hx
    cases halt with
    | error e =>
      obtain ⟨fits, h⟩ := herror e t hx
      exact leave fits h
    | brokenStack => exact hx
    | outOfFuel => trivial

theorem ensures_rebind {above : Stack} {names : List String} {values : List Int64}
    (mine : above.map Slot.name = names.reverse) (same : values.length = names.length) :
    Ensures (rebind s.length names values) (above ++ s)
      (fun _ t => t = Stack.frame names values ++ s) fails := by
  rw [Ensures, rebind_eq_ok mine same]

end Stack

/-! ## Parts of expressions -/

section Parts

variable {ev : Expr → Run Ending} {s : Stack} {mid : Ending → Stack → Prop}
  {fails : RuntimeError → Stack → Prop}

theorem Ensures.value {post : Int64 → Stack → Prop} {site : RecurSite} {e : Expr}
    (h : Ensures (ev e) s mid fails) (hvalue : ∀ v t, mid (.value v) t → post v t)
    (hpending : ∀ vs pos t, mid (.pending vs pos) t → fails (.recurIn site pos) t) :
    Ensures (value ev site e) s post fails :=
  h.bind fun ending t hmid =>
    match ending with
    | .value v => ensures_pure (hvalue v t hmid)
    | .pending vs pos => ensures_fail (hpending vs pos t hmid)

/-- Arguments are all evaluated on one stack, and there is a value for each. -/
theorem ensures_args {es : List Expr}
    (h : ∀ e ∈ es, Ensures (Run.value ev .argument e) s (fun _ t => t = s) fails) :
    Ensures (args ev es) s (fun vs t => t = s ∧ vs.length = es.length) fails := by
  induction es with
  | nil => exact ensures_pure ⟨rfl, rfl⟩
  | cons e es ih =>
    refine (h e List.mem_cons_self).bind fun v t ht => ?_
    subst ht
    refine (ih fun e' mem => h e' (List.mem_cons_of_mem e mem)).bind fun vs t hvs => ?_
    exact ensures_pure ⟨hvs.1, by rw [List.length_cons, List.length_cons, hvs.2]⟩

/-- The invariant `I` is kept while bindings move from the list to the stack. -/
theorem ensures_bindings {I : List Binding → Stack → Prop} {bs : List Binding} (start : I bs s)
    (next : ∀ b bs t, I (b :: bs) t →
      Ensures (Run.value ev .binding b.value) t (fun v u => I bs (u.push b.name v)) fails) :
    Ensures (bindings ev bs) s (fun _ t => I [] t) fails := by
  induction bs generalizing s with
  | nil => exact ensures_pure start
  | cons b bs ih =>
    refine (next b bs s start).bind fun v t h => ?_
    -- the binding that has left the list is now the innermost one on the stack
    exact ensures_push.bind fun _ u hu => ih (hu ▸ h)

/-- The invariant `I` holds of the stack whenever a round begins. -/
theorem ensures_rounds {I : Stack → Prop} {post : Int64 → Stack → Prop} {base : Nat}
    {names : List String} {body : Expr} {n : Nat} (start : I s)
    (round : ∀ t, I t → Ensures (ev body) t mid fails)
    (hvalue : ∀ v t, mid (.value v) t → post v t)
    (again : ∀ vs pos t, mid (.pending vs pos) t → vs.length = names.length →
      Ensures (rebind base names vs) t (fun _ => I) fails)
    (arity : ∀ vs pos t, mid (.pending vs pos) t → vs.length ≠ names.length →
      fails (.recurArity names.length vs.length pos) t) :
    Ensures (rounds ev base names body n) s post fails := by
  induction n generalizing s with
  | zero => exact ensures_outOfFuel
  | succ n ih =>
    refine (round s start).bind fun ending t h => ?_
    cases ending with
    | value v => exact ensures_pure (hvalue v t h)
    | pending vs pos =>
      dsimp only
      split
      · next same => exact (again vs pos t h same).bind fun _ u hu => ih hu
      · next differ => exact ensures_fail (arity vs pos t h differ)

theorem Ensures.enter {post : Int64 → Prop} {fails : RuntimeError → Prop} {f : Function}
    {values : List Int64}
    (h : Ensures (ev f.body) (.ofArgs f.params values) mid (fun e _ => fails e))
    (hvalue : ∀ v t, mid (.value v) t → post v)
    (hpending : ∀ vs pos t, mid (.pending vs pos) t → fails (.escapedRecur f.name pos)) :
    Returns (enter ev f values) post fails := by
  unfold Ensures at h
  unfold Run.enter
  cases result : ev f.body (.ofArgs f.params values) with
  | ok ending t =>
    rw [result] at h
    cases ending with
    | value v => exact hvalue v t h
    | pending vs pos => exact hpending vs pos t h
  | error halt t =>
    rw [result] at h
    cases halt with
    | error e => exact h
    | brokenStack => exact h
    | outOfFuel => trivial

theorem returns_call {p : Program} {post : Int64 → Prop} {fails : RuntimeError → Prop}
    {name : String} {pos : Position} {values : List Int64}
    (undefined : p.lookup? name = none → fails (.undefinedFunction name pos))
    (arity : ∀ f, p.lookup? name = some f → values.length ≠ f.params.length →
      fails (.callArity name f.params.length values.length pos))
    (body : ∀ f, p.lookup? name = some f → values.length = f.params.length →
      Returns (Run.enter ev f values) post fails) :
    Returns (p.call ev name pos values) post fails := by
  unfold Program.call
  cases found : p.lookup? name with
  | none => exact undefined found
  | some f =>
    dsimp only
    split
    · next same => exact body f found same
    · next differ => exact arity f found differ

end Parts

end LoopLang.Run
