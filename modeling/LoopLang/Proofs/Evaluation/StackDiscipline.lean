import LoopLang.Proofs.Evaluation.Ensures

set_option autoImplicit false

/-! # Stack discipline

Evaluation leaves the stack as it found it: `Run.Keeps` says that a run which ends with a result
ends on the stack it started on, and that a run which fails has only put bindings on top of that
stack. Both are needed, because a `let` pops its bindings also when its body has failed. While a
loop runs, what lies above its base is always a frame of its own names, so every round rebinds just
these. -/

namespace LoopLang

variable {α β : Type}

/-! ## Keeping the stack -/

namespace Run

/-- A result leaves the stack as it was, and an error at most puts bindings on top of it. -/
def Keeps (x : Run α) : Prop :=
  ∀ s, Ensures x s (fun _ t => t = s) fun _ t => s <:+ t

/-- The stack is `s` with a frame of exactly these names on top. -/
def Framed (names : List String) (s t : Stack) : Prop :=
  ∃ above : Stack, t = above ++ s ∧ above.map Slot.name = names.reverse

theorem Framed.length_le {names : List String} {s t : Stack} (h : Framed names s t) :
    names.length ≤ t.length := by
  obtain ⟨above, rfl, mine⟩ := h
  have count : above.length = names.length := by simpa using congrArg List.length mine
  rw [List.length_append, count]
  exact Nat.le_add_right _ _

theorem Framed.drop {names : List String} {s t : Stack} (h : Framed names s t) :
    t.drop names.length = s := by
  obtain ⟨above, rfl, mine⟩ := h
  have count : names.length = above.length := by simpa using (congrArg List.length mine).symm
  rw [count, List.drop_left]

theorem Framed.suffix {names : List String} {s t : Stack} (h : Framed names s t) : s <:+ t := by
  obtain ⟨above, rfl, -⟩ := h
  exact List.suffix_append above s

/-- Popping a frame from a stack that grew on top of it leaves what lies below the frame. -/
theorem Framed.suffix_drop {names : List String} {s t u : Stack} (h : Framed names s t)
    (grown : t <:+ u) : names.length ≤ u.length ∧ s <:+ u.drop names.length := by
  have room : names.length + s.length = t.length := by
    have below := congrArg List.length h.drop
    have fits := h.length_le
    rw [List.length_drop] at below
    omega
  have taller := grown.length_le
  refine ⟨by omega, ?_⟩
  refine List.suffix_of_suffix_length_le (h.suffix.trans grown) (List.drop_suffix _ _) ?_
  rw [List.length_drop]
  omega

/-- Popping the bindings of a frame brings the stack below them back. -/
theorem Framed.ensures_pop {bs : List Binding} {s t : Stack}
    {fails : RuntimeError → Stack → Prop} (h : Framed (bs.map Binding.name) s t) :
    Ensures (pop bs.length) t (fun _ u => u = s) fails := by
  rw [← List.length_map Binding.name]
  exact (Run.ensures_pop h.length_le).mono_post fun _ u hu => hu.trans h.drop

theorem Keeps.bind {x : Run α} {f : α → Run β} (hx : Keeps x) (hf : ∀ a, Keeps (f a)) :
    Keeps (x >>= f) := fun s =>
  (hx s).bind fun a t ht => by
    subst ht
    exact hf a t

theorem keeps_pure (a : α) : Keeps (pure a : Run α) := fun _ => rfl

theorem Returns.keeps {post : α → Prop} {fails : RuntimeError → Prop}
    {x : Except (Halt RuntimeError) α} (h : Returns x post fails) : Keeps (ofExcept x) := fun s =>
  h.ensures.mono (fun _ _ ht => ht.1) fun _ _ ht => ht.1 ▸ List.suffix_refl s

theorem keeps_fetch (name : String) (pos : Position) : Keeps (fetch name pos) := fun s =>
  ensures_fetch (fun _ _ => rfl) fun _ => List.suffix_refl s

section Parts

variable {ev : Expr → Run Ending}

theorem keeps_value (h : ∀ e, Keeps (ev e)) (site : RecurSite) (e : Expr) :
    Keeps (value ev site e) := fun s =>
  (h e s).value (fun _ _ ht => ht) fun _ _ _ ht => ht ▸ List.suffix_refl s

theorem keeps_args (h : ∀ e, Keeps (ev e)) (es : List Expr) : Keeps (args ev es) := fun s =>
  (ensures_args fun e _ => keeps_value h .argument e s).mono_post fun _ _ ht => ht.1

/-- Bindings put a frame of their names on top of the stack. -/
theorem ensures_bindings_framed (h : ∀ e, Keeps (ev e)) (bs : List Binding) (s : Stack) :
    Ensures (bindings ev bs) s (fun _ t => Framed (bs.map Binding.name) s t)
      fun _ t => s <:+ t := by
  -- the names still to come, in front of those already on top, are always the whole list
  let I : List Binding → Stack → Prop := fun rest t => ∃ above : Stack, t = above ++ s ∧
    (rest.map Binding.name).reverse ++ above.map Slot.name = (bs.map Binding.name).reverse
  have start : I bs s := ⟨[], rfl, by simp⟩
  refine (ensures_bindings (I := I) start fun b rest t h' => ?_).mono_post fun _ t h' => ?_
  · obtain ⟨above, rfl, names⟩ := h'
    refine (keeps_value h .binding b.value _).mono (fun v u hu => ?_) fun _ u hu => ?_
    · refine ⟨⟨b.name, v⟩ :: above, by rw [hu]; rfl, ?_⟩
      rw [← names, List.map_cons, List.map_cons, List.reverse_cons, List.append_assoc,
        List.singleton_append]
    · exact (List.suffix_append above s).trans hu
  · obtain ⟨above, rfl, names⟩ := h'
    exact ⟨above, rfl, by simpa using names⟩

/-- A loop keeps a frame of its names on top of the stack until it ends. -/
theorem ensures_rounds_framed {body : Expr} (h : Keeps (ev body)) {names : List String}
    {s t : Stack} (n : Nat) (framed : Framed names s t) :
    Ensures (rounds ev s.length names body n) t (fun _ u => Framed names s u)
      fun _ u => s <:+ u := by
  have round : ∀ u, Framed names s u →
      Ensures (ev body) u (fun _ v => Framed names s v) fun _ v => s <:+ v := fun u hu =>
    (h u).mono (fun _ _ hv => hv ▸ hu) fun _ _ hv => hu.suffix.trans hv
  refine ensures_rounds framed round (fun _ _ hu => hu) (fun vs _ u hu same => ?_)
    fun _ _ _ hu _ => hu.suffix
  obtain ⟨above, rfl, mine⟩ := hu
  exact (ensures_rebind mine same).mono_post fun _ _ hv => ⟨_, hv, Stack.map_name_frame same⟩

end Parts

end Run

open Run

/-- A call works on a stack of its own, and breaks none. -/
theorem Program.returns_call_of_keeps (p : Program) {ev : Expr → Run Ending}
    (h : ∀ e, Keeps (ev e)) (name : String) (pos : Position) (values : List Int64) :
    Returns (p.call ev name pos values) (fun _ => True) fun _ => True :=
  returns_call (fun _ => trivial) (fun _ _ _ => trivial) fun f _ _ =>
    ((h f.body _).mono_fails fun _ _ _ => trivial).enter (fun _ _ _ => trivial)
      fun _ _ _ _ => trivial

/-- Every evaluation keeps the stack. -/
theorem Program.keeps_eval (p : Program) (fuel : Nat) (e : Expr) : Keeps (p.eval fuel e) := by
  induction fuel generalizing e with
  | zero => exact fun _ => ensures_outOfFuel
  | succ n ih =>
    cases e with
    | integer _ v => exact keeps_pure _
    | var token name => exact (keeps_fetch _ _).bind fun _ => keeps_pure _
    | call token name args =>
      exact (keeps_args ih args).bind fun vs =>
        (p.returns_call_of_keeps ih name token.pos vs).keeps.bind fun _ => keeps_pure _
    | cond _ test thenBranch elseBranch =>
      refine (keeps_value ih .condition test).bind fun v => ?_
      split
      · exact ih elseBranch
      · exact ih thenBranch
    | unary _ op operand => exact (keeps_value ih .unary operand).bind fun _ => keeps_pure _
    | binary _ op lhs rhs =>
      exact (keeps_value ih .binary lhs).bind fun _ =>
        (keeps_value ih .binary rhs).bind fun _ => keeps_pure _
    | letIn _ bs body =>
      intro s
      refine (ensures_bindings_framed ih bs s).bind fun _ t framed => ?_
      rw [← List.length_map Binding.name]
      refine (ih body t).thenPop (fun _ u hu => ?_) fun _ u hu => ?_
      · rw [hu]
        exact ⟨framed.length_le, framed.drop⟩
      · -- a failing body may leave bindings behind, and these lie above the frame
        exact framed.suffix_drop hu
    | loop _ bs body =>
      intro s
      refine ensures_get_bind ?_
      refine (ensures_bindings_framed ih bs s).bind fun _ t framed => ?_
      refine (ensures_rounds_framed (ih body) n framed).bind fun v u framed => ?_
      exact framed.ensures_pop.bind fun _ w hw => ensures_pure hw
    | recur token args => exact (keeps_args ih args).bind fun _ => keeps_pure _

/-- On top of a frame, evaluation always leaves enough to pop the frame. -/
theorem Run.Framed.room {p : Program} {bs : List Binding} {s t : Stack}
    (framed : Framed (bs.map Binding.name) s t) {n : Nat} {e : Expr} :
    Ensures (p.eval n e) t (fun _ u => bs.length ≤ u.length) fun _ u => bs.length ≤ u.length := by
  rw [← List.length_map Binding.name]
  exact (p.keeps_eval n e t).mono (fun _ u hu => hu ▸ framed.length_le)
    fun _ u hu => (framed.suffix_drop hu).1

/-! ## What a broken stack would be -/

/-- Above the height `base`, the stack `t` is a frame of exactly these names, and `u` is `t` with
one new value for each of them and nothing else changed. -/
def Stack.Reframed (base : Nat) (names : List String) (values : List Int64) (t u : Stack) : Prop :=
  ∃ above below : Stack, t = above ++ below ∧ below.length = base
    ∧ above.map Slot.name = names.reverse ∧ values.length = names.length
    ∧ u = Stack.frame names values ++ below

/-- A stack can be rebound exactly if it is framed so, and rebinding does just that. -/
theorem Stack.rebind?_eq_some_iff {base : Nat} {names : List String} {values : List Int64}
    {t u : Stack} :
    t.rebind? base names values = some u ↔ Stack.Reframed base names values t u := by
  constructor
  · intro h
    rw [Stack.rebind?] at h
    split at h
    · next fits =>
      obtain ⟨low, mine, same⟩ := fits
      have parts : t = t.take (t.length - base) ++ t.drop (t.length - base) :=
        (List.take_append_drop _ _).symm
      have height : (t.drop (t.length - base)).length = base := by
        rw [List.length_drop]
        omega
      refine ⟨_, _, parts, height, mine, same, ?_⟩
      have overwritten := Stack.overwrite_append (s := t.drop (t.length - base)) mine same
      rw [height, ← parts] at overwritten
      rw [← Option.some.inj h, overwritten]
    · exact absurd h (by simp)
  · rintro ⟨above, below, rfl, rfl, mine, same, rfl⟩
    exact Stack.rebind?_append mine same

/-- **Stack discipline.** Whatever part of an evaluation is looked at (there is no bound on the
fuel), a result leaves the stack exactly as it was, an error leaves it under whatever was not
popped, and the stack is never broken: popping breaks a stack exactly if it holds fewer bindings
than are to be popped, and rebinding exactly if what lies above the base is not a frame of the names
of the loop with one new value for each. -/
theorem Program.eval_keeps_stack (p : Program) (fuel : Nat) (e : Expr) (s : Stack) :
    Ensures (p.eval fuel e) s (fun _ t => t = s) (fun _ t => s <:+ t)
      ∧ (∀ count t, pop count t = .error .brokenStack t ↔ t.length < count)
      ∧ (∀ base names values t u,
          rebind base names values t = .ok () u ↔ Stack.Reframed base names values t u)
      ∧ ∀ base names values t, rebind base names values t = .error .brokenStack t ↔
          ¬∃ u, Stack.Reframed base names values t u := by
  refine ⟨p.keeps_eval fuel e s, fun count t => ?_, fun base names values t u => ?_,
    fun base names values t => ?_⟩
  · rw [pop_apply, ← Stack.pop?_eq_none_iff]
    cases t.pop? count <;> simp
  · rw [rebind_apply, ← Stack.rebind?_eq_some_iff]
    cases t.rebind? base names values <;> simp
  · simp only [rebind_apply, ← Stack.rebind?_eq_some_iff]
    cases t.rebind? base names values <;> simp

end LoopLang
