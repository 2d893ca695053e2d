import LoopLang.Proofs.BigStep.Scope
import LoopLang.Proofs.Evaluation.StackDiscipline

set_option autoImplicit false

/-! # What evaluation ends with is derived by the rules

`BigStep.Sound` says of an evaluation that whatever it ends with on a stack has a derivation in the
scope of that stack. Every part of an expression hands this on, and so every evaluation is sound, by
induction on its fuel. -/

namespace LoopLang.BigStep

open Run

/-- What `ev` ends with on a stack is derived in the scope of the stack. -/
def Sound (p : Program) (ev : Expr → Run Ending) : Prop :=
  ∀ e s, Ensures (ev e) s (fun ending t => t = s ∧ Eval p s.scope e (.ok ending))
    fun x _ => Eval p s.scope e (.error x)

section Parts

variable {p : Program} {ev : Expr → Run Ending}

theorem Sound.value (h : Sound p ev) (site : RecurSite) (e : Expr) (s : Stack) :
    Ensures (Run.value ev site e) s (fun v t => t = s ∧ Value p s.scope site e (.ok v))
      fun x _ => Value p s.scope site e (.error x) :=
  ((h e s).mono_fails fun _ _ hx => Value.fails hx).value
    (fun _ _ ht => ⟨ht.1, .value ht.2⟩) fun _ _ _ ht => .pending ht.2

theorem Sound.args (h : Sound p ev) (es : List Expr) (s : Stack) :
    Ensures (Run.args ev es) s (fun vs t => t = s ∧ Args p s.scope es (.ok vs))
      fun x _ => Args p s.scope es (.error x) := by
  induction es with
  | nil => exact ensures_pure ⟨rfl, .nil⟩
  | cons e es ih =>
    refine ((h.value .argument e s).mono_fails fun _ _ hx => .firstFails hx).bind
      fun v t ht => ?_
    obtain ⟨rfl, first⟩ := ht
    refine (ih.mono_fails fun _ _ hx => .othersFail first hx).bind fun vs t ht => ?_
    exact ensures_pure ⟨ht.1, .cons first ht.2⟩

theorem Sound.bindings (h : Sound p ev) (bs : List Binding) (s : Stack) :
    Ensures (Run.bindings ev bs) s (fun _ t => Bindings p s.scope bs (.ok t.scope))
      fun x _ => Bindings p s.scope bs (.error x) := by
  -- however the bindings still to come end in the scope reached, all of them end in the first one
  let I : List Binding → Stack → Prop := fun rest t =>
    ∀ r, Bindings p t.scope rest r → Bindings p s.scope bs r
  refine (ensures_bindings (I := I) (fun _ hr => hr) fun b rest t ht => ?_).mono_post
    fun _ t ht => ht _ .nil
  refine (h.value .binding b.value t).mono (fun v u hu => ?_) fun x _ hx => ht _ (.fails hx)
  obtain ⟨rfl, first⟩ := hu
  intro r hr
  rw [Stack.scope_push] at hr
  exact ht r (.cons first hr)

theorem Sound.rounds (h : Sound p ev) {body : Expr} {names : List String} {s t : Stack} {n : Nat}
    (framed : Framed names s t) :
    Ensures (Run.rounds ev s.length names body n) t
      (fun v u => Framed names s u ∧ Rounds p t.scope names body (.ok v))
      fun x _ => Rounds p t.scope names body (.error x) := by
  -- however the rounds from here end, so do all of them
  let I : Stack → Prop := fun u =>
    Framed names s u ∧ ∀ r, Rounds p u.scope names body r → Rounds p t.scope names body r
  have round : ∀ u, I u → Ensures (ev body) u
      (fun ending v => Framed names s v ∧ Eval p v.scope body (.ok ending)
        ∧ ∀ r, Rounds p v.scope names body r → Rounds p t.scope names body r)
      fun x _ => Rounds p t.scope names body (.error x) := by
    intro u reached
    obtain ⟨hu, continues⟩ := reached
    refine (h body u).mono (fun ending v hv => ?_) fun x _ hx => continues _ (.fails hx)
    obtain ⟨rfl, ends⟩ := hv
    exact ⟨hu, ends, continues⟩
  refine ensures_rounds (I := I) ⟨framed, fun _ hr => hr⟩ round (fun v u hu => ?_)
    (fun vs pos u hu same => ?_) fun vs pos u hu differs => ?_
  · exact ⟨hu.1, hu.2.2 _ (.done hu.2.1)⟩
  · obtain ⟨⟨above, rfl, mine⟩, pending, continues⟩ := hu
    refine (ensures_rebind mine same).mono_post fun _ v hv => ?_
    subst hv
    refine ⟨⟨_, rfl, Stack.map_name_frame same⟩, fun r hr => ?_⟩
    rw [Stack.scope_reframe mine same] at hr
    exact continues r (.again pending same hr)
  · exact hu.2.2 _ (.arity hu.2.1 differs)

theorem Sound.call (h : Sound p ev) (name : String) (pos : Position) (values : List Int64) :
    Returns (p.call ev name pos values) (fun v => Call p name pos values (.ok v))
      fun x => Call p name pos values (.error x) := by
  refine returns_call (fun missing => .undefined missing) (fun f found differs => ?_)
    fun f found fits => ?_
  · exact .arity found differs
  · have body := h f.body (.ofArgs f.params values)
    rw [Stack.scope_ofArgs] at body
    refine (body.mono_fails fun x _ hx => ?_).enter (fun v _ ht => ?_)
      fun vs at' _ ht => ?_
    · exact .fails found fits hx
    · exact .returns found fits ht.2
    · exact .escapes found fits ht.2

end Parts

/-- Every evaluation is sound. -/
theorem sound_eval (p : Program) (fuel : Nat) : Sound p (p.eval fuel) := by
  induction fuel with
  | zero => exact fun _ _ => ensures_outOfFuel
  | succ n ih =>
    intro e s
    cases e with
    | integer _ v => exact ensures_pure ⟨rfl, .integer⟩
    | var token name =>
      have fetched : Ensures (fetch name token.pos) s (fun v t => t = s ∧ s.get? name = some v)
          fun x _ => Eval p s.scope (.var token name) (.error x) :=
        ensures_fetch (fun v found => ⟨rfl, found⟩) fun missing => .unbound missing
      exact fetched.bind fun v t ht => ensures_pure ⟨ht.1, .var ht.2⟩
    | call token name args =>
      refine ((ih.args args s).mono_fails fun _ _ hx => .callArgFails hx).bind
        fun vs t ht => ?_
      obtain ⟨rfl, hargs⟩ := ht
      refine ((ih.call name token.pos vs).ensures.mono_fails
        fun _ _ hx => .callFails hargs hx.2).bind fun v t ht => ?_
      exact ensures_pure ⟨ht.1, .call hargs ht.2⟩
    | cond _ test thenBranch elseBranch =>
      refine ((ih.value .condition test s).mono_fails fun _ _ hx => .ifFails hx).bind
        fun v t ht => ?_
      obtain ⟨rfl, htest⟩ := ht
      split
      · next zero =>
        subst zero
        exact (ih elseBranch _).mono (fun _ _ hu => ⟨hu.1, .ifFalse htest hu.2⟩)
          fun _ _ hx => .ifFalse htest hx
      · next nonzero =>
        exact (ih thenBranch _).mono (fun _ _ hu => ⟨hu.1, .ifTrue htest nonzero hu.2⟩)
          fun _ _ hx => .ifTrue htest nonzero hx
    | unary _ op operand =>
      refine ((ih.value .unary operand s).mono_fails fun _ _ hx => .unaryFails hx).bind
        fun v t ht => ?_
      exact ensures_pure ⟨ht.1, .unary ht.2⟩
    | binary _ op lhs rhs =>
      refine ((ih.value .binary lhs s).mono_fails fun _ _ hx => .leftFails hx).bind
        fun l t ht => ?_
      obtain ⟨rfl, hl⟩ := ht
      refine ((ih.value .binary rhs _).mono_fails fun _ _ hx => .rightFails hl hx).bind
        fun r t ht => ?_
      exact ensures_pure ⟨ht.1, .binary hl ht.2⟩
    | letIn _ bs body =>
      refine (((ih.bindings bs s).and (ensures_bindings_framed (p.keeps_eval n) bs s)).mono_fails
        fun _ _ hx => .letFails hx.1).bind fun _ t ht => ?_
      obtain ⟨hbs, framed⟩ := ht
      rw [← List.length_map Binding.name]
      refine ((ih body t).and (p.keeps_eval n body t)).thenPop (fun ending u hu => ?_)
        fun x u hu => ?_
      · rw [hu.2]
        exact ⟨framed.length_le, framed.drop, .letIn hbs hu.1.2⟩
      · exact ⟨(framed.suffix_drop hu.2).1, .letIn hbs hu.1⟩
    | loop _ bs body =>
      refine ensures_get_bind ?_
      refine (((ih.bindings bs s).and (ensures_bindings_framed (p.keeps_eval n) bs s)).mono_fails
        fun _ _ hx => .loopBindingFails hx.1).bind fun _ t ht => ?_
      obtain ⟨hbs, framed⟩ := ht
      refine ((ih.rounds framed).mono_fails fun _ _ hx => .loopFails hbs hx).bind
        fun v u hu => ?_
      exact hu.1.ensures_pop.bind fun _ w hw => ensures_pure ⟨hw, .loop hbs hu.2⟩
    | recur token args =>
      refine ((ih.args args s).mono_fails fun _ _ hx => .recurFails hx).bind
        fun vs t ht => ?_
      exact ensures_pure ⟨ht.1, .recur ht.2⟩

end LoopLang.BigStep
