import LoopLang.Proofs.BigStep.Basic

set_option autoImplicit false

/-! # The scope that a stack stands for

Looking a name up on a stack gives a scope, and each change of the stack makes a change of the
scope: pushing binds a name, and giving a frame new values binds all its names at once. -/

namespace LoopLang

/-- What the names on a stack stand for. -/
def Stack.scope (s : Stack) : Scope := s.get?

namespace Stack

@[simp] theorem scope_cons (slot : Slot) (s : Stack) :
    scope (slot :: s) = s.scope.bind slot.name slot.value := by
  funext x
  by_cases same : x = slot.name
  · simp [scope, get?, Scope.bind, same]
  · have other : slot.name ≠ x := fun h => same h.symm
    simp [scope, get?, Scope.bind, same, other]

@[simp] theorem scope_push (s : Stack) (name : String) (v : Int64) :
    (s.push name v).scope = s.scope.bind name v :=
  scope_cons _ _

theorem scope_frame_append (names : List String) (values : List Int64) (s : Stack) :
    (frame names values ++ s).scope = s.scope.bindAll names values := by
  induction names generalizing values s with
  | nil => rfl
  | cons name names ih =>
    cases values with
    | nil => rfl
    | cons v vs =>
      have split : frame (name :: names) (v :: vs) ++ s = frame names vs ++ (⟨name, v⟩ :: s) := by
        simp [frame]
      rw [split, ih, scope_cons]
      rfl

theorem scope_ofArgs (params : List Ident) (args : List Int64) :
    (ofArgs params args).scope = Scope.empty.bindAll (params.map Ident.name) args := by
  have whole := scope_frame_append (params.map Ident.name) args []
  rwa [List.append_nil] at whole

/-- Below its own names, a frame leaves the scope as it was. -/
theorem scope_append_of_not_mem {above s : Stack} {x : String} (h : x ∉ above.map Slot.name) :
    (above ++ s).scope x = s.scope x := by
  induction above with
  | nil => rfl
  | cons slot above ih =>
    rw [List.map_cons, List.mem_cons, not_or] at h
    rw [List.cons_append, scope_cons, Scope.bind, if_neg h.1, ih h.2]

end Stack

/-- Binding all of the names covers whatever they stood for. -/
theorem Scope.bindAll_congr {σ τ : Scope} {names : List String} {values : List Int64}
    (same : values.length = names.length) (agree : ∀ x, x ∉ names → σ x = τ x) :
    σ.bindAll names values = τ.bindAll names values := by
  induction names generalizing σ τ values with
  | nil =>
    cases values with
    | nil => exact funext fun x => agree x (by simp)
    | cons v vs => cases same
  | cons name names ih =>
    cases values with
    | nil => cases same
    | cons v vs =>
      refine ih (Nat.succ.inj same) fun x out => ?_
      by_cases here : x = name
      · simp [bind, here]
      · simp [bind, here, agree x (by simp [here, out])]

/-- The slots of a loop get new values where its names are bound anew. -/
theorem Stack.scope_reframe {above s : Stack} {names : List String} {values : List Int64}
    (mine : above.map Slot.name = names.reverse) (same : values.length = names.length) :
    (frame names values ++ s).scope = (above ++ s).scope.bindAll names values := by
  rw [scope_frame_append]
  refine Scope.bindAll_congr same fun x out => (scope_append_of_not_mem ?_).symm
  rw [mine, List.mem_reverse]
  exact out

end LoopLang
