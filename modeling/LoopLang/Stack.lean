import LoopLang.Expr

set_option autoImplicit false

/-! # The stack of live bindings

One flat stack holds the parameters of the running function and the names of the `let`s and loops
around the current expression, the innermost first. Entering a scope pushes its names and leaving
it pops as many. A loop that starts again overwrites its own slots in place: those above the height
that the stack had before the loop. `pop?` and `rebind?` give nothing where the stack does not hold
what they are to remove or replace. -/

namespace LoopLang

/-- A live binding. -/
structure Slot where
  name : String
  value : Int64
deriving DecidableEq, Repr

/-- The live bindings, the innermost first. -/
abbrev Stack := List Slot

namespace Stack

/-- The slots for these names and values, the last innermost. -/
def frame (names : List String) (values : List Int64) : Stack :=
  (names.zipWith Slot.mk values).reverse

/-- The stack of a function that has just been entered: its parameters, the last innermost. -/
def ofArgs (params : List Ident) (args : List Int64) : Stack :=
  frame (params.map Ident.name) args

/-- Enters a binding into the innermost scope. -/
def push (s : Stack) (name : String) (value : Int64) : Stack :=
  ⟨name, value⟩ :: s

/-- Removes the innermost `count` bindings, if there are as many. -/
def pop? (s : Stack) (count : Nat) : Option Stack :=
  if count ≤ s.length then some (s.drop count) else none

/-- The value of the innermost binding of a name. -/
def get? (s : Stack) (name : String) : Option Int64 :=
  (s.find? fun slot => slot.name == name).map Slot.value

/-- Gives new values to slots in order, as far as there are slots and values. -/
def refill : List Slot → List Int64 → List Slot
  | slot :: slots, v :: vs => { slot with value := v } :: refill slots vs
  | slots, _ => slots

/-- Gives new values to the bindings above the height `base`, the outermost first. -/
def overwrite (s : Stack) (base : Nat) (values : List Int64) : Stack :=
  let above := s.length - base
  (refill (s.take above).reverse values).reverse ++ s.drop above

/-- Overwrites the bindings above the height `base`, if these are bindings of exactly the given
names and there is one value for each. -/
def rebind? (s : Stack) (base : Nat) (names : List String) (values : List Int64) :
    Option Stack :=
  if base ≤ s.length ∧ (s.take (s.length - base)).map Slot.name = names.reverse
      ∧ values.length = names.length then
    some (s.overwrite base values)
  else
    none

/-! ### Laws -/

@[simp] theorem map_name_push (s : Stack) (name : String) (value : Int64) :
    (s.push name value).map Slot.name = name :: s.map Slot.name := rfl

/-- A frame with a value for each name holds just these names. -/
theorem map_name_frame {names : List String} {values : List Int64}
    (same : values.length = names.length) :
    (frame names values).map Slot.name = names.reverse := by
  rw [frame, List.map_reverse, List.map_zipWith]
  congr 1
  induction names generalizing values with
  | nil => simp
  | cons name names ih =>
    cases values with
    | nil => simp at same
    | cons v vs => rw [List.zipWith_cons_cons, ih (Nat.succ.inj same)]

theorem pop?_eq_none_iff {s : Stack} {count : Nat} : s.pop? count = none ↔ s.length < count := by
  simp [pop?]

/-- Refilling all slots of some names makes them the slots for the names and the new values. -/
theorem refill_eq_zipWith {slots : List Slot} {values : List Int64}
    (same : values.length = slots.length) :
    refill slots values = (slots.map Slot.name).zipWith Slot.mk values := by
  induction slots generalizing values with
  | nil => cases values <;> simp [refill]
  | cons slot slots ih =>
    cases values with
    | nil => simp at same
    | cons v vs =>
      rw [refill, ih (Nat.succ.inj same)]
      rfl

/-- Overwriting the bindings of a loop makes them the slots for its names and the new values, and
changes nothing below them. -/
theorem overwrite_append {above s : Stack} {names : List String} {values : List Int64}
    (mine : above.map Slot.name = names.reverse) (same : values.length = names.length) :
    (above ++ s).overwrite s.length values = frame names values ++ s := by
  have height : (above ++ s).length - s.length = above.length := by simp
  have count : above.length = names.length := by simpa using congrArg List.length mine
  have slots : above.reverse.map Slot.name = names := by
    rw [List.map_reverse, mine, List.reverse_reverse]
  have refilled : refill above.reverse values = names.zipWith Slot.mk values := by
    rw [refill_eq_zipWith (by rw [List.length_reverse, count, same]), slots]
  simp only [overwrite, height, List.take_left, List.drop_left, refilled, frame]

/-- A loop can rebind its own bindings, and only these change. -/
theorem rebind?_append {above s : Stack} {names : List String} {values : List Int64}
    (mine : above.map Slot.name = names.reverse) (same : values.length = names.length) :
    (above ++ s).rebind? s.length names values = some (frame names values ++ s) := by
  have fits : s.length ≤ (above ++ s).length
      ∧ ((above ++ s).take ((above ++ s).length - s.length)).map Slot.name = names.reverse
      ∧ values.length = names.length := by
    refine ⟨by simp, ?_, same⟩
    have height : (above ++ s).length - s.length = above.length := by simp
    rw [height, List.take_left, mine]
  rw [rebind?, if_pos fits, overwrite_append mine same]

end Stack

end LoopLang
