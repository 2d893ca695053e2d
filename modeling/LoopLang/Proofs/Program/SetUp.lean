import LoopLang.Proofs.Program.Lookup
import LoopLang.Proofs.Scoping.Basic

set_option autoImplicit false

/-! # The set-up of a program

Before anything of a program is evaluated, it is checked that no two of its functions share a name,
then that one of them is called `main`, and then that `main` takes as many arguments as are given.
Each check has an error of its own, and the first one that fails tells its error, whatever the
bodies of the functions are. Where all three pass, the run is that of the body of `main`. No step of
an evaluation raises one of these errors, so they do not come up later: a call of `main` from
within the program is a call like any other. -/

namespace LoopLang

variable {α β : Type}

/-- The error is about the set-up of a program. -/
def RuntimeError.OfSetUp : RuntimeError → Prop
  | duplicateFunction _ _ | noMain | mainArity _ _ => True
  | _ => False

/-! ## Evaluation does not raise these errors -/

namespace Outcome

/-- The outcome is no error of the set-up. -/
def PastSetUp (r : Outcome α) : Prop :=
  ∀ x, r = .error (.error x) → ¬x.OfSetUp

theorem pastSetUp_ok (a : α) : PastSetUp (.ok a : Outcome α) := nofun

theorem pastSetUp_outOfFuel : PastSetUp (.error .outOfFuel : Outcome α) := nofun

theorem pastSetUp_error {x : RuntimeError} (other : ¬x.OfSetUp) :
    PastSetUp (.error (.error x) : Outcome α) := by
  rintro _ ⟨⟩
  exact other

theorem PastSetUp.bind {r : Outcome α} {f : α → Outcome β} (h : PastSetUp r)
    (hf : ∀ a, PastSetUp (f a)) : PastSetUp (r >>= f) := by
  cases r with
  | ok a => exact hf a
  | error halt =>
    rintro x ⟨⟩
    exact h x rfl

theorem pastSetUp_handBack (name : String) (ending : Ending) :
    PastSetUp (ending.handBack name) := by
  cases ending with
  | value v => exact pastSetUp_ok v
  | pending vs pos => exact pastSetUp_error id

end Outcome

open Outcome

namespace Scoped

section Parts

variable {ev : Expr → Scope → Outcome Ending} (h : ∀ e σ, PastSetUp (ev e σ))
include h

theorem pastSetUp_value (site : RecurSite) (e : Expr) (σ : Scope) :
    PastSetUp (value ev site e σ) := by
  refine (h e σ).bind fun ending => ?_
  cases ending with
  | value v => exact pastSetUp_ok v
  | pending vs pos => exact pastSetUp_error id

theorem pastSetUp_args (es : List Expr) (σ : Scope) : PastSetUp (args ev es σ) := by
  induction es with
  | nil => exact pastSetUp_ok []
  | cons e es ih => exact (pastSetUp_value h _ e σ).bind fun v => ih.bind fun vs => pastSetUp_ok _

theorem pastSetUp_bindings (bs : List Binding) (σ : Scope) : PastSetUp (bindings ev bs σ) := by
  induction bs generalizing σ with
  | nil => exact pastSetUp_ok σ
  | cons b bs ih => exact (pastSetUp_value h _ b.value σ).bind fun v => ih _

theorem pastSetUp_rounds (names : List String) (body : Expr) (n : Nat) (σ : Scope) :
    PastSetUp (rounds ev names body n σ) := by
  induction n generalizing σ with
  | zero => exact pastSetUp_outOfFuel
  | succ n ih =>
    refine (h body σ).bind fun ending => ?_
    cases ending with
    | value v => exact pastSetUp_ok v
    | pending vs pos =>
      dsimp only
      split
      · exact ih _
      · exact pastSetUp_error id

theorem pastSetUp_enter (f : Function) (values : List Int64) : PastSetUp (enter ev f values) :=
  (h _ _).bind fun ending => pastSetUp_handBack f.name ending

theorem pastSetUp_call (p : Program) (name : String) (pos : Position) (values : List Int64) :
    PastSetUp (call ev p name pos values) := by
  unfold call
  cases p.lookup? name with
  | none => exact pastSetUp_error id
  | some f =>
    dsimp only
    split
    · exact pastSetUp_enter h f values
    · exact pastSetUp_error id

end Parts

end Scoped

namespace Program

open Scoped

/-- No evaluation ends in an error of the set-up. -/
theorem pastSetUp_evalIn (p : Program) (fuel : Nat) (e : Expr) (σ : Scope) :
    PastSetUp (p.evalIn fuel e σ) := by
  induction fuel generalizing e σ with
  | zero => exact pastSetUp_outOfFuel
  | succ n ih =>
    cases e with
    | integer _ v => exact pastSetUp_ok _
    | var _ name =>
      rw [evalIn]
      cases σ name with
      | none => exact pastSetUp_error id
      | some v => exact pastSetUp_ok _
    | call _ name args =>
      refine (pastSetUp_args ih args σ).bind fun values => ?_
      exact (pastSetUp_call ih p name _ values).bind fun v => pastSetUp_ok _
    | cond _ test thenBranch elseBranch =>
      refine (pastSetUp_value ih _ test σ).bind fun t => ?_
      split
      · exact ih elseBranch σ
      · exact ih thenBranch σ
    | unary _ op operand => exact (pastSetUp_value ih _ operand σ).bind fun v => pastSetUp_ok _
    | binary _ op lhs rhs =>
      refine (pastSetUp_value ih _ lhs σ).bind fun l => ?_
      exact (pastSetUp_value ih _ rhs σ).bind fun r => pastSetUp_ok _
    | letIn _ bs body => exact (pastSetUp_bindings ih bs σ).bind fun inner => ih body inner
    | loop _ bs body =>
      refine (pastSetUp_bindings ih bs σ).bind fun inner => ?_
      exact (pastSetUp_rounds ih _ body n inner).bind fun v => pastSetUp_ok _
    | recur _ args => exact (pastSetUp_args ih args σ).bind fun values => pastSetUp_ok _

theorem pastSetUp_eval (p : Program) (fuel : Nat) (e : Expr) (s : Stack) :
    PastSetUp (Run.outcome (p.eval fuel e) s) := by
  rw [p.outcome_eval]
  exact p.pastSetUp_evalIn fuel e s.scope

theorem pastSetUp_call (p : Program) (fuel : Nat) (name : String) (pos : Position)
    (values : List Int64) : PastSetUp (p.call (p.eval fuel) name pos values) := by
  rw [(p.mirrors_eval fuel).call]
  exact Scoped.pastSetUp_call (p.pastSetUp_evalIn fuel) p name pos values

/-! ## The checks -/

/-- The function is the first one in the program whose name an earlier one has. -/
def FirstDuplicate (p : Program) (f : Function) : Prop :=
  ∃ before after, p.functions = before ++ f :: after
    ∧ (before.map Function.name).Nodup ∧ f.name ∈ before.map Function.name

theorem duplicate?_eq_some_iff {p : Program} {f : Function} :
    p.duplicate? = some f ↔ p.FirstDuplicate f := by
  simp [duplicate?, FirstDuplicate, firstDuplicate?_eq_some_iff, firstDuplicate?_eq_none_iff]

theorem exists_firstDuplicate_iff {p : Program} :
    (∃ f, p.FirstDuplicate f) ↔ ¬(p.functions.map Function.name).Nodup := by
  simp only [← duplicate?_eq_some_iff, ← duplicate?_eq_none_iff, ← ne_eq,
    Option.ne_none_iff_exists']

/-- How the set-up comes out for these arguments: with the error of the first check that fails, or
with the function to run. -/
inductive SetUp (p : Program) (args : List Int64) : Except RuntimeError Function → Prop where
  | duplicate {f} (first : p.FirstDuplicate f) :
      SetUp p args (.error (.duplicateFunction f.name f.token.pos))
  | noMain (distinct : (p.functions.map Function.name).Nodup)
      (missing : ∀ f ∈ p.functions, f.name ≠ "main") : SetUp p args (.error .noMain)
  | mainArity {main} (distinct : (p.functions.map Function.name).Nodup)
      (mem : main ∈ p.functions) (called : main.name = "main")
      (differs : args.length ≠ main.params.length) :
      SetUp p args (.error (.mainArity main.params.length args.length))
  | ready {main} (distinct : (p.functions.map Function.name).Nodup) (mem : main ∈ p.functions)
      (called : main.name = "main") (fits : args.length = main.params.length) :
      SetUp p args (.ok main)

section SetUp

variable {p : Program} {args : List Int64}

theorem setUp_duplicate_iff {name : String} {pos : Position} :
    p.SetUp args (.error (.duplicateFunction name pos)) ↔
      ∃ f, p.FirstDuplicate f ∧ f.name = name ∧ f.token.pos = pos := by
  constructor
  · rintro ⟨first⟩
    exact ⟨_, first, rfl, rfl⟩
  · rintro ⟨f, first, rfl, rfl⟩
    exact .duplicate first

theorem setUp_noMain_iff :
    p.SetUp args (.error .noMain) ↔
      (p.functions.map Function.name).Nodup ∧ ∀ f ∈ p.functions, f.name ≠ "main" := by
  constructor
  · rintro (_ | ⟨distinct, missing⟩)
    exact ⟨distinct, missing⟩
  · rintro ⟨distinct, missing⟩
    exact .noMain distinct missing

theorem setUp_mainArity_iff {expected got : Nat} :
    p.SetUp args (.error (.mainArity expected got)) ↔
      (p.functions.map Function.name).Nodup ∧ ∃ main ∈ p.functions, main.name = "main"
        ∧ main.params.length = expected ∧ args.length = got ∧ got ≠ expected := by
  constructor
  · rintro (_ | _ | ⟨distinct, mem, called, differs⟩)
    exact ⟨distinct, _, mem, called, rfl, rfl, differs⟩
  · rintro ⟨distinct, main, mem, called, rfl, rfl, differs⟩
    exact .mainArity distinct mem called differs

/-- The set-up of every program comes out in some way. -/
theorem exists_setUp (p : Program) (args : List Int64) : ∃ r, p.SetUp args r := by
  -- the checks are gone through in their order
  by_cases distinct : (p.functions.map Function.name).Nodup
  · cases found : p.lookup? "main" with
    | none => exact ⟨_, .noMain distinct (lookup?_eq_none_iff.mp found)⟩
    | some main =>
      obtain ⟨mem, called⟩ := lookup?_eq_some found
      by_cases fits : args.length = main.params.length
      · exact ⟨_, .ready distinct mem called fits⟩
      · exact ⟨_, .mainArity distinct mem called fits⟩
  · obtain ⟨f, first⟩ := exists_firstDuplicate_iff.mpr distinct
    exact ⟨_, .duplicate first⟩

/-- A run is its set-up and then the run of the function found there. -/
theorem SetUp.evaluate_eq_bind {r : Except RuntimeError Function} (h : p.SetUp args r)
    (fuel : Nat) :
    p.evaluate fuel args = r.mapError Halt.error >>= fun f => Run.enter (p.eval fuel) f args := by
  unfold evaluate
  cases h with
  | duplicate first =>
    rw [duplicate?_eq_some_iff.mpr first]
    rfl
  | noMain distinct missing =>
    rw [duplicate?_eq_none_iff.mpr distinct, lookup?_eq_none_iff.mpr missing]
    rfl
  | mainArity distinct mem called differs =>
    rw [duplicate?_eq_none_iff.mpr distinct, ← called, lookup?_name distinct mem]
    exact if_neg differs
  | ready distinct mem called fits =>
    rw [duplicate?_eq_none_iff.mpr distinct, ← called, lookup?_name distinct mem]
    exact if_pos fits

/-- A run ends in an error of the set-up exactly if the set-up does. -/
theorem evaluate_eq_error_iff {x : RuntimeError} (about : x.OfSetUp) (fuel : Nat) :
    p.evaluate fuel args = .error (.error x) ↔ p.SetUp args (.error x) := by
  constructor
  · intro failed
    obtain ⟨r, h⟩ := p.exists_setUp args
    rw [h.evaluate_eq_bind] at failed
    cases r with
    | error y =>
      cases failed
      exact h
    | ok main =>
      -- behind the set-up, `main` does not end in such an error
      have entered : Run.enter (p.eval fuel) main args = .error (.error x) := failed
      rw [(p.mirrors_eval fuel).enter] at entered
      exact absurd about (pastSetUp_enter (p.pastSetUp_evalIn fuel) main args x entered)
  · intro h
    rw [h.evaluate_eq_bind]
    rfl

end SetUp

end Program

/-! ## The run of `main` -/

/-- The stack with the parameters bound to the values, one behind the other. -/
def Stack.bindParams (s : Stack) (params : List Ident) (values : List Int64) : Stack :=
  (params.zip values).foldl (fun t x => t.push x.1.name x.2) s

theorem Stack.bindParams_eq (s : Stack) (params : List Ident) (values : List Int64) :
    s.bindParams params values = ofArgs params values ++ s := by
  unfold bindParams
  induction params generalizing s values with
  | nil => rfl
  | cons i params ih =>
    cases values with
    | nil => rfl
    | cons v vs =>
      rw [List.zip_cons_cons, List.foldl_cons, ih]
      simp [ofArgs, frame, push]

/-- **The set-up is decided first, and in order.** A run tells that a function has the name of an
earlier one exactly if two functions share a name, and then it is the first such function, whatever
else is wrong; otherwise, that there is no `main` exactly if no function is called so; otherwise,
how many arguments `main` takes and how many there are exactly if these differ. And otherwise the
run hands back what the body of `main` ends with, its parameters bound in order. Neither an
expression nor a call of whatever function ends in one of these errors, in a run of any depth. -/
theorem Program.set_up_decides (p : Program) (fuel : Nat) (args : List Int64) :
    ((∃ f, p.FirstDuplicate f) ↔ ¬(p.functions.map Function.name).Nodup)
    ∧ (∀ name pos, p.evaluate fuel args = .error (.error (.duplicateFunction name pos)) ↔
        ∃ f, p.FirstDuplicate f ∧ f.name = name ∧ f.token.pos = pos)
    ∧ (p.evaluate fuel args = .error (.error .noMain) ↔
        (p.functions.map Function.name).Nodup ∧ ∀ f ∈ p.functions, f.name ≠ "main")
    ∧ (∀ expected got, p.evaluate fuel args = .error (.error (.mainArity expected got)) ↔
        (p.functions.map Function.name).Nodup ∧ ∃ main ∈ p.functions, main.name = "main"
          ∧ main.params.length = expected ∧ args.length = got ∧ got ≠ expected)
    ∧ ((p.functions.map Function.name).Nodup → ∀ main ∈ p.functions, main.name = "main" →
        args.length = main.params.length →
        p.evaluate fuel args
          = Run.outcome (p.eval fuel main.body) (Stack.bindParams [] main.params args)
              >>= Ending.handBack "main")
    ∧ ∀ depth, (∀ e s, Outcome.PastSetUp (Run.outcome (p.eval depth e) s))
        ∧ ∀ name pos values, Outcome.PastSetUp (p.call (p.eval depth) name pos values) := by
  refine ⟨exists_firstDuplicate_iff, fun name pos => ?_, ?_, fun expected got => ?_,
    fun distinct main mem called fits => ?_,
    fun depth => ⟨p.pastSetUp_eval depth, p.pastSetUp_call depth⟩⟩
  · rw [evaluate_eq_error_iff (x := .duplicateFunction name pos) trivial, setUp_duplicate_iff]
  · rw [evaluate_eq_error_iff (x := .noMain) trivial, setUp_noMain_iff]
  · rw [evaluate_eq_error_iff (x := .mainArity expected got) trivial, setUp_mainArity_iff]
  · have ready : p.SetUp args (.ok main) := .ready distinct mem called fits
    rw [ready.evaluate_eq_bind, Stack.bindParams_eq, List.append_nil, ← called]
    exact Run.enter_eq _ main args

/-- The function `let name n = main(n)(n) end` with its `let` on this line, without the other tokens
of its source. -/
def Function.callingMain (name : String) (line : UInt32) : Function :=
  let t : Token := .endOfText .nowhere
  ⟨.endOfText ⟨line, 1⟩, ⟨t, name⟩, [⟨t, "n"⟩], .call t "main" [.var t "n", .var t "n"]⟩

namespace Program

/-- Two names come twice, and none of them is `main`. -/
def clashing : Program :=
  ⟨[.callingMain "f" 1, .callingMain "g" 2, .callingMain "g" 3, .callingMain "f" 4]⟩

/-- Of the two names that come twice, the one that comes again first is told. A program that calls
`main` with two arguments from `main` itself fails at this call, and not as if it had been given
two. -/
theorem set_up_decides_clashing :
    clashing.evaluate 0 [] = .error (.error (.duplicateFunction "g" ⟨3, 1⟩))
    ∧ Program.evaluate ⟨[.callingMain "main" 1]⟩ 0 [] = .error (.error (.mainArity 1 0))
    ∧ Program.evaluate ⟨[.callingMain "main" 1]⟩ 3 [5]
        = .error (.error (.callArity "main" 1 2 .nowhere)) := by
  have first : clashing.FirstDuplicate (.callingMain "g" 3) :=
    ⟨[.callingMain "f" 1, .callingMain "g" 2], [.callingMain "f" 4], rfl, by decide, by decide⟩
  have alone := List.mem_singleton_self (Function.callingMain "main" 1)
  have decided := set_up_decides ⟨[.callingMain "main" 1]⟩
  refine ⟨((set_up_decides clashing 0 []).2.1 "g" ⟨3, 1⟩).mpr ⟨_, first, rfl, rfl⟩,
    ((decided 0 []).2.2.2.1 1 0).mpr ⟨by decide, _, alone, rfl, rfl, rfl, by decide⟩, ?_⟩
  exact ((decided 3 [5]).2.2.2.2.1 (by decide) _ alone rfl rfl).trans rfl

end Program

end LoopLang
