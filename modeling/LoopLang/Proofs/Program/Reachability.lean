import LoopLang.Proofs.Program.Lookup
import LoopLang.Proofs.Tree.Nodes
import Mathlib.Data.List.Perm.Basic

set_option autoImplicit false

/-! # What a run can reach

A run starts with `main` and goes on with functions that are called by name. So it stays within
every set of names that holds `main` and the names called in each function that it holds, and takes
from the program only what these names stand for. Programs that agree there evaluate to the same,
whatever order their functions have and whatever else they define. -/

namespace LoopLang

/-! ## Evaluation by parts -/

namespace Run

variable {ev ev' : Expr → Run Ending}

theorem value_congr {e : Expr} (site : RecurSite) (h : ev e = ev' e) :
    value ev site e = value ev' site e := by
  rw [value, value, h]

theorem args_congr {es : List Expr} (h : ∀ e ∈ es, ev e = ev' e) : args ev es = args ev' es := by
  induction es with
  | nil => rfl
  | cons e es ih =>
    obtain ⟨first, others⟩ := List.forall_mem_cons.mp h
    rw [args, args, value_congr _ first, ih others]

theorem bindings_congr {bs : List Binding} (h : ∀ b ∈ bs, ev b.value = ev' b.value) :
    bindings ev bs = bindings ev' bs := by
  induction bs with
  | nil => rfl
  | cons b bs ih =>
    obtain ⟨first, others⟩ := List.forall_mem_cons.mp h
    rw [bindings, bindings, value_congr _ first, ih others]

theorem rounds_congr {base : Nat} {names : List String} {body : Expr} (h : ev body = ev' body)
    (n : Nat) : rounds ev base names body n = rounds ev' base names body n := by
  induction n with
  | zero => rfl
  | succ n ih => rw [rounds, rounds, h, ih]

theorem enter_congr {f : Function} (h : ev f.body = ev' f.body) (values : List Int64) :
    enter ev f values = enter ev' f values := by
  rw [enter, enter, h]

end Run

/-! ## Programs that agree on the names within reach -/

namespace Program

/-- The known names hold `main` and, with a function of the first program, all names called in its
body; and each of them stands for the same function in both programs, or for none in both. -/
structure AgreeOn (p q : Program) (known : String → Prop) : Prop where
  main : known "main"
  closed : ∀ f ∈ p.functions, known f.name → ∀ n ∈ f.body.nodes, n.CallsKnown known
  same : ∀ name, known name → p.lookup? name = q.lookup? name

section AgreeOn

variable {p q : Program} {known : String → Prop}

/-- The evaluations of both programs are equal as long as only known functions are called. -/
def Alike (known : String → Prop) (ev ev' : Expr → Run Ending) : Prop :=
  ∀ e, (∀ n ∈ e.nodes, n.CallsKnown known) → ev e = ev' e

variable {ev ev' : Expr → Run Ending}

theorem Alike.args (alike : Alike known ev ev') {es : List Expr}
    (calls : ∀ n ∈ Expr.allNodes es, n.CallsKnown known) : Run.args ev es = Run.args ev' es :=
  Run.args_congr fun e mem =>
    alike e fun n part => calls n (Expr.mem_allNodes.mpr ⟨e, mem, part⟩)

theorem Alike.bindings (alike : Alike known ev ev') {bs : List Binding}
    (calls : ∀ n ∈ Binding.allNodes bs, n.CallsKnown known) :
    Run.bindings ev bs = Run.bindings ev' bs :=
  Run.bindings_congr fun b mem =>
    alike b.value fun n part => calls n (Binding.mem_allNodes.mpr ⟨b, mem, .inr part⟩)

theorem AgreeOn.call (h : p.AgreeOn q known) (alike : Alike known ev ev') {name : String}
    (callee : known name) (pos : Position) (values : List Int64) :
    p.call ev name pos values = q.call ev' name pos values := by
  unfold Program.call
  rw [← h.same name callee]
  cases found : p.lookup? name with
  | none => rfl
  | some f =>
    obtain ⟨mem, rfl⟩ := lookup?_eq_some found
    dsimp only
    rw [Run.enter_congr (alike f.body (h.closed f mem callee))]

/-- A run never leaves the known functions, so that the two programs run alike. -/
theorem AgreeOn.alike_eval (h : p.AgreeOn q known) (fuel : Nat) :
    Alike known (p.eval fuel) (q.eval fuel) := by
  induction fuel with
  | zero => exact fun _ _ => rfl
  | succ n alike =>
    intro e calls
    cases e with
    | integer _ v => rfl
    | var _ name => rfl
    | call t name args =>
      obtain ⟨callee, parts⟩ := List.forall_mem_cons.mp calls
      rw [eval, eval, alike.args parts, funext (h.call alike callee t.pos)]
    | cond _ test thenBranch elseBranch =>
      obtain ⟨_, first, second, third⟩ := Expr.forall_nodes_cond.mp calls
      rw [eval, eval, Run.value_congr _ (alike _ first), alike _ second, alike _ third]
    | unary _ op operand =>
      obtain ⟨_, part⟩ := List.forall_mem_cons.mp calls
      rw [eval, eval, Run.value_congr _ (alike _ part)]
    | binary _ op lhs rhs =>
      obtain ⟨left, _, right⟩ := Expr.forall_nodes_binary.mp calls
      rw [eval, eval, Run.value_congr _ (alike _ left), Run.value_congr _ (alike _ right)]
    | letIn _ bs body =>
      obtain ⟨_, first, last⟩ := Expr.forall_nodes_letIn.mp calls
      rw [eval, eval, alike.bindings first, alike _ last]
    | loop _ bs body =>
      obtain ⟨_, first, last⟩ := Expr.forall_nodes_loop.mp calls
      simp only [eval, alike.bindings first, Run.rounds_congr (alike _ last)]
    | recur _ args =>
      obtain ⟨_, parts⟩ := List.forall_mem_cons.mp calls
      rw [eval, eval, alike.args parts]

end AgreeOn

/-! ## Order and functions that are not called -/

/-- The two programs have the functions `common`, which call none of the others, and besides these
the one has `mine` and the other `theirs`, `main` not among them; the order may be any. -/
structure DifferInUncalled (p q : Program) (common mine theirs : List Function) : Prop where
  left : p.functions.Perm (common ++ mine)
  right : q.functions.Perm (common ++ theirs)
  notMain : ∀ g ∈ mine ++ theirs, g.name ≠ "main"
  uncalled : ∀ f ∈ common, ∀ n ∈ f.body.nodes,
    n.CallsKnown fun name => ∀ g ∈ mine ++ theirs, g.name ≠ name

section Distinct

variable {p q : Program} (distinct : (p.functions.map Function.name).Nodup)
  (distinct' : (q.functions.map Function.name).Nodup)

include distinct distinct'

theorem DifferInUncalled.agreeOn {common mine theirs : List Function}
    (h : p.DifferInUncalled q common mine theirs) :
    p.AgreeOn q fun name => ∀ g ∈ mine ++ theirs, g.name ≠ name where
  main := h.notMain
  closed f mem others := by
    rcases List.mem_append.mp (h.left.mem_iff.mp mem) with shared | own
    · exact h.uncalled f shared
    · exact absurd rfl (others f (List.mem_append_left _ own))
  same name others := by
    refine Option.ext fun f => ?_
    rw [lookup?_eq_some_iff distinct, lookup?_eq_some_iff distinct', h.left.mem_iff,
      h.right.mem_iff]
    refine and_congr_left fun named => ?_
    have left : f ∉ mine := fun mem => others f (List.mem_append_left _ mem) named
    have right : f ∉ theirs := fun mem => others f (List.mem_append_right _ mem) named
    simp [left, right]

theorem AgreeOn.evaluate {known : String → Prop} (h : p.AgreeOn q known) (fuel : Nat)
    (args : List Int64) : p.evaluate fuel args = q.evaluate fuel args := by
  unfold Program.evaluate
  rw [duplicate?_eq_none_iff.mpr distinct, duplicate?_eq_none_iff.mpr distinct',
    ← h.same "main" h.main]
  cases found : p.lookup? "main" with
  | none => rfl
  | some f =>
    obtain ⟨mem, named⟩ := lookup?_eq_some found
    have calls := h.closed f mem (named ▸ h.main)
    dsimp only
    rw [Run.enter_congr (h.alike_eval fuel f.body calls)]

/-- **Only what `main` can reach matters.** Programs that agree on a set of names with `main` in it
and closed under calls evaluate to the same value or the same error, with the same arguments and the
same fuel; so do programs that differ in the order of their functions and in functions that are
never called. -/
theorem evaluate_eq_of_reachable :
    (∀ known, p.AgreeOn q known → ∀ fuel args, p.evaluate fuel args = q.evaluate fuel args)
    ∧ ∀ common mine theirs, p.DifferInUncalled q common mine theirs →
        ∀ fuel args, p.evaluate fuel args = q.evaluate fuel args :=
  ⟨fun _ h => h.evaluate distinct distinct',
    fun _ _ _ h => (h.agreeOn distinct distinct').evaluate distinct distinct'⟩

end Distinct

end Program

/-- The function `let name(n) = callee(n) end`, without the tokens of its source. -/
def Function.relay (name callee : String) : Function :=
  let t : Token := .endOfText .nowhere
  ⟨t, ⟨t, name⟩, [⟨t, "n"⟩], .call t callee [.var t "n"]⟩

namespace Program

/-- `main` calls `next`, which calls a function that there is not. -/
def relays : Program :=
  ⟨[.relay "main" "next", .relay "stray" "main", .relay "next" "gone"]⟩

/-- What `main` can reach in `relays`, the other way round. -/
def relaysReached : Program :=
  ⟨[.relay "next" "gone", .relay "main" "next"]⟩

theorem relays_agreeOn : relays.AgreeOn relaysReached (· ∈ ["main", "next", "gone"]) where
  main := by decide
  closed := by decide
  same name known := by
    simp only [List.mem_cons, List.not_mem_nil, or_false] at known
    rcases known with rfl | rfl | rfl <;> rfl

theorem relays_differInUncalled : relays.DifferInUncalled relaysReached
    [.relay "main" "next", .relay "next" "gone"] [.relay "stray" "main"] [] where
  left := .cons _ (.swap _ _ _)
  right := .swap _ _ _
  notMain := by decide
  uncalled := by decide

/-- Both programs fail at the function that neither of them has, and where `main` gets too few
arguments. -/
theorem relays_evaluate :
    relays.evaluate 5 [4] = relaysReached.evaluate 5 [4]
      ∧ relays.evaluate 5 [4] = .error (.error (.undefinedFunction "gone" .nowhere))
      ∧ relays.evaluate 5 [] = relaysReached.evaluate 5 []
      ∧ relays.evaluate 5 [] = .error (.error (.mainArity 1 0)) :=
  have same := evaluate_eq_of_reachable (p := relays) (q := relaysReached) (by decide) (by decide)
  ⟨same.1 _ relays_agreeOn 5 [4], by decide +kernel,
    same.2 _ _ _ relays_differInUncalled 5 [], by decide +kernel⟩

end Program

end LoopLang
