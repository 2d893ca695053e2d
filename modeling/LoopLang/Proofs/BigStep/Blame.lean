import LoopLang.Proofs.BigStep.Soundness
import LoopLang.Proofs.Program.Lookup
import Mathlib.Logic.Relation

set_option autoImplicit false

/-! # Where a pending recur comes from

A pending `recur` leaves an expression only by the branches of conditionals and the bodies of
`let`s, so behind every one that arrives somewhere stands a `recur` that is reached by these alone.
An error about a `recur` therefore blames a place that is there in the code: a part from which a
value is needed, the body of a loop with another number of bindings, or the body of the function
that the `recur` escaped from. The error may have come up many calls and rounds away from it; all
that evaluation ever looks at are parts of the expression it was given and bodies of functions. So
every error of a run arises at such a part, or from the list of the functions before any of them
is entered. -/

namespace LoopLang

open Relation Run

/-! ## Parts of expressions -/

namespace Expr

/-- A pending `recur` of the part is one of the whole expression. -/
inductive HandsOn : Expr → Expr → Prop where
  | thenBranch {t c a b} : HandsOn (.cond t c a b) a
  | elseBranch {t c a b} : HandsOn (.cond t c a b) b
  | letBody {t bs e} : HandsOn (.letIn t bs e) e

/-- The expression needs a value from the part, which stands at a site of this sort. -/
inductive NeedsValue : RecurSite → Expr → Expr → Prop where
  | callArg {t name es e} (mem : e ∈ es) : NeedsValue .argument (.call t name es) e
  | recurArg {t es e} (mem : e ∈ es) : NeedsValue .argument (.recur t es) e
  | operand {t op e} : NeedsValue .unary (.unary t op e) e
  | lhs {t op a b} : NeedsValue .binary (.binary t op a b) a
  | rhs {t op a b} : NeedsValue .binary (.binary t op a b) b
  | test {t c a b} : NeedsValue .condition (.cond t c a b) c
  | letBinding {t bs e b} (mem : b ∈ bs) : NeedsValue .binding (.letIn t bs e) b.value
  | loopBinding {t bs e b} (mem : b ∈ bs) : NeedsValue .binding (.loop t bs e) b.value

/-- The parts that an expression is made of directly. -/
inductive HasPart : Expr → Expr → Prop where
  | needed {site e a} (needs : NeedsValue site e a) : HasPart e a
  | handedOn {e a} (hands : HandsOn e a) : HasPart e a
  | loopBody {t bs e} : HasPart (.loop t bs e) e

/-- The part lies somewhere in the expression, at whatever depth. -/
def Contains : Expr → Expr → Prop := ReflTransGen HasPart

/-- By branches of conditionals and bodies of `let`s alone, the expression leads to a `recur` at
this place with so many arguments. -/
def TailRecur (e : Expr) (pos : Position) (count : Nat) : Prop :=
  ∃ t args, ReflTransGen HandsOn e (.recur t args) ∧ t.pos = pos ∧ args.length = count

theorem TailRecur.of_handsOn {e a : Expr} {pos : Position} {count : Nat}
    (h : a.TailRecur pos count) (hands : HandsOn e a) : e.TailRecur pos count := by
  obtain ⟨t, args, path, here, same⟩ := h
  exact ⟨t, args, path.head hands, here, same⟩

end Expr

/-! ## Blame -/

/-- Expressions from which evaluation never gets away: with each of them its parts are among them,
and so are the bodies of the functions of the program. -/
structure Program.Encloses (p : Program) (code : Expr → Prop) : Prop where
  part {e a} (mine : code e) (part : e.HasPart a) : code a
  body {f} (mem : f ∈ p.functions) : code f.body

/-- An error about a `recur` names a place where the code has one that leads to this error. -/
def RuntimeError.Blames (p : Program) (code : Expr → Prop) : RuntimeError → Prop
  | .recurIn site pos =>
    ∃ e part count, code e ∧ e.NeedsValue site part ∧ part.TailRecur pos count
  | .recurArity expected got pos =>
    ∃ t bs body, code (.loop t bs body) ∧ bs.length = expected ∧ got ≠ expected
      ∧ body.TailRecur pos got
  | .escapedRecur name pos => ∃ f count, p.lookup? name = some f ∧ f.body.TailRecur pos count
  | _ => True

/-- Where an error of a run comes from: from the set-up of the program, or from a place in the code
that leads to it. -/
inductive RuntimeError.ArisesIn (p : Program) (code : Expr → Prop) : RuntimeError → Prop where
  | duplicate {f} (found : p.duplicate? = some f) :
      ArisesIn p code (.duplicateFunction f.name f.token.pos)
  | noMain (missing : p.lookup? "main" = none) : ArisesIn p code .noMain
  | mainArity {f got} (found : p.lookup? "main" = some f) (differs : got ≠ f.params.length) :
      ArisesIn p code (.mainArity f.params.length got)
  | unbound {t name} (mine : code (.var t name)) : ArisesIn p code (.unboundVariable name t.pos)
  | undefined {t name es} (mine : code (.call t name es)) (missing : p.lookup? name = none) :
      ArisesIn p code (.undefinedFunction name t.pos)
  | callArity {t name es f} (mine : code (.call t name es)) (found : p.lookup? name = some f)
      (differs : es.length ≠ f.params.length) :
      ArisesIn p code (.callArity name f.params.length es.length t.pos)
  | recurIn {site e part pos count} (mine : code e) (needs : e.NeedsValue site part)
      (tail : part.TailRecur pos count) : ArisesIn p code (.recurIn site pos)
  | recurArity {t bs body pos got} (mine : code (.loop t bs body)) (differs : got ≠ bs.length)
      (tail : body.TailRecur pos got) : ArisesIn p code (.recurArity bs.length got pos)
  | escaped {name f pos count} (found : p.lookup? name = some f)
      (tail : f.body.TailRecur pos count) : ArisesIn p code (.escapedRecur name pos)

theorem RuntimeError.ArisesIn.blames {p : Program} {code : Expr → Prop} {x : RuntimeError}
    (h : x.ArisesIn p code) : x.Blames p code := by
  cases h with
  | duplicate _ | noMain _ | mainArity _ _ | unbound _ | undefined _ _ | callArity _ _ _ => trivial
  | recurIn mine needs tail => exact ⟨_, _, _, mine, needs, tail⟩
  | recurArity mine differs tail => exact ⟨_, _, _, mine, rfl, differs, tail⟩
  | escaped found tail => exact ⟨_, _, found, tail⟩

namespace BigStep

variable {p : Program}

theorem Args.length_eq {σ : Scope} {es : List Expr} {vs : List Int64}
    (h : Args p σ es (.ok vs)) : vs.length = es.length := by
  match h with
  | .nil => rfl
  | .cons _ others => rw [List.length_cons, List.length_cons, others.length_eq]

/-- A pending `recur` comes from tail position. -/
theorem Eval.tailRecur {σ : Scope} {e : Expr} {vs : List Int64} {pos : Position}
    (h : Eval p σ e (.ok (.pending vs pos))) : e.TailRecur pos vs.length := by
  match h with
  | .recur args => exact ⟨_, _, .refl, rfl, args.length_eq.symm⟩
  | .ifTrue _ _ branch => exact branch.tailRecur.of_handsOn .thenBranch
  | .ifFalse _ branch => exact branch.tailRecur.of_handsOn .elseBranch
  | .letIn _ body => exact body.tailRecur.of_handsOn .letBody

/-- If this is an error, it comes from a place in the code. -/
def Arises {α : Type} (p : Program) (code : Expr → Prop) : Except RuntimeError α → Prop
  | .ok _ => True
  | .error x => x.ArisesIn p code

section Errors

variable {code : Expr → Prop}

mutual

theorem Eval.arises {σ : Scope} {e : Expr} {r : Except RuntimeError Ending} (h : Eval p σ e r)
    (closed : p.Encloses code) (mine : code e) : Arises p code r := by
  match h with
  | .integer | .var _ | .call _ _ | .unary _ | .binary _ _ | .loop _ _ | .recur _ => trivial
  | .unbound _ => exact .unbound mine
  | .callFails args result => exact result.arises closed mine rfl args.length_eq
  | .callArgFails args => exact args.arises closed mine fun _ => .callArg
  | .ifTrue _ _ branch => exact branch.arises closed (closed.part mine (.handedOn .thenBranch))
  | .ifFalse _ branch => exact branch.arises closed (closed.part mine (.handedOn .elseBranch))
  | .ifFails test => exact test.arises closed mine .test
  | .unaryFails operand => exact operand.arises closed mine .operand
  | .leftFails lhs => exact lhs.arises closed mine .lhs
  | .rightFails _ rhs => exact rhs.arises closed mine .rhs
  | .letIn _ body => exact body.arises closed (closed.part mine (.handedOn .letBody))
  | .letFails bindings => exact bindings.arises closed mine fun _ => .letBinding
  | .loopFails _ rounds => exact rounds.arises closed mine (List.length_map _)
  | .loopBindingFails bindings => exact bindings.arises closed mine fun _ => .loopBinding
  | .recurFails args => exact args.arises closed mine fun _ => .recurArg

theorem Value.arises {σ : Scope} {site : RecurSite} {e a : Expr} {r : Except RuntimeError Int64}
    (h : Value p σ site a r) (closed : p.Encloses code) (mine : code e)
    (needs : e.NeedsValue site a) : Arises p code r := by
  match h with
  | .value _ => trivial
  | .pending expr => exact .recurIn mine needs expr.tailRecur
  | .fails expr => exact expr.arises closed (closed.part mine (.needed needs))

theorem Args.arises {σ : Scope} {e : Expr} {es : List Expr} {r : Except RuntimeError (List Int64)}
    (h : Args p σ es r) (closed : p.Encloses code) (mine : code e)
    (needs : ∀ a ∈ es, e.NeedsValue .argument a) : Arises p code r := by
  match h with
  | .nil | .cons _ _ => trivial
  | .firstFails first => exact first.arises closed mine (needs _ List.mem_cons_self)
  | .othersFail _ others =>
    exact others.arises closed mine fun a mem => needs a (List.mem_cons_of_mem _ mem)

theorem Bindings.arises {σ : Scope} {e : Expr} {bs : List Binding} {r : Except RuntimeError Scope}
    (h : Bindings p σ bs r) (closed : p.Encloses code) (mine : code e)
    (needs : ∀ b ∈ bs, e.NeedsValue .binding b.value) : Arises p code r := by
  match h with
  | .nil => trivial
  | .cons _ others =>
    exact others.arises closed mine fun b mem => needs b (List.mem_cons_of_mem _ mem)
  | .fails first => exact first.arises closed mine (needs _ List.mem_cons_self)

theorem Rounds.arises {σ : Scope} {t : Token} {bs : List Binding} {names : List String}
    {body : Expr} {r : Except RuntimeError Int64} (h : Rounds p σ names body r)
    (closed : p.Encloses code) (mine : code (.loop t bs body)) (count : names.length = bs.length) :
    Arises p code r := by
  match h with
  | .done _ => trivial
  | .again _ _ others => exact others.arises closed mine count
  | .arity pending differs =>
    rw [count] at differs ⊢
    exact .recurArity mine differs pending.tailRecur
  | .fails expr => exact expr.arises closed (closed.part mine .loopBody)

theorem Call.arises {t : Token} {name : String} {pos : Position} {es : List Expr}
    {vs : List Int64} {r : Except RuntimeError Int64} (h : Call p name pos vs r)
    (closed : p.Encloses code) (mine : code (.call t name es)) (here : t.pos = pos)
    (count : vs.length = es.length) : Arises p code r := by
  match h with
  | .undefined missing =>
    subst here
    exact .undefined mine missing
  | .arity found differs =>
    subst here
    rw [count] at differs ⊢
    exact .callArity mine found differs
  | .returns _ _ _ => trivial
  | .escapes found _ body =>
    obtain ⟨_, rfl⟩ := Program.lookup?_eq_some found
    exact .escaped found body.tailRecur
  | .fails found _ body => exact body.arises closed (closed.body (Program.lookup?_eq_some found).1)

end

end Errors

end BigStep

/-! ## Runs -/

/-- The expression lies somewhere in the body of a function. -/
def Program.Contains (p : Program) (e : Expr) : Prop := ∃ f ∈ p.functions, f.body.Contains e

theorem Program.encloses_contains (p : Program) : p.Encloses p.Contains where
  part := by
    rintro e a ⟨f, mem, path⟩ part
    exact ⟨f, mem, path.tail part⟩
  body mem := ⟨_, mem, .refl⟩

theorem Program.encloses_expr (p : Program) (e : Expr) :
    p.Encloses fun a => e.Contains a ∨ p.Contains a where
  part := by
    rintro a b (path | mine) part
    · exact Or.inl (path.tail part)
    · exact Or.inr (p.encloses_contains.part mine part)
  body mem := Or.inr (p.encloses_contains.body mem)

/-- If this is a pending `recur`, it comes from one in tail position of the expression. -/
def Ending.FromTail (e : Expr) : Ending → Prop
  | .value _ => True
  | .pending vs pos => e.TailRecur pos vs.length

theorem Program.ensures_arises (p : Program) (fuel : Nat) (e : Expr) (s : Stack)
    {code : Expr → Prop} (closed : p.Encloses code) (mine : code e) :
    Ensures (p.eval fuel e) s (fun ending _ => ending.FromTail e) fun x _ => x.ArisesIn p code :=
  (BigStep.sound_eval p fuel e s).mono
    (fun ending _ h =>
      match ending, h.2 with
      | .value _, _ => trivial
      | .pending _ _, derived => derived.tailRecur)
    fun _ _ derived => derived.arises closed mine

theorem Program.ensures_blames (p : Program) (fuel : Nat) (e : Expr) (s : Stack)
    {code : Expr → Prop} (closed : p.Encloses code) (mine : code e) :
    Ensures (p.eval fuel e) s (fun ending _ => ending.FromTail e) fun x _ => x.Blames p code :=
  (p.ensures_arises fuel e s closed mine).mono_fails fun _ _ arises => arises.blames

/-- An error of a run comes from the set-up of the program or from the body of a function. -/
theorem Program.evaluate_arises (p : Program) (fuel : Nat) (args : List Int64) :
    Returns (p.evaluate fuel args) (fun _ => True) fun x => x.ArisesIn p p.Contains := by
  unfold Program.evaluate
  split
  · next f found => exact .duplicate found
  split
  · next missing => exact .noMain missing
  next main found =>
    split
    · have mine : p.Contains main.body := p.encloses_contains.body (lookup?_eq_some found).1
      refine (p.ensures_arises fuel main.body _ p.encloses_contains mine).enter
        (fun _ _ _ => trivial) fun vs pos _ fromTail => ?_
      obtain ⟨_, called⟩ := lookup?_eq_some found
      exact .escaped (called ▸ found) fromTail
    · next differs => exact .mainArity found differs

/-- **A pending recur escapes only through tail positions, and the blame is right.** What an
expression hands over as a pending `recur` stands in tail position there, with as many arguments as
values. An error about a `recur` blames a place that the code has: the expression itself or a body
of a function, where an expression is evaluated, and a body of a function, where a program is
run. -/
theorem Program.eval_blames (p : Program) (fuel : Nat) :
    (∀ e s, Ensures (p.eval fuel e) s (fun ending _ => ending.FromTail e)
      fun x _ => x.Blames p fun a => e.Contains a ∨ p.Contains a)
    ∧ ∀ args, Returns (p.evaluate fuel args) (fun _ => True) fun x => x.Blames p p.Contains := by
  refine ⟨fun e s => p.ensures_blames fuel e s (p.encloses_expr e) (Or.inl .refl), fun args => ?_⟩
  unfold Program.evaluate
  split
  · trivial
  split
  · trivial
  next main found =>
    split
    · have mine : p.Contains main.body :=
        p.encloses_contains.body (lookup?_eq_some found).1
      refine (p.ensures_blames fuel main.body _ p.encloses_contains mine).enter
        (fun _ _ _ => trivial) fun vs pos _ fromTail => ?_
      obtain ⟨_, called⟩ := lookup?_eq_some found
      exact ⟨main, vs.length, called ▸ found, fromTail⟩
    · trivial

end LoopLang
