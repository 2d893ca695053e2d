import LoopLang.Evaluation

set_option autoImplicit false

/-! # Evaluation without a stack

The meaning of expressions by rules, over scopes that never change: a scope is a map from names to
values, a binding makes a new scope out of an old one, and a loop goes on in the scope in which its
names stand for the values passed to `recur`. There are rules for every way to end, with a value,
with a pending `recur` or with an error, and none for a run that goes on for ever. -/

namespace LoopLang

/-! ## Scopes -/

/-- What the names in scope stand for. -/
def Scope := String → Option Int64

namespace Scope

/-- No name is in scope. -/
def empty : Scope := fun _ => none

/-- The scope `σ` with `name` standing for `value`. -/
def bind (σ : Scope) (name : String) (value : Int64) : Scope :=
  fun x => if x = name then some value else σ x

/-- The scope `σ` with each of the names standing for its value; of equal names the last wins. -/
def bindAll (σ : Scope) : List String → List Int64 → Scope
  | name :: names, v :: vs => (σ.bind name v).bindAll names vs
  | _, _ => σ

end Scope

/-! ## Rules -/

namespace BigStep

mutual

/-- How an expression ends in a scope. -/
inductive Eval (p : Program) : Scope → Expr → Except RuntimeError Ending → Prop where
  | integer {σ t n} : Eval p σ (.integer t n) (.ok (.value n))
  | var {σ t name v} (bound : σ name = some v) : Eval p σ (.var t name) (.ok (.value v))
  | unbound {σ t name} (free : σ name = none) :
      Eval p σ (.var t name) (.error (.unboundVariable name t.pos))
  | call {σ t name es vs v} (args : Args p σ es (.ok vs)) (result : Call p name t.pos vs (.ok v)) :
      Eval p σ (.call t name es) (.ok (.value v))
  | callFails {σ t name es vs x} (args : Args p σ es (.ok vs))
      (result : Call p name t.pos vs (.error x)) : Eval p σ (.call t name es) (.error x)
  | callArgFails {σ t name es x} (args : Args p σ es (.error x)) :
      Eval p σ (.call t name es) (.error x)
  | ifTrue {σ t e a b v r} (test : Value p σ .condition e (.ok v)) (nonzero : v ≠ 0)
      (branch : Eval p σ a r) : Eval p σ (.cond t e a b) r
  | ifFalse {σ t e a b r} (test : Value p σ .condition e (.ok 0)) (branch : Eval p σ b r) :
      Eval p σ (.cond t e a b) r
  | ifFails {σ t e a b x} (test : Value p σ .condition e (.error x)) :
      Eval p σ (.cond t e a b) (.error x)
  | unary {σ t op e v} (operand : Value p σ .unary e (.ok v)) :
      Eval p σ (.unary t op e) (.ok (.value (op.apply v)))
  | unaryFails {σ t op e x} (operand : Value p σ .unary e (.error x)) :
      Eval p σ (.unary t op e) (.error x)
  | binary {σ t op a b l r} (lhs : Value p σ .binary a (.ok l))
      (rhs : Value p σ .binary b (.ok r)) :
      Eval p σ (.binary t op a b) (.ok (.value (op.apply l r)))
  | leftFails {σ t op a b x} (lhs : Value p σ .binary a (.error x)) :
      Eval p σ (.binary t op a b) (.error x)
  | rightFails {σ t op a b l x} (lhs : Value p σ .binary a (.ok l))
      (rhs : Value p σ .binary b (.error x)) : Eval p σ (.binary t op a b) (.error x)
  | letIn {σ σ' t bs e r} (bindings : Bindings p σ bs (.ok σ')) (body : Eval p σ' e r) :
      Eval p σ (.letIn t bs e) r
  | letFails {σ t bs e x} (bindings : Bindings p σ bs (.error x)) :
      Eval p σ (.letIn t bs e) (.error x)
  | loop {σ σ' t bs e v} (bindings : Bindings p σ bs (.ok σ'))
      (rounds : Rounds p σ' (bs.map Binding.name) e (.ok v)) :
      Eval p σ (.loop t bs e) (.ok (.value v))
  | loopFails {σ σ' t bs e x} (bindings : Bindings p σ bs (.ok σ'))
      (rounds : Rounds p σ' (bs.map Binding.name) e (.error x)) : Eval p σ (.loop t bs e) (.error x)
  | loopBindingFails {σ t bs e x} (bindings : Bindings p σ bs (.error x)) :
      Eval p σ (.loop t bs e) (.error x)
  | recur {σ t es vs} (args : Args p σ es (.ok vs)) :
      Eval p σ (.recur t es) (.ok (.pending vs t.pos))
  | recurFails {σ t es x} (args : Args p σ es (.error x)) : Eval p σ (.recur t es) (.error x)

/-- How an expression ends where a value is needed on the spot. -/
inductive Value (p : Program) : Scope → RecurSite → Expr → Except RuntimeError Int64 → Prop where
  | value {σ site e v} (expr : Eval p σ e (.ok (.value v))) : Value p σ site e (.ok v)
  | pending {σ site e vs pos} (expr : Eval p σ e (.ok (.pending vs pos))) :
      Value p σ site e (.error (.recurIn site pos))
  | fails {σ site e x} (expr : Eval p σ e (.error x)) : Value p σ site e (.error x)

/-- How arguments end, from left to right. -/
inductive Args (p : Program) : Scope → List Expr → Except RuntimeError (List Int64) → Prop where
  | nil {σ} : Args p σ [] (.ok [])
  | cons {σ e es v vs} (first : Value p σ .argument e (.ok v)) (others : Args p σ es (.ok vs)) :
      Args p σ (e :: es) (.ok (v :: vs))
  | firstFails {σ e es x} (first : Value p σ .argument e (.error x)) :
      Args p σ (e :: es) (.error x)
  | othersFail {σ e es v x} (first : Value p σ .argument e (.ok v))
      (others : Args p σ es (.error x)) : Args p σ (e :: es) (.error x)

/-- The scope that bindings lead to, each seen by the later ones. -/
inductive Bindings (p : Program) : Scope → List Binding → Except RuntimeError Scope → Prop where
  | nil {σ} : Bindings p σ [] (.ok σ)
  | cons {σ b bs v r} (first : Value p σ .binding b.value (.ok v))
      (others : Bindings p (σ.bind b.name v) bs r) : Bindings p σ (b :: bs) r
  | fails {σ b bs x} (first : Value p σ .binding b.value (.error x)) :
      Bindings p σ (b :: bs) (.error x)

/-- How the rounds of a loop over these names end, the first of them in the given scope. -/
inductive Rounds (p : Program) : Scope → List String → Expr → Except RuntimeError Int64 → Prop where
  | done {σ names e v} (body : Eval p σ e (.ok (.value v))) : Rounds p σ names e (.ok v)
  | again {σ names e vs pos r} (body : Eval p σ e (.ok (.pending vs pos)))
      (fits : vs.length = names.length) (others : Rounds p (σ.bindAll names vs) names e r) :
      Rounds p σ names e r
  | arity {σ names e vs pos} (body : Eval p σ e (.ok (.pending vs pos)))
      (differs : vs.length ≠ names.length) :
      Rounds p σ names e (.error (.recurArity names.length vs.length pos))
  | fails {σ names e x} (body : Eval p σ e (.error x)) : Rounds p σ names e (.error x)

/-- How a call with these values ends: in a scope of just the parameters. -/
inductive Call (p : Program) :
    String → Position → List Int64 → Except RuntimeError Int64 → Prop where
  | undefined {name pos vs} (missing : p.lookup? name = none) :
      Call p name pos vs (.error (.undefinedFunction name pos))
  | arity {name pos vs f} (found : p.lookup? name = some f)
      (differs : vs.length ≠ f.params.length) :
      Call p name pos vs (.error (.callArity name f.params.length vs.length pos))
  | returns {name pos vs f v} (found : p.lookup? name = some f)
      (fits : vs.length = f.params.length)
      (body : Eval p (Scope.empty.bindAll (f.params.map Ident.name) vs) f.body (.ok (.value v))) :
      Call p name pos vs (.ok v)
  | escapes {name pos vs f ws at'} (found : p.lookup? name = some f)
      (fits : vs.length = f.params.length)
      (body : Eval p (Scope.empty.bindAll (f.params.map Ident.name) vs) f.body
        (.ok (.pending ws at'))) :
      Call p name pos vs (.error (.escapedRecur f.name at'))
  | fails {name pos vs f x} (found : p.lookup? name = some f)
      (fits : vs.length = f.params.length)
      (body : Eval p (Scope.empty.bindAll (f.params.map Ident.name) vs) f.body (.error x)) :
      Call p name pos vs (.error x)

end

end BigStep

end LoopLang
