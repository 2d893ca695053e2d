import LoopLang.Proofs.BigStep.Adequacy
import LoopLang.Proofs.Outlining.Loop
import LoopLang.Proofs.Tree.Nodes

set_option autoImplicit false

/-! # Taking a loop out of a program

Where one loop of a program is replaced by the `let` with the first call of the function that it
becomes, and this function is new, the program ends with the same values as before. This goes in two
steps: with the new function, which nothing calls, the program is the same as without it; and then
the loop and the call stand for each other, wherever evaluation meets them. Both steps compare two
programs whose functions are related, part by part. -/

namespace LoopLang

/-! ## Related expressions -/

section Relation

variable (l : Loop) (g : String) (known : String → Prop)

mutual

/-- The same expressions, but that the loop and the first call of the function that it becomes may
stand for each other; only known functions are called. -/
inductive Related : Expr → Expr → Prop where
  | integer {t v} : Related (.integer t v) (.integer t v)
  | var {t name} : Related (.var t name) (.var t name)
  | call {t name es es'} (callee : known name) (args : AllRelated es es') :
      Related (.call t name es) (.call t name es')
  | cond {t c c' a a' b b'} (test : Related c c') (thenBranch : Related a a')
      (elseBranch : Related b b') : Related (.cond t c a b) (.cond t c' a' b')
  | unary {t op e e'} (operand : Related e e') : Related (.unary t op e) (.unary t op e')
  | binary {t op a a' b b'} (lhs : Related a a') (rhs : Related b b') :
      Related (.binary t op a b) (.binary t op a' b')
  | letIn {t bs bs' e e'} (bindings : BindingsRelated bs bs') (body : Related e e') :
      Related (.letIn t bs e) (.letIn t bs' e')
  | loop {t bs bs' e e'} (bindings : BindingsRelated bs bs') (body : Related e e') :
      Related (.loop t bs e) (.loop t bs' e')
  | recur {t es es'} (args : AllRelated es es') : Related (.recur t es) (.recur t es')
  | outlined {t bs e} (callee : known g) (here : .loop t bs e = l.expr)
      (bindings : BindingsRelated bs bs) (body : Related e e) :
      Related (.loop t bs e) (l.entry g)
  | inlined {t bs e} (callee : known g) (here : .letIn t bs e = l.entry g)
      (bindings : BindingsRelated bs bs) (body : Related e e) : Related (.letIn t bs e) l.expr

/-- Related expressions, one by one. -/
inductive AllRelated : List Expr → List Expr → Prop where
  | nil : AllRelated [] []
  | cons {e e' es es'} (first : Related e e') (others : AllRelated es es') :
      AllRelated (e :: es) (e' :: es')

/-- The same names for related expressions. -/
inductive BindingsRelated : List Binding → List Binding → Prop where
  | nil : BindingsRelated [] []
  | cons {b b' bs bs'} (named : b'.name = b.name) (first : Related b.value b'.value)
      (others : BindingsRelated bs bs') : BindingsRelated (b :: bs) (b' :: bs')

end

/-- The known functions of the one program have counterparts in the other one, which also has the
function that the loop becomes, if this is a known one. -/
structure Counterparts (p q : Program) : Prop where
  function {name f} (callee : known name) (found : p.lookup? name = some f) :
    ∃ f', q.lookup? name = some f' ∧ f'.params = f.params ∧ Related l g known f.body f'.body
  outlined (callee : known g) : q.lookup? g = some (l.function g)

end Relation

theorem BindingsRelated.names {l : Loop} {g : String} {known : String → Prop}
    {bs bs' : List Binding} (h : BindingsRelated l g known bs bs') :
    bs'.map Binding.name = bs.map Binding.name := by
  match h with
  | .nil => rfl
  | .cons named _ others =>
    rw [List.map_cons, List.map_cons, named, others.names]

/-! ## Expressions related to themselves -/

section Reflexivity

variable {l : Loop} {g : String} {known : String → Prop}

mutual

theorem Expr.related_self {e : Expr} (h : ∀ n ∈ e.nodes, n.CallsKnown known) :
    Related l g known e e := by
  match e with
  | .integer _ _ => exact .integer
  | .var _ _ => exact .var
  | .call _ _ args =>
    obtain ⟨callee, parts⟩ := List.forall_mem_cons.mp h
    exact .call callee (Expr.allRelated_self parts)
  | .cond _ test thenBranch elseBranch =>
    obtain ⟨_, first, second, third⟩ := Expr.forall_nodes_cond.mp h
    exact .cond (Expr.related_self first) (Expr.related_self second) (Expr.related_self third)
  | .unary _ _ operand => exact .unary (Expr.related_self (List.forall_mem_cons.mp h).2)
  | .binary _ _ lhs rhs =>
    obtain ⟨left, _, right⟩ := Expr.forall_nodes_binary.mp h
    exact .binary (Expr.related_self left) (Expr.related_self right)
  | .letIn _ bindings body =>
    obtain ⟨_, first, last⟩ := Expr.forall_nodes_letIn.mp h
    exact .letIn (Binding.allRelated_self first) (Expr.related_self last)
  | .loop _ bindings body =>
    obtain ⟨_, first, last⟩ := Expr.forall_nodes_loop.mp h
    exact .loop (Binding.allRelated_self first) (Expr.related_self last)
  | .recur _ args => exact .recur (Expr.allRelated_self (List.forall_mem_cons.mp h).2)

theorem Expr.allRelated_self {es : List Expr} (h : ∀ n ∈ Expr.allNodes es, n.CallsKnown known) :
    AllRelated l g known es es := by
  match es with
  | [] => exact .nil
  | e :: es =>
    obtain ⟨first, others⟩ := List.forall_mem_append.mp h
    exact .cons (Expr.related_self first) (Expr.allRelated_self others)

theorem Binding.allRelated_self {bs : List Binding}
    (h : ∀ n ∈ Binding.allNodes bs, n.CallsKnown known) : BindingsRelated l g known bs bs := by
  match bs with
  | [] => exact .nil
  | ⟨_, value⟩ :: bs =>
    obtain ⟨_, first, others⟩ := Binding.forall_allNodes_cons.mp h
    exact .cons rfl (Expr.related_self first) (Binding.allRelated_self others)

end

end Reflexivity

/-! ## One node replaced -/

/-- The second expression is the first one with one node `a` in it replaced by `b`. -/
inductive Expr.Replaces (a b : Expr) : Expr → Expr → Prop where
  | here : Replaces a b a b
  | callArg {t name before e e' after} (inside : Replaces a b e e') :
      Replaces a b (.call t name (before ++ e :: after)) (.call t name (before ++ e' :: after))
  | test {t e e' c d} (inside : Replaces a b e e') :
      Replaces a b (.cond t e c d) (.cond t e' c d)
  | thenBranch {t c e e' d} (inside : Replaces a b e e') :
      Replaces a b (.cond t c e d) (.cond t c e' d)
  | elseBranch {t c d e e'} (inside : Replaces a b e e') :
      Replaces a b (.cond t c d e) (.cond t c d e')
  | operand {t op e e'} (inside : Replaces a b e e') :
      Replaces a b (.unary t op e) (.unary t op e')
  | lhs {t op e e' d} (inside : Replaces a b e e') :
      Replaces a b (.binary t op e d) (.binary t op e' d)
  | rhs {t op d e e'} (inside : Replaces a b e e') :
      Replaces a b (.binary t op d e) (.binary t op d e')
  | letBinding {t before i e e' after body} (inside : Replaces a b e e') :
      Replaces a b (.letIn t (before ++ ⟨i, e⟩ :: after) body)
        (.letIn t (before ++ ⟨i, e'⟩ :: after) body)
  | letBody {t bs e e'} (inside : Replaces a b e e') :
      Replaces a b (.letIn t bs e) (.letIn t bs e')
  | loopBinding {t before i e e' after body} (inside : Replaces a b e e') :
      Replaces a b (.loop t (before ++ ⟨i, e⟩ :: after) body)
        (.loop t (before ++ ⟨i, e'⟩ :: after) body)
  | loopBody {t bs e e'} (inside : Replaces a b e e') :
      Replaces a b (.loop t bs e) (.loop t bs e')
  | recurArg {t before e e' after} (inside : Replaces a b e e') :
      Replaces a b (.recur t (before ++ e :: after)) (.recur t (before ++ e' :: after))

/-- Every function may be called. -/
def AnyFunction : String → Prop := fun _ => True

theorem Node.callsKnown_any (n : Node) : n.CallsKnown AnyFunction := by
  unfold CallsKnown
  split <;> trivial

section Replacement

variable {l : Loop} {g : String} {a b e e' : Expr}

theorem Expr.Replaces.symm (h : Expr.Replaces a b e e') : Expr.Replaces b a e' e := by
  induction h <;> constructor <;> assumption

theorem Expr.related_any (e : Expr) : Related l g AnyFunction e e :=
  Expr.related_self fun n _ => n.callsKnown_any

theorem Binding.allRelated_any (bs : List Binding) : BindingsRelated l g AnyFunction bs bs :=
  Binding.allRelated_self fun n _ => n.callsKnown_any

theorem AllRelated.insert (h : Related l g AnyFunction e e') (before after : List Expr) :
    AllRelated l g AnyFunction (before ++ e :: after) (before ++ e' :: after) := by
  induction before with
  | nil => exact .cons h (Expr.allRelated_self fun n _ => n.callsKnown_any)
  | cons d before ih => exact .cons d.related_any ih

theorem BindingsRelated.insert (h : Related l g AnyFunction e e') {i : Ident}
    (before after : List Binding) :
    BindingsRelated l g AnyFunction (before ++ ⟨i, e⟩ :: after) (before ++ ⟨i, e'⟩ :: after) := by
  induction before with
  | nil => exact .cons rfl h (Binding.allRelated_any after)
  | cons d before ih => exact .cons rfl d.value.related_any ih

/-- Where one node is replaced by a related one, the whole expressions are related. -/
theorem Expr.Replaces.related (h : Expr.Replaces a b e e') (node : Related l g AnyFunction a b) :
    Related l g AnyFunction e e' := by
  induction h with
  | here => exact node
  | callArg _ ih => exact .call trivial (.insert ih _ _)
  | test _ ih => exact .cond ih (Expr.related_any _) (Expr.related_any _)
  | thenBranch _ ih => exact .cond (Expr.related_any _) ih (Expr.related_any _)
  | elseBranch _ ih => exact .cond (Expr.related_any _) (Expr.related_any _) ih
  | operand _ ih => exact .unary ih
  | lhs _ ih => exact .binary ih (Expr.related_any _)
  | rhs _ ih => exact .binary (Expr.related_any _) ih
  | letBinding _ ih => exact .letIn (.insert ih _ _) (Expr.related_any _)
  | letBody _ ih => exact .letIn (Binding.allRelated_any _) ih
  | loopBinding _ ih => exact .loop (.insert ih _ _) (Expr.related_any _)
  | loopBody _ ih => exact .loop (Binding.allRelated_any _) ih
  | recurArg _ ih => exact .recur (.insert ih _ _)

theorem Loop.related_entry (l : Loop) (g : String) :
    Related l g AnyFunction l.expr (l.entry g) :=
  .outlined trivial rfl (Binding.allRelated_any _) (Expr.related_any _)

theorem Loop.related_expr (l : Loop) (g : String) :
    Related l g AnyFunction (l.entry g) l.expr :=
  .inlined trivial rfl (Binding.allRelated_any _) (Expr.related_any _)

end Replacement

/-! ## Simulation -/

namespace BigStep

section Simulation

variable {l : Loop} {g : String} {known : String → Prop} {p q : Program}

mutual

/-- What an expression ends with, a related one ends with in the other program, errors apart. -/
theorem Eval.related {σ : Scope} {e : Expr} {r : Except RuntimeError Ending} (h : Eval p σ e r)
    (closed : l.Closed) (others : Counterparts l g known p q) {e' : Expr}
    (related : Related l g known e e') {ending : Ending} (ok : r = .ok ending) :
    Eval q σ e' (.ok ending) := by
  match h with
  | .integer =>
    cases related
    exact ok ▸ .integer
  | .var bound =>
    cases related
    exact ok ▸ .var bound
  | .call args result =>
    cases related with
    | call callee args' =>
      exact ok ▸ .call (args.related closed others args' rfl)
        (result.related closed others callee rfl)
  | .ifTrue test nonzero branch =>
    cases related with
    | cond test' thenBranch _ =>
      exact .ifTrue (test.related closed others test' rfl) nonzero
        (branch.related closed others thenBranch ok)
  | .ifFalse test branch =>
    cases related with
    | cond test' _ elseBranch =>
      exact .ifFalse (test.related closed others test' rfl)
        (branch.related closed others elseBranch ok)
  | .unary operand =>
    cases related with
    | unary operand' => exact ok ▸ .unary (operand.related closed others operand' rfl)
  | .binary lhs rhs =>
    cases related with
    | binary lhs' rhs' =>
      exact ok ▸ .binary (lhs.related closed others lhs' rfl) (rhs.related closed others rhs' rfl)
  | .letIn bindings body =>
    cases related with
    | letIn bindings' body' =>
      exact .letIn (bindings.related closed others bindings' rfl)
        (body.related closed others body' ok)
    | inlined callee here bindings' body' =>
      have entry : Eval q σ (l.entry g) (.ok ending) :=
        here ▸ .letIn (bindings.related closed others bindings' rfl)
          (body.related closed others body' ok)
      exact (eval_entry_iff closed (others.outlined callee)).mp entry
  | .loop bindings rounds =>
    cases related with
    | loop bindings' body =>
      have rounds' := rounds.related closed others body rfl
      rw [← bindings'.names] at rounds'
      exact ok ▸ .loop (bindings.related closed others bindings' rfl) rounds'
    | outlined callee here bindings' body =>
      have loop : Eval q σ l.expr (.ok ending) :=
        ok ▸ here ▸ .loop (bindings.related closed others bindings' rfl)
          (rounds.related closed others body rfl)
      exact (eval_entry_iff closed (others.outlined callee)).mpr loop
  | .recur args =>
    cases related with
    | recur args' => exact ok ▸ .recur (args.related closed others args' rfl)
  | .unbound _ | .callFails _ _ | .callArgFails _ | .ifFails _ | .unaryFails _ | .leftFails _
  | .rightFails _ _ | .letFails _ | .loopFails _ _ | .loopBindingFails _ | .recurFails _ =>
    cases ok

theorem Value.related {σ : Scope} {site : RecurSite} {e : Expr} {r : Except RuntimeError Int64}
    (h : Value p σ site e r) (closed : l.Closed) (others : Counterparts l g known p q) {e' : Expr}
    (related : Related l g known e e') {v : Int64} (ok : r = .ok v) :
    Value q σ site e' (.ok v) := by
  match h with
  | .value expr => exact ok ▸ .value (expr.related closed others related rfl)
  | .pending _ | .fails _ => cases ok

theorem Args.related {σ : Scope} {es : List Expr} {r : Except RuntimeError (List Int64)}
    (h : Args p σ es r) (closed : l.Closed) (others : Counterparts l g known p q) {es' : List Expr}
    (related : AllRelated l g known es es') {vs : List Int64} (ok : r = .ok vs) :
    Args q σ es' (.ok vs) := by
  match h with
  | .nil =>
    cases related
    exact ok ▸ .nil
  | .cons first rest =>
    cases related with
    | cons first' rest' =>
      exact ok ▸ .cons (first.related closed others first' rfl)
        (rest.related closed others rest' rfl)
  | .firstFails _ | .othersFail _ _ => cases ok

theorem Bindings.related {σ : Scope} {bs : List Binding} {r : Except RuntimeError Scope}
    (h : Bindings p σ bs r) (closed : l.Closed) (others : Counterparts l g known p q)
    {bs' : List Binding} (related : BindingsRelated l g known bs bs') {σ' : Scope}
    (ok : r = .ok σ') : Bindings q σ bs' (.ok σ') := by
  match h with
  | .nil =>
    cases related
    exact ok ▸ .nil
  | .cons first rest =>
    cases related with
    | cons named first' rest' =>
      have rest := rest.related closed others rest' ok
      rw [← named] at rest
      exact .cons (first.related closed others first' rfl) rest
  | .fails _ => cases ok

theorem Rounds.related {σ : Scope} {names : List String} {e : Expr}
    {r : Except RuntimeError Int64} (h : Rounds p σ names e r) (closed : l.Closed)
    (others : Counterparts l g known p q) {e' : Expr} (related : Related l g known e e')
    {v : Int64} (ok : r = .ok v) : Rounds q σ names e' (.ok v) := by
  match h with
  | .done body => exact ok ▸ .done (body.related closed others related rfl)
  | .again body fits rest =>
    exact .again (body.related closed others related rfl) fits
      (rest.related closed others related ok)
  | .arity _ _ | .fails _ => cases ok

theorem Call.related {name : String} {pos : Position} {vs : List Int64}
    {r : Except RuntimeError Int64} (h : Call p name pos vs r) (closed : l.Closed)
    (others : Counterparts l g known p q) (callee : known name) {v : Int64} (ok : r = .ok v) :
    Call q name pos vs (.ok v) := by
  match h with
  | .returns found fits body =>
    obtain ⟨f', found', params, related⟩ := others.function callee found
    have body' := body.related closed others related rfl
    rw [← params] at fits body'
    exact ok ▸ .returns found' fits body'
  | .undefined _ | .arity _ _ | .escapes _ _ _ | .fails _ _ _ => cases ok

end

end Simulation

end BigStep

/-! ## Whole programs -/

/-- The program ends with the value if, and only if, no two functions share a name and the call of
`main` ends with it. -/
theorem Program.exists_evaluate_ok_iff {p : Program} {args : List Int64} {v : Int64} :
    (∃ fuel, p.evaluate fuel args = .ok v) ↔
      (p.functions.map Function.name).Nodup ∧ BigStep.Call p "main" .nowhere args (.ok v) := by
  have runs : ∀ fuel, p.evaluate fuel args = .ok v ↔ p.duplicate? = none
      ∧ p.call (p.eval fuel) "main" .nowhere args = .ok v := by
    intro fuel
    unfold Program.evaluate Program.call
    cases p.duplicate? with
    | some f => simp
    | none =>
      cases p.lookup? "main" with
      | none => simp
      | some main =>
        simp only [true_and]
        split <;> simp
  simp only [runs, exists_and_left, Program.duplicate?_eq_none_iff]
  refine and_congr_right fun _ => ⟨fun ⟨fuel, run⟩ => ?_, fun derived => ?_⟩
  · have sound := (BigStep.sound_eval p fuel).call "main" .nowhere args
    rw [run] at sound
    exact sound
  · exact derived.ends.exists

/-- The program `p'` is `p` with a loop taken out: one place where the loop stands is replaced by
the first call of the function that it becomes, and this function is new. The loop knows no other
names than its own, which are distinct, and no function of `p` has the name `g` or calls it. -/
structure Loop.Outlines (l : Loop) (g : String) (p p' : Program) : Prop where
  closed : l.Closed
  distinct : l.names.Nodup
  undefined : ∀ f ∈ p.functions, f.name ≠ g
  uncalled : ∀ n ∈ p.nodes, n.CallsKnown (· ≠ g)
  replaced : ∃ before f after body, p.functions = before ++ f :: after
    ∧ Expr.Replaces l.expr (l.entry g) f.body body
    ∧ p'.functions.Perm (l.function g :: (before ++ { f with body := body } :: after))

/-- The program with the function that the loop becomes. -/
def Loop.extend (l : Loop) (g : String) (p : Program) : Program :=
  ⟨l.function g :: p.functions⟩

section Extension

variable {l : Loop} {g : String} {p p' : Program}

theorem Loop.lookup?_extend {name : String} (other : name ≠ g) :
    (l.extend g p).lookup? name = p.lookup? name := by
  have differs : ¬((l.function g).name == name) = true := by
    simpa [Loop.function, Function.name] using other.symm
  exact List.find?_cons_of_neg differs

/-- Code that does not call the new function cannot tell whether it is there. -/
theorem Loop.call_extend_iff {name : String} {pos : Position} {vs : List Int64} {v : Int64}
    (closed : l.Closed) (uncalled : ∀ n ∈ p.nodes, n.CallsKnown (· ≠ g)) (other : name ≠ g) :
    BigStep.Call (l.extend g p) name pos vs (.ok v) ↔ BigStep.Call p name pos vs (.ok v) := by
  have self : ∀ {name f}, p.lookup? name = some f → Related l g (· ≠ g) f.body f.body := by
    intro name f found
    refine Expr.related_self fun n mem => uncalled n (Program.mem_nodes.mpr ⟨f, ?_, ?_⟩)
    · exact (Program.lookup?_eq_some found).1
    · simp [Function.nodes, mem]
  have smaller : Counterparts l g (· ≠ g) (l.extend g p) p := by
    refine ⟨fun callee found => ?_, fun same => absurd rfl same⟩
    rw [Loop.lookup?_extend callee] at found
    exact ⟨_, found, rfl, self found⟩
  have larger : Counterparts l g (· ≠ g) p (l.extend g p) := by
    refine ⟨fun callee found => ⟨_, ?_, rfl, self found⟩, fun same => absurd rfl same⟩
    rw [Loop.lookup?_extend callee, found]
  exact ⟨fun h => h.related closed smaller other rfl, fun h => h.related closed larger other rfl⟩

end Extension

/-- Where names are distinct, it is enough that each function has a counterpart of the same name. -/
theorem counterparts_of_mem {l : Loop} {g : String} {p q : Program}
    (distinct : (q.functions.map Function.name).Nodup) (mine : l.function g ∈ q.functions)
    (each : ∀ f ∈ p.functions, ∃ f' ∈ q.functions, f'.name = f.name ∧ f'.params = f.params
      ∧ Related l g AnyFunction f.body f'.body) : Counterparts l g AnyFunction p q where
  function _ found := by
    obtain ⟨mem, named⟩ := Program.lookup?_eq_some found
    obtain ⟨f', mem', named', params, related⟩ := each _ mem
    have found' := Program.lookup?_name distinct mem'
    rw [named', named] at found'
    exact ⟨f', found', params, related⟩
  outlined _ := Program.lookup?_name distinct mine

/-- Where one function of a list is replaced by a counterpart, every function has one. -/
theorem exists_counterpart {l : Loop} {g : String} {before after : List Function}
    (f f' : Function) (named : f'.name = f.name) (params : f'.params = f.params)
    (related : Related l g AnyFunction f.body f'.body) {h : Function}
    (mem : h ∈ before ++ f :: after) :
    ∃ h' ∈ before ++ f' :: after, h'.name = h.name ∧ h'.params = h.params
      ∧ Related l g AnyFunction h.body h'.body := by
  simp only [List.mem_append, List.mem_cons] at mem
  rcases mem with mem | rfl | mem
  · exact ⟨h, by simp [mem], rfl, rfl, h.body.related_any⟩
  · exact ⟨f', by simp, named, params, related⟩
  · exact ⟨h, by simp [mem], rfl, rfl, h.body.related_any⟩

namespace Loop.Outlines

variable {l : Loop} {g : String} {p p' : Program}

theorem names_perm (h : l.Outlines g p p') :
    (p'.functions.map Function.name).Perm ((l.extend g p).functions.map Function.name) := by
  obtain ⟨before, f, after, body, split, _, perm⟩ := h.replaced
  refine (perm.map Function.name).trans (.of_eq ?_)
  simp [Loop.extend, split, Function.name]

theorem nodup_extend_iff (h : l.Outlines g p p') :
    ((l.extend g p).functions.map Function.name).Nodup ↔ (p.functions.map Function.name).Nodup := by
  have fresh : g ∉ p.functions.map Function.name := by
    intro mem
    obtain ⟨f, mem, named⟩ := List.mem_map.mp mem
    exact h.undefined f mem named
  exact List.nodup_cons.trans (and_iff_right fresh)

/-- With the new function on both sides, the loop and the first call stand for each other. -/
theorem counterparts (h : l.Outlines g p p')
    (distinct : ((l.extend g p).functions.map Function.name).Nodup) :
    Counterparts l g AnyFunction (l.extend g p) p'
      ∧ Counterparts l g AnyFunction p' (l.extend g p) := by
  have distinct' := h.names_perm.nodup_iff.mpr distinct
  obtain ⟨before, f, after, body, split, replaced, perm⟩ := h.replaced
  have functions : (l.extend g p).functions = (l.function g :: before) ++ f :: after :=
    congrArg (List.cons _) split
  constructor
  · refine counterparts_of_mem distinct' (perm.mem_iff.mpr List.mem_cons_self) fun h mem => ?_
    rw [functions] at mem
    have bodies := replaced.related (l.related_entry g)
    obtain ⟨h', mem', same⟩ := exists_counterpart f { f with body := body } rfl rfl bodies mem
    exact ⟨h', perm.mem_iff.mpr mem', same⟩
  · refine counterparts_of_mem distinct List.mem_cons_self fun h mem => ?_
    rw [functions]
    exact exists_counterpart { f with body := body } f rfl rfl
      (replaced.symm.related (l.related_expr g)) (perm.mem_iff.mp mem)

/-- **A loop computes what the function that it becomes computes.** Where a loop is taken out of a
program, the program ends with the same values for the same arguments, unless the new function is
what the program runs. -/
theorem evaluate_ok_iff (h : l.Outlines g p p') (notMain : g ≠ "main") (args : List Int64)
    (v : Int64) :
    (∃ fuel, p.evaluate fuel args = .ok v) ↔ ∃ fuel, p'.evaluate fuel args = .ok v := by
  rw [Program.exists_evaluate_ok_iff, Program.exists_evaluate_ok_iff, h.names_perm.nodup_iff,
    h.nodup_extend_iff]
  refine and_congr_right fun distinct => ?_
  rw [← Loop.call_extend_iff h.closed h.uncalled notMain.symm]
  obtain ⟨there, back⟩ := h.counterparts (h.nodup_extend_iff.mpr distinct)
  exact ⟨fun run => run.related h.closed there trivial rfl,
    fun run => run.related h.closed back trivial rfl⟩

end Loop.Outlines

/-- The loop `loop i = n in if i < 10 then recur(i + i) else i end end`, without the tokens of its
source. -/
def Loop.doubling : Loop :=
  let t : Token := .endOfText .nowhere
  ⟨t, [⟨⟨t, "i"⟩, .var t "n"⟩],
    .cond t (.binary t .less (.var t "i") (.integer t 10))
      (.recur t [.binary t .add (.var t "i") (.var t "i")]) (.var t "i")⟩

/-- A function of one parameter `n`. -/
def Function.ofBody (name : String) (body : Expr) : Function :=
  let t : Token := .endOfText .nowhere
  ⟨t, ⟨t, name⟩, [⟨t, "n"⟩], body⟩

theorem Loop.doubling_outlines {host g : String} (differs : host ≠ g) :
    doubling.Outlines g ⟨[.ofBody host doubling.expr]⟩
      ⟨[doubling.function g, .ofBody host (doubling.entry g)]⟩ where
  closed := by
    unfold Closed
    decide
  distinct := by decide
  undefined := by simpa [Function.ofBody, Function.name] using differs
  uncalled := by simp [Program.nodes, Function.nodes, Function.ofBody, doubling, Loop.expr,
    Expr.nodes, Binding.allNodes, Expr.allNodes, Node.CallsKnown]
  replaced := ⟨[], .ofBody host doubling.expr, [], doubling.entry g, rfl, .here, .refl _⟩

theorem Loop.doubling_evaluate_ok :
    ∃ fuel, Program.evaluate
      ⟨[doubling.function "go", .ofBody "main" (doubling.entry "go")]⟩ fuel [5] = .ok 10 :=
  ((doubling_outlines (by decide)).evaluate_ok_iff (by decide) [5] 10).mp ⟨10, by decide +kernel⟩

/-- A new function `main` is what the program runs, where it had nothing to run before. -/
theorem Loop.doubling_evaluate_main :
    doubling.Outlines "main" ⟨[.ofBody "f" doubling.expr]⟩
        ⟨[doubling.function "main", .ofBody "f" (doubling.entry "main")]⟩
      ∧ (∃ fuel, Program.evaluate
        ⟨[doubling.function "main", .ofBody "f" (doubling.entry "main")]⟩ fuel [5] = .ok 10)
      ∧ ∀ fuel, Program.evaluate ⟨[.ofBody "f" doubling.expr]⟩ fuel [5] = .error (.error .noMain) :=
  ⟨doubling_outlines (by decide), ⟨10, by decide +kernel⟩, fun _ => rfl⟩

end LoopLang
