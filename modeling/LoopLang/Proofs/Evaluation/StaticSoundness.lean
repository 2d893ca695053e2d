import LoopLang.Proofs.Evaluation.StackDiscipline
import LoopLang.Proofs.Program.Lookup

set_option autoImplicit false

/-! # Checked programs do not fail

A program is checked if its functions have distinct names, one of them is `main`, and every body
keeps three rules: a variable is bound where it stands, a call names a function of the program and
passes it as many arguments as it has parameters, and a `recur` stands in tail position of the body
of a loop and passes it as many arguments as it has bindings. No run of such a program ends in an
error: the names on the stack are always those of the scope, and a pending `recur` always fits the
loop around it. -/

namespace LoopLang

open Run

/-! ## The check -/

mutual

/-- The rules for an expression of the program `p`. The `names` are in scope, the innermost first,
and `tail` is the number of bindings of the loop of whose body the expression is in tail position,
if it is. -/
def Expr.Checked (p : Program) (names : List String) (tail : Option Nat) : Expr → Prop
  | .integer _ _ => True
  | .var _ name => name ∈ names
  | .call _ name args =>
    (∃ f ∈ p.functions, f.name = name ∧ args.length = f.params.length)
      ∧ Expr.AllChecked p names args
  | .cond _ test thenBranch elseBranch =>
    test.Checked p names none ∧ thenBranch.Checked p names tail ∧ elseBranch.Checked p names tail
  | .unary _ _ operand => operand.Checked p names none
  | .binary _ _ lhs rhs => lhs.Checked p names none ∧ rhs.Checked p names none
  | .letIn _ bindings body =>
    Binding.AllChecked p names bindings
      ∧ body.Checked p ((bindings.map Binding.name).reverse ++ names) tail
  | .loop _ bindings body =>
    Binding.AllChecked p names bindings
      ∧ body.Checked p ((bindings.map Binding.name).reverse ++ names) (some bindings.length)
  | .recur _ args => tail = some args.length ∧ Expr.AllChecked p names args

/-- The rules for arguments, none of which is in tail position. -/
def Expr.AllChecked (p : Program) (names : List String) : List Expr → Prop
  | [] => True
  | e :: es => e.Checked p names none ∧ Expr.AllChecked p names es

/-- The rules for bindings, each of which sees those before it. -/
def Binding.AllChecked (p : Program) (names : List String) : List Binding → Prop
  | [] => True
  | ⟨ident, value⟩ :: bs =>
    value.Checked p names none ∧ Binding.AllChecked p (ident.name :: names) bs

end

/-- The rules for a program. -/
structure Program.Checked (p : Program) : Prop where
  distinct : (p.functions.map Function.name).Nodup
  main : ∃ f ∈ p.functions, f.name = "main"
  bodies : ∀ f ∈ p.functions, f.body.Checked p (f.params.map Ident.name).reverse none

theorem Expr.allChecked_iff {p : Program} {names : List String} {es : List Expr} :
    Expr.AllChecked p names es ↔ ∀ e ∈ es, e.Checked p names none := by
  induction es with
  | nil => simp [Expr.AllChecked]
  | cons e es ih => simp [Expr.AllChecked, ih]

theorem Binding.allChecked_cons {p : Program} {names : List String} {b : Binding}
    {bs : List Binding} :
    Binding.AllChecked p names (b :: bs) ↔
      b.value.Checked p names none ∧ Binding.AllChecked p (b.name :: names) bs := by
  cases b
  exact Iff.rfl

/-- A pending `recur` fits the loop of whose body the expression is in tail position. -/
def Ending.Fits (tail : Option Nat) : Ending → Prop
  | .value _ => True
  | .pending values _ => tail = some values.length

/-! ## Soundness of the check -/

namespace Run

/-- The stack `s` holds bindings of exactly these names. -/
def Binds (s : Stack) (names : List String) : Prop := s.map Slot.name = names

theorem Framed.binds {names outer : List String} {s t : Stack} (h : Framed names s t)
    (hs : Binds s outer) : Binds t (names.reverse ++ outer) := by
  obtain ⟨above, rfl, mine⟩ := h
  rw [Binds, List.map_append, mine, hs]

section Parts

variable {p : Program} {ev : Expr → Run Ending}

/-- The evaluation `ev` never fails on a checked expression, and what it ends with fits. -/
def Succeeds (p : Program) (ev : Expr → Run Ending) : Prop :=
  ∀ e names tail s, e.Checked p names tail → Binds s names →
    Ensures (ev e) s (fun ending t => t = s ∧ ending.Fits tail) fun _ _ => False

theorem Succeeds.value (h : Succeeds p ev) {site : RecurSite} {e : Expr} {names : List String}
    {s : Stack} (he : e.Checked p names none) (hs : Binds s names) :
    Ensures (Run.value ev site e) s (fun _ t => t = s) fun _ _ => False :=
  (h e names none s he hs).value (fun _ _ ht => ht.1) fun _ _ _ ht => nomatch ht.2

theorem Succeeds.args (h : Succeeds p ev) {es : List Expr} {names : List String} {s : Stack}
    (hes : Expr.AllChecked p names es) (hs : Binds s names) :
    Ensures (Run.args ev es) s (fun vs t => t = s ∧ vs.length = es.length) fun _ _ => False :=
  ensures_args fun e mem => h.value (Expr.allChecked_iff.mp hes e mem) hs

theorem Succeeds.bindings (h : Succeeds p ev) (keeps : ∀ e, Keeps (ev e)) {bs : List Binding}
    {names : List String} {s : Stack} (hbs : Binding.AllChecked p names bs) (hs : Binds s names) :
    Ensures (Run.bindings ev bs) s (fun _ t => Framed (bs.map Binding.name) s t)
      fun _ _ => False := by
  -- the bindings still to come are checked for exactly the names that the stack holds by then
  let I : List Binding → Stack → Prop := fun rest t =>
    ∃ seen, Binding.AllChecked p seen rest ∧ Binds t seen
  have checked : Ensures (Run.bindings ev bs) s (fun _ t => I [] t) fun _ _ => False := by
    refine ensures_bindings ⟨names, hbs, hs⟩ fun b rest t ht => ?_
    obtain ⟨seen, both, names⟩ := ht
    obtain ⟨hb, hrest⟩ := Binding.allChecked_cons.mp both
    refine (h.value hb names).mono_post fun v u hu => ?_
    subst hu
    exact ⟨b.name :: seen, hrest, by rw [Binds, Stack.map_name_push, names]⟩
  exact (checked.and (ensures_bindings_framed keeps bs s)).mono (fun _ _ ht => ht.2)
    fun _ _ ht => ht.1

theorem Succeeds.rounds (h : Succeeds p ev) {body : Expr} {names outer : List String}
    {s t : Stack} {n : Nat} (hbody : body.Checked p (names.reverse ++ outer) (some names.length))
    (hs : Binds s outer) (framed : Framed names s t) :
    Ensures (Run.rounds ev s.length names body n) t (fun _ u => Framed names s u)
      fun _ _ => False := by
  have round : ∀ u, Framed names s u → Ensures (ev body) u
      (fun ending v => Framed names s v ∧ ending.Fits (some names.length)) fun _ _ => False :=
    fun u hu => (h body _ _ u hbody (hu.binds hs)).mono_post fun _ v hv => ⟨hv.1 ▸ hu, hv.2⟩
  -- new values leave the names as they are, so the next round is checked for the same scope
  refine ensures_rounds framed round (fun _ _ hu => hu.1) (fun vs _ u hu same => ?_)
    fun vs _ u hu differ => ?_
  · obtain ⟨above, rfl, mine⟩ := hu.1
    exact (ensures_rebind mine same).mono_post fun _ _ hv => ⟨_, hv, Stack.map_name_frame same⟩
  · exact differ (Option.some.inj hu.2).symm

theorem Succeeds.call (h : Succeeds p ev) (checked : p.Checked) {name : String} {pos : Position}
    {values : List Int64}
    (fits : ∃ f ∈ p.functions, f.name = name ∧ values.length = f.params.length) :
    Returns (p.call ev name pos values) (fun _ => True) fun _ => False := by
  obtain ⟨f, mem, rfl, same⟩ := fits
  have found := Program.lookup?_name checked.distinct mem
  refine returns_call (fun missing => ?_) (fun g hg differ => ?_) fun g hg _ => ?_
  · rw [found] at missing
    cases missing
  · rw [found] at hg
    cases hg
    exact differ same
  · rw [found] at hg
    cases hg
    have names : Binds (.ofArgs f.params values) (f.params.map Ident.name).reverse :=
      Stack.map_name_frame (by rw [List.length_map, same])
    exact (h f.body _ _ _ (checked.bodies f mem) names).enter (fun _ _ _ => trivial)
      fun _ _ _ ht => nomatch ht.2

end Parts

end Run

theorem Program.Checked.succeeds_eval {p : Program} (checked : p.Checked) (fuel : Nat) :
    Succeeds p (p.eval fuel) := by
  induction fuel with
  | zero => exact fun _ _ _ _ _ _ => ensures_outOfFuel
  | succ n ih =>
    intro e names tail s he hs
    cases e with
    | integer _ v => exact ensures_pure ⟨rfl, trivial⟩
    | var token name =>
      have bound : s.get? name ≠ none := by
        obtain ⟨slot, mem, same⟩ := List.mem_map.mp (hs ▸ he : name ∈ s.map Slot.name)
        simpa [Stack.get?] using ⟨slot, mem, same⟩
      have fetched : Ensures (fetch name token.pos) s (fun _ t => t = s) fun _ _ => False :=
        ensures_fetch (fun _ _ => rfl) bound
      exact fetched.bind fun v t ht => ensures_pure ⟨ht, trivial⟩
    | call token name args =>
      refine (ih.args he.2 hs).bind fun vs t ht => ?_
      obtain ⟨rfl, same⟩ := ht
      have returns : Returns (p.call (p.eval n) name token.pos vs) _ _ :=
        ih.call checked (same ▸ he.1)
      exact (returns.ensures.mono (fun _ _ ht => ht.1) fun _ _ ht => ht.2).bind
        fun _ t ht => ensures_pure ⟨ht, trivial⟩
    | cond _ test thenBranch elseBranch =>
      obtain ⟨htest, hthen, helse⟩ := he
      refine (ih.value htest hs).bind fun v t ht => ?_
      subst ht
      split
      · exact ih _ _ _ _ helse hs
      · exact ih _ _ _ _ hthen hs
    | unary _ op operand =>
      exact (ih.value he hs).bind fun v t ht => ensures_pure ⟨ht, trivial⟩
    | binary _ op lhs rhs =>
      refine (ih.value he.1 hs).bind fun l t ht => ?_
      subst ht
      exact (ih.value he.2 hs).bind fun r t ht => ensures_pure ⟨ht, trivial⟩
    | letIn _ bs body =>
      obtain ⟨hbs, hbody⟩ := he
      refine (ih.bindings (p.keeps_eval n) hbs hs).bind fun _ t framed => ?_
      refine (ih body _ tail t hbody (framed.binds hs)).thenPop (fun ending u hu => ?_)
        fun _ _ hu => hu.elim
      rw [hu.1, ← List.length_map Binding.name]
      exact ⟨framed.length_le, framed.drop, hu.2⟩
    | loop _ bs body =>
      obtain ⟨hbs, hbody⟩ := he
      rw [← List.length_map Binding.name] at hbody
      refine ensures_get_bind ?_
      refine (ih.bindings (p.keeps_eval n) hbs hs).bind fun _ t framed => ?_
      refine (ih.rounds hbody hs framed).bind fun v u framed => ?_
      exact framed.ensures_pop.bind fun _ w hw => ensures_pure ⟨hw, trivial⟩
    | recur token args =>
      obtain ⟨htail, hargs⟩ := he
      -- the loop to which the values are on their way has as many bindings as there are arguments
      refine (ih.args hargs hs).bind fun vs t ht => ensures_pure ⟨ht.1, ?_⟩
      rw [Ending.Fits, htail, ht.2]

/-- **Checked programs do not fail.** Given as many arguments as `main` has parameters, a checked
program ends with a value, however much fuel that takes, or does not end at all. -/
theorem Program.Checked.evaluate_ok {p : Program} (checked : p.Checked) {main : Function}
    (mem : main ∈ p.functions) (called : main.name = "main") {args : List Int64}
    (same : args.length = main.params.length) (fuel : Nat) :
    (∃ v, p.evaluate fuel args = .ok v) ∨ p.evaluate fuel args = .error .outOfFuel := by
  have alone : p.duplicate? = none := Program.duplicate?_eq_none_iff.mpr checked.distinct
  have found : p.lookup? "main" = some main := called ▸ Program.lookup?_name checked.distinct mem
  have names : Binds (.ofArgs main.params args) (main.params.map Ident.name).reverse :=
    Stack.map_name_frame (by rw [List.length_map, same])
  have returns : Returns (Run.enter (p.eval fuel) main args) (fun _ => True) fun _ => False :=
    (checked.succeeds_eval fuel _ _ _ _ (checked.bodies main mem) names).enter
      (fun _ _ _ => trivial) fun _ _ _ ht => nomatch ht.2
  have evaluated : p.evaluate fuel args = Run.enter (p.eval fuel) main args := by
    simp only [Program.evaluate, alone, found, if_pos same]
  rw [evaluated]
  exact returns.ok_or_outOfFuel.imp (fun ⟨v, h, _⟩ => ⟨v, h⟩) id

/-- The program `let sum n = loop a = 0 and i = n in if i == 0 then a else let a = a + i in
recur(a)(i + -1) end end end end let main n = sum(n) end`, without the tokens of its source. -/
def Program.sum : Program :=
  let t : Token := .endOfText .nowhere
  let ident (name : String) : Ident := ⟨t, name⟩
  let var (name : String) : Expr := .var t name
  let step : Expr := .letIn t [⟨ident "a", .binary t .add (var "a") (var "i")⟩]
    (.recur t [var "a", .binary t .add (var "i") (.unary t .neg (.integer t 1))])
  let body : Expr := .loop t [⟨ident "a", .integer t 0⟩, ⟨ident "i", var "n"⟩]
    (.cond t (.binary t .equal (var "i") (.integer t 0)) (var "a") step)
  ⟨[⟨t, ident "sum", [ident "n"], body⟩,
    ⟨t, ident "main", [ident "n"], .call t "sum" [var "n"]⟩]⟩

theorem Program.sum_evaluate_ok :
    Program.sum.Checked ∧ ∀ fuel, (∃ v, Program.sum.evaluate fuel [4] = .ok v)
      ∨ Program.sum.evaluate fuel [4] = .error .outOfFuel := by
  have checked : Program.sum.Checked := by
    refine ⟨by decide, ⟨_, List.mem_cons_of_mem _ List.mem_cons_self, rfl⟩, fun f mem => ?_⟩
    simp only [Program.sum, List.mem_cons, List.not_mem_nil, or_false] at mem
    rcases mem with rfl | rfl <;>
      simp [Program.sum, Expr.Checked, Expr.AllChecked, Binding.AllChecked, Binding.name,
        Function.name]
  have same : ([4] : List Int64).length = 1 := rfl
  exact ⟨checked, checked.evaluate_ok (List.mem_cons_of_mem _ List.mem_cons_self) rfl same⟩

end LoopLang
