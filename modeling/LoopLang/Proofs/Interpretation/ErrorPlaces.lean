import LoopLang.Interpretation
import LoopLang.Proofs.BigStep.Blame
import LoopLang.Proofs.Grammar.TreeNodes

set_option autoImplicit false

/-! # Where errors point in a source text

An error of a run comes from a place in the tree, and the nodes of a parsed tree keep the tokens of
the text that they were read from. So an error points at the very token that a reader would look
at: the name that has no meaning, the call that passes a wrong number of arguments, the `recur` that
has no loop to go to, or the function that takes the name of an earlier one. -/

namespace LoopLang

open Relation

/-! ## Parts and nodes -/

section Parts

variable {e a : Expr} {n : Node}

theorem Expr.HasPart.nodes_subset (h : e.HasPart a) (mem : n ∈ a.nodes) : n ∈ e.nodes := by
  cases h with
  | handedOn hands => cases hands <;> simp [Expr.nodes, mem]
  | loopBody => simp [Expr.nodes, mem]
  | needed needs =>
    cases needs with
    | callArg part | recurArg part =>
      exact List.mem_cons_of_mem _ (Expr.mem_allNodes.mpr ⟨a, part, mem⟩)
    | letBinding part | loopBinding part =>
      have value := Binding.mem_allNodes.mpr ⟨_, part, Or.inr mem⟩
      exact List.mem_cons_of_mem _ (List.mem_append_left _ value)
    | operand | lhs | rhs | test => simp [Expr.nodes, mem]

theorem Expr.Contains.mem_nodes (h : e.Contains a) : .expr a ∈ e.nodes := by
  induction h using ReflTransGen.head_induction_on with
  | refl => exact a.mem_nodes
  | head part _ ih => exact part.nodes_subset ih

theorem Program.Contains.mem_nodes {p : Program} (h : p.Contains e) : .expr e ∈ p.nodes := by
  obtain ⟨f, mem, path⟩ := h
  exact Program.mem_nodes.mpr ⟨f, mem, by simp [Function.nodes, path.mem_nodes]⟩

section Enclosed

variable {p : Program} {code : Expr → Prop}

theorem Program.Encloses.handsOn (closed : p.Encloses code) (mine : code e)
    (path : ReflTransGen Expr.HandsOn e a) : code a := by
  induction path with
  | refl => exact mine
  | tail _ hands ih => exact closed.part ih (.handedOn hands)

/-- With an expression that leads to a `recur` by tail positions, this `recur` is enclosed too. -/
theorem Program.Encloses.recur {pos : Position} {count : Nat} (closed : p.Encloses code)
    (mine : code e) (tail : e.TailRecur pos count) :
    ∃ t args, code (.recur t args) ∧ t.pos = pos ∧ args.length = count := by
  obtain ⟨t, args, path, here, same⟩ := tail
  exact ⟨t, args, closed.handsOn mine path, here, same⟩

end Enclosed

end Parts

/-! ## Tokens of nodes -/

namespace Grammar

section Tokens

variable {ts : List Token} {t : Token} {name : String} {args : List Expr}

/-- A variable is its name alone, and nothing is passed to it. -/
theorem Occurs.var (h : Occurs ts (.var t name)) :
    ∃ before after, ts = before ++ t :: after ∧ ∀ u ∈ after.head?, u.kind ≠ .symbol .leftParen := by
  obtain ⟨before, us, after, rfl, derived, follow⟩ := h
  change Primary (t :: us) _ at derived
  cases derived with
  | var _ => exact ⟨before, after, rfl, follow⟩
  | group left inner _ =>
    obtain ⟨word, _⟩ := inner.holds.fits _ (Expr.mem_nodes _)
    rw [left] at word
    cases word

/-- A call is its name with an opening parenthesis behind it. -/
theorem Occurs.call (h : Occurs ts (.call t name args)) :
    ∃ before l after, ts = before ++ t :: l :: after ∧ l.kind = .symbol .leftParen := by
  obtain ⟨before, us, after, rfl, derived, _⟩ := h
  change Primary (t :: us) _ at derived
  cases derived with
  | call _ args =>
    cases args with
    | last left _ _ => exact ⟨before, _, _, rfl, left⟩
    | cons left _ _ _ => exact ⟨before, _, _, rfl, left⟩
  | group left inner _ =>
    obtain ⟨word, _⟩ := inner.holds.fits _ (Expr.mem_nodes _)
    rw [left] at word
    cases word

/-- A function of a program is written as its `let` with its name directly behind it. -/
theorem Functions.exists_front {fs : List LoopLang.Function} (h : Functions ts fs)
    {f : LoopLang.Function} (mem : f ∈ fs) :
    ∃ before after, ts = before ++ f.token :: f.ident.token :: after := by
  induction h with
  | last function =>
    obtain ⟨us, rfl, _⟩ := function.exists_front
    obtain rfl := List.mem_singleton.mp mem
    exact ⟨[], us, rfl⟩
  | cons function _ ih =>
    rcases List.mem_cons.mp mem with rfl | mem
    · obtain ⟨us, rfl, _⟩ := function.exists_front
      exact ⟨[], us ++ _, rfl⟩
    · obtain ⟨before, after, rfl⟩ := ih mem
      exact ⟨_ ++ before, after, (List.append_assoc _ _ _).symm⟩

end Tokens

/-- At this place begins a `recur` with so many arguments, which is one of the nodes. -/
def RecurAt (ts : List Token) (nodes : List Node) (pos : Position) (count : Nat) : Prop :=
  ∃ t args, t.kind = .keyword .recurKw ∧ t.pos = pos ∧ args.length = count
    ∧ Occurs ts (.recur t args) ∧ .expr (.recur t args) ∈ nodes

end Grammar

/-! ## Errors -/

/-- The place that an error names is that of a token which is written as the error says, and of the
node of the program that keeps this token. The errors about `main` name no place. -/
def RuntimeError.PointsInto (ts : List Token) (p : Program) : RuntimeError → Prop
  | unboundVariable name pos =>
    ∃ before t after, ts = before ++ t :: after
      ∧ t.kind = .identifier ∧ t.literal = name ∧ t.pos = pos
      ∧ (∀ u ∈ after.head?, u.kind ≠ .symbol .leftParen)
      ∧ .expr (.var t name) ∈ p.nodes
  | undefinedFunction name pos =>
    ∃ before t l after args, ts = before ++ t :: l :: after
      ∧ t.kind = .identifier ∧ t.literal = name ∧ t.pos = pos
      ∧ l.kind = .symbol .leftParen
      ∧ (∀ f ∈ p.functions, f.name ≠ name)
      ∧ .expr (.call t name args) ∈ p.nodes
  | callArity name expected got pos =>
    ∃ t args f, Grammar.Occurs ts (.call t name args)
      ∧ t.kind = .identifier ∧ t.literal = name ∧ t.pos = pos ∧ args.length = got
      ∧ f ∈ p.functions ∧ f.name = name ∧ f.params.length = expected ∧ got ≠ expected
      ∧ .expr (.call t name args) ∈ p.nodes
  | duplicateFunction name pos =>
    ∃ before f after earlier later, ts = before ++ f.token :: f.ident.token :: after
      ∧ f.token.kind = .keyword .letKw ∧ f.token.pos = pos
      ∧ f.ident.token.kind = .identifier ∧ f.ident.token.literal = name
      ∧ p.functions = earlier ++ f :: later ∧ name ∈ earlier.map Function.name
      ∧ .function f ∈ p.nodes
  | recurArity _ got pos => Grammar.RecurAt ts p.nodes pos got
  | recurIn _ pos | escapedRecur _ pos => ∃ count, Grammar.RecurAt ts p.nodes pos count
  | noMain | mainArity _ _ => True

namespace Grammar

open Lexical (tokensOf)

section Parsed

variable {source : String} {p : LoopLang.Program} (parsed : Program.parse source = .ok p)

include parsed

theorem alone_of_parse (short : source.length < UInt32.size - 1) :
    ∀ n ∈ p.nodes, n.Alone p.nodes := fun _ =>
  Node.alone_of_nodup ((holds_of_parse parsed).keepsTokens.distinct short)

/-- What the body of a function contains is written in the source text, from its token on. -/
theorem occurs_of_contains {e : Expr} (mine : p.Contains e) (primary : e.IsPrimary) :
    e.Fits ∧ Occurs (tokensOf source) e ∧ .expr e ∈ p.nodes :=
  have holds := holds_of_parse parsed
  ⟨holds.fits _ mine.mem_nodes, holds.occurs e mine.mem_nodes primary, mine.mem_nodes⟩

theorem recurAt_of_tailRecur {e : Expr} {pos : Position} {count : Nat} (mine : p.Contains e)
    (tail : e.TailRecur pos count) : RecurAt (tokensOf source) p.nodes pos count := by
  obtain ⟨t, args, inside, here, same⟩ := p.encloses_contains.recur mine tail
  obtain ⟨fits, occurs, node⟩ := occurs_of_contains parsed inside trivial
  exact ⟨t, args, fits.1, here, same, occurs, node⟩

/-- A function that takes the name of an earlier one is written with this name behind its `let`. -/
theorem duplicateFunction_pointsInto {f : LoopLang.Function} (found : p.duplicate? = some f) :
    (RuntimeError.duplicateFunction f.name f.token.pos).PointsInto (tokensOf source) p := by
  obtain ⟨earlier, later, split, -, taken⟩ := Program.firstDuplicate?_eq_some_iff.mp found
  have mem : f ∈ p.functions := by simp [split]
  have mine : .function f ∈ p.nodes := Program.mem_nodes.mpr ⟨f, mem, by simp [Function.nodes]⟩
  have word : .ident f.ident ∈ p.nodes := Program.mem_nodes.mpr ⟨f, mem, by simp [Function.nodes]⟩
  have holds := holds_of_parse parsed
  obtain ⟨ts, scanned, derived⟩ := parse_program_iff.mp parsed
  obtain ⟨before, after, place⟩ := Functions.exists_front derived mem
  rw [← tokensOf_eq scanned] at place
  obtain ⟨identifier, literal⟩ := holds.fits _ word
  exact ⟨before, f, after, earlier, later, place, (holds.fits _ mine).1, rfl, identifier, literal,
    split, taken.resolve_left List.not_mem_nil, mine⟩

/-- An error that comes from a place in a parsed program points at this place in its text. -/
theorem pointsInto_of_arisesIn {x : RuntimeError} (arises : x.ArisesIn p p.Contains) :
    x.PointsInto (tokensOf source) p := by
  cases arises with
  | duplicate found => exact duplicateFunction_pointsInto parsed found
  | noMain _ | mainArity _ _ => trivial
  | unbound mine =>
    obtain ⟨⟨word, literal⟩, occurs, node⟩ := occurs_of_contains parsed mine trivial
    obtain ⟨before, after, place, follow⟩ := occurs.var
    exact ⟨before, _, after, place, word, literal, rfl, follow, node⟩
  | undefined mine missing =>
    obtain ⟨⟨word, literal, _⟩, occurs, node⟩ := occurs_of_contains parsed mine trivial
    obtain ⟨before, l, after, place, left⟩ := occurs.call
    exact ⟨before, _, l, after, _, place, word, literal, rfl, left,
      Program.lookup?_eq_none_iff.mp missing, node⟩
  | callArity mine found differs =>
    obtain ⟨⟨word, literal, _⟩, occurs, node⟩ := occurs_of_contains parsed mine trivial
    obtain ⟨mem, named⟩ := Program.lookup?_eq_some found
    exact ⟨_, _, _, occurs, word, literal, rfl, rfl, mem, named, rfl, differs, node⟩
  | recurIn mine needs tail =>
    exact ⟨_, recurAt_of_tailRecur parsed (p.encloses_contains.part mine (.needed needs)) tail⟩
  | recurArity mine _ tail =>
    exact recurAt_of_tailRecur parsed (p.encloses_contains.part mine .loopBody) tail
  | escaped found tail =>
    have body := p.encloses_contains.body (Program.lookup?_eq_some found).1
    exact ⟨_, recurAt_of_tailRecur parsed body tail⟩

end Parsed

end Grammar

/-! ## Runs -/

theorem interpret_eq_runtime {fuel : Nat} {source : String} {args : List Int64} {x : RuntimeError}
    (failed : interpret fuel source args = .error (.error (.runtime x))) :
    ∃ p, Program.parse source = .ok p ∧ p.evaluate fuel args = .error (.error x) := by
  unfold interpret at failed
  split at failed
  · cases failed
  next p parsed =>
    refine ⟨p, parsed, ?_⟩
    match run : p.evaluate fuel args with
    | .ok v => simp [run, Except.mapError] at failed
    | .error .brokenStack | .error .outOfFuel => simp [run, Except.mapError, Halt.map] at failed
    | .error (.error y) => simpa [run, Except.mapError, Halt.map] using failed

open Lexical (tokensOf)

/-- **Errors of a run point at the right place in the source text.** What an error says about its
place is true of the tokens there: the name without a meaning, the call with its arguments and the
number of parameters that they do not fit, the `recur`, the `let` of the function that takes the
name of an earlier one. The node of the parsed program that keeps this token has the place, and if
the text has fewer than `2 ^ 32 - 1` characters, no two nodes of the program share theirs. -/
theorem interpret_points_into {fuel : Nat} {source : String} {args : List Int64}
    {x : RuntimeError} (failed : interpret fuel source args = .error (.error (.runtime x))) :
    ∃ p, Program.parse source = .ok p ∧ x.PointsInto (tokensOf source) p
      ∧ (source.length < UInt32.size - 1 → ∀ n ∈ p.nodes, n.Alone p.nodes) := by
  obtain ⟨p, parsed, run⟩ := interpret_eq_runtime failed
  have arises := p.evaluate_arises fuel args
  rw [run] at arises
  exact ⟨p, parsed, Grammar.pointsInto_of_arisesIn parsed arises, Grammar.alone_of_parse parsed⟩

/-- A call with two arguments of a function with one parameter. -/
theorem interpret_points_into_call :
    "let main x = f(x)(1) end let f y = y end".length < UInt32.size - 1
      ∧ ∃ p, Program.parse "let main x = f(x)(1) end let f y = y end" = .ok p
        ∧ (RuntimeError.callArity "f" 1 2 ⟨1, 14⟩).PointsInto
          (tokensOf "let main x = f(x)(1) end let f y = y end") p
        ∧ ∀ n ∈ p.nodes, n.Alone p.nodes := by
  have short : "let main x = f(x)(1) end let f y = y end".length < UInt32.size - 1 := by decide
  have failed : interpret 5 "let main x = f(x)(1) end let f y = y end" [3] =
      .error (.error (.runtime (.callArity "f" 1 2 ⟨1, 14⟩))) := by decide +kernel
  obtain ⟨p, parsed, points, alone⟩ := interpret_points_into failed
  exact ⟨short, p, parsed, points, alone short⟩

/-- Where the lines come round, an error may name the place of two nodes: here that of a name
without a meaning, and of the function. -/
theorem error_at_two_nodes :
    ∃ p, Program.parse (Lexical.farBelow "let main x =" "y end") = .ok p
      ∧ interpret 5 (Lexical.farBelow "let main x =" "y end") [3] =
          .error (.error (.runtime (.unboundVariable "y" ⟨1, 1⟩)))
      ∧ (p.nodes.map Node.pos).count ⟨1, 1⟩ = 2 := by
  have oneLine : '\n' ∉ "let main x =".toList := by decide
  have places : ((Program.parse (Lexical.farBelow "let main x =" "y end")).toOption.map fun p =>
      (p.nodes.map Node.pos).count ⟨1, 1⟩) = some 2 := by
    rw [Program.parse, Parser.ofSource_farBelow oneLine]
    decide +kernel
  have failed : interpret 5 (Lexical.farBelow "let main x =" "y end") [3] =
      .error (.error (.runtime (.unboundVariable "y" ⟨1, 1⟩))) := by
    rw [interpret, Program.parse, Parser.ofSource_farBelow oneLine]
    decide +kernel
  obtain ⟨p, parsed, shared⟩ := Grammar.exists_of_toOption_map places
  exact ⟨p, parsed, failed, shared⟩

end LoopLang
