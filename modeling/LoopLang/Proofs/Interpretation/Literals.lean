import LoopLang.Proofs.Grammar.TreeNodes
import LoopLang.Proofs.Grammar.Verdicts
import LoopLang.Proofs.Interpretation.CommandLine
import LoopLang.Proofs.Program.Lookup
import LoopLang.Proofs.Relocation.EntryPoints
import Mathlib.Algebra.Group.Int.Defs
import Mathlib.Algebra.Group.Nat.Defs

set_option autoImplicit false

/-! # Integers in source texts

A run of digits is one token, however long, and is parsed as the number that it denotes up to
2 ^ 63 - 1; beyond, the parse ends with one diagnostic at the run. Leading zeros do not count. A
minus sign in front is a token of its own, so what it stands in front of has to be in range by
itself: every word but the least is the value of its own decimal text, and the text of the least is
none that can be parsed. -/

namespace LoopLang

open Decimal (Digits)

variable {d : String} {n : Nat}

/-! ## Digits -/

namespace Decimal

theorem digits_repr (n : Nat) : Digits n.repr.toList n :=
  natural?_eq_some_iff.mp (natural?_repr n)

/-- A run of digits is read exactly up to the limit. -/
theorem Digits.read?_eq (run : Digits d.toList n) :
    read? d = if n < 2 ^ 63 then some (.ofInt n) else none := by
  have largest : Int64.maxValue.toInt = 2 ^ 63 - 1 := by decide
  have digits : d.toList.all Char.isDigit = true := List.all_eq_true.mpr run.allDigits
  rw [read?_digits run.nonempty digits, run.value, largest]
  by_cases small : n < 2 ^ 63
  · rw [if_pos small, if_pos (by omega)]
  · rw [if_neg small, if_neg (by omega)]

theorem Digits.read?_eq_none (run : Digits d.toList n) (large : 2 ^ 63 ≤ n) : read? d = none := by
  rw [run.read?_eq, if_neg (Nat.not_lt.mpr large)]

end Decimal

namespace Lexical

/-- A run of digits at the end of a text is one token. -/
theorem scan_digits (run : Digits d.toList n) (before : List Char) :
    Scan before d.toList [.ok ⟨.integer, d, .behind before⟩] := by
  have fits : Fits .integer d.toList :=
    ⟨run.nonempty, fun c mem => isDigit_iff.mp (run.allDigits c mem)⟩
  have read : ReadAs (.behind (before ++ [])) [] d.toList
      (.ok ⟨.integer, String.ofList d.toList, .behind (before ++ [])⟩) := .token fits (by simp)
  rw [String.ofList_toList, List.append_nil] at read
  have scan : Scan before ([] ++ (d.toList ++ [])) _ :=
    .next .nil (by rwa [List.append_nil]) (.done .nil)
  rwa [List.nil_append, List.append_nil] at scan

theorem results_digits (run : Digits d.toList n) :
    (Cursor.ofSource d).results = [⟨.integer, d, .start⟩].map .ok :=
  (scan_digits run []).results_eq

/-- A minus sign in front is a token of its own. -/
theorem results_minus_digits (run : Digits d.toList n) :
    (Cursor.ofSource ("-" ++ d)).results =
      [⟨.symbol .minus, "-", .start⟩, ⟨.integer, d, ⟨1, 2⟩⟩].map .ok := by
  have fits : Fits (.symbol .minus) ['-'] := rfl
  have read : ReadAs (.behind []) d.toList ['-'] (.ok ⟨.symbol .minus, "-", .start⟩) :=
    .token fits fun c _ longer => longer
  have text : ("-" ++ d).toList = [] ++ (['-'] ++ d.toList) := by simp
  rw [Cursor.results_eq_iff, text]
  exact .next .nil read (scan_digits run ['-'])

end Lexical

/-! ## In range -/

theorem Decimal.Digits.number (run : Digits d.toList n) (small : n < 2 ^ 63) (pos : Position) :
    Grammar.Number ⟨.integer, d, pos⟩ (.ofInt n) := by
  have digits : d.toList.all Char.isDigit = true := List.all_eq_true.mpr run.allDigits
  have read : read? d = some (.ofInt n) := by rw [run.read?_eq, if_pos small]
  exact (@Grammar.number_iff ⟨.integer, d, pos⟩ _ rfl run.nonempty digits).mpr read

/-- A run of digits is parsed as an integer with its value. -/
theorem Expr.parse_digits (run : Digits d.toList n) (small : n < 2 ^ 63) :
    Expr.parse d = .ok (.integer ⟨.integer, d, .start⟩ (.ofInt n)) := by
  have derived : Grammar.Primary [⟨.integer, d, .start⟩] _ := .integer (run.number small .start)
  exact Grammar.parse_expression_iff.mpr
    ⟨_, Lexical.results_digits run, (Grammar.Tier.primary derived).mono (by decide)⟩

/-- Behind a minus sign, digits are the operand of a negation. -/
theorem Expr.parse_minus_digits (run : Digits d.toList n) (small : n < 2 ^ 63) :
    Expr.parse ("-" ++ d) = .ok
      (.unary ⟨.symbol .minus, "-", .start⟩ .neg (.integer ⟨.integer, d, ⟨1, 2⟩⟩ (.ofInt n))) := by
  have derived : Grammar.Primary [⟨.symbol .minus, "-", .start⟩, ⟨.integer, d, ⟨1, 2⟩⟩] _ :=
    .unary .neg (.integer (run.number small ⟨1, 2⟩))
  exact Grammar.parse_expression_iff.mpr
    ⟨_, Lexical.results_minus_digits run, (Grammar.Tier.primary derived).mono (by decide)⟩

/-! ## Out of range -/

namespace Parser

variable {m : Nat} {p q : Parser}

/-- An integer that is out of range is taken before its range is looked at. -/
theorem primary_of_overflow (kind : p.current.kind = .integer)
    (unread : Decimal.read? p.current.literal = none) :
    primary (m + 1) p =
      .error (.failed ⟨p.current.pos, .literalOutOfRange p.current.literal⟩) p.step := by
  have begins : Head.integer.Begins p.current.kind := kind
  rw [primary_of_begins begins, Head.rest, integerLiteral, unread]
  rfl

theorem wholeExpression_of_stopped {stop : Stop} (stopped : primary m p = .error stop q) :
    wholeExpression m p = .error stop q :=
  bind_of_error (bind_of_error stopped)

/-- Where the first primary expression cannot be read and no lexical fault was met, the diagnostic
for it is the only one. -/
theorem parseExpression_of_stopped {e : Diagnostic}
    (stopped : primary (p.step.size + 1) p.step = .error (.failed e) q) (clean : q.noted = []) :
    p.parseExpression.1 = .error [e] := by
  rw [parseExpression_of_failed (wholeExpression_of_stopped stopped), report, note, clean]
  rfl

theorem parseExpression_of_overflow {t : Token} (fresh : p.noted = [])
    (tokens : p.pending = [t].map .ok) (kind : t.kind = .integer)
    (unread : Decimal.read? t.literal = none) :
    p.parseExpression.1 = .error [⟨t.pos, .literalOutOfRange t.literal⟩] := by
  obtain ⟨_, ⟨rfl, rfl⟩, _, _, noted⟩ := passes_pending tokens
  exact parseExpression_of_stopped (primary_of_overflow kind unread) (noted.trans fresh)

/-- A sign is taken before the integer behind it is found to be out of range. -/
theorem parseExpression_of_sign_overflow {s t : Token} {op : UnaryOp} (fresh : p.noted = [])
    (tokens : p.pending = [s, t].map .ok) (sign : Grammar.Prefixes s.kind op)
    (kind : t.kind = .integer) (unread : Decimal.read? t.literal = none) :
    p.parseExpression.1 = .error [⟨t.pos, .literalOutOfRange t.literal⟩] := by
  obtain ⟨_, ⟨rfl, rfl, rfl⟩, _, _, noted⟩ := passes_pending tokens
  have begins : (Head.unary op).Begins p.step.current.kind := sign
  have notEnd : p.step.current.kind ≠ .eof := by
    rw [sign.symbol]
    simp
  obtain ⟨k, size⟩ := Nat.exists_eq_add_one_of_ne_zero (Nat.ne_zero_of_lt (size_step_lt notEnd))
  refine parseExpression_of_stopped ?_ (noted.trans fresh)
  rw [primary_of_begins begins, size]
  exact bind_of_error (primary_of_overflow kind unread)

end Parser

theorem Expr.parse_digits_overflow (run : Digits d.toList n) (large : 2 ^ 63 ≤ n) :
    Expr.parse d = .error [⟨.start, .literalOutOfRange d⟩] :=
  Parser.parseExpression_of_overflow (p := .ofSource d) (t := ⟨.integer, d, .start⟩) rfl
    (Lexical.results_digits run) rfl (run.read?_eq_none large)

theorem Expr.parse_minus_digits_overflow (run : Digits d.toList n) (large : 2 ^ 63 ≤ n) :
    Expr.parse ("-" ++ d) = .error [⟨⟨1, 2⟩, .literalOutOfRange d⟩] :=
  Parser.parseExpression_of_sign_overflow (p := .ofSource ("-" ++ d))
    (t := ⟨.integer, d, ⟨1, 2⟩⟩) rfl (Lexical.results_minus_digits run) .neg rfl
    (run.read?_eq_none large)

/-! ## In programs -/

/-- A node with an integer token is an integer, and its value is that of the digits. -/
theorem Node.eq_integer_of_fits {node : Node} (fits : node.Fits)
    (kind : node.token.kind = .integer) :
    ∃ v : Int64, node = .expr (.integer node.token v)
      ∧ v.toInt = Decimal.value node.token.literal.toList := by
  cases node with
  | function f => cases fits.1.symm.trans kind
  | ident i => cases fits.1.symm.trans kind
  | expr e =>
    cases e with
    | integer t v => exact ⟨v, rfl, fits.2.2.2⟩
    | var => cases fits.1.symm.trans kind
    | call => cases fits.1.symm.trans kind
    | cond => cases fits.symm.trans kind
    | unary => cases fits.symm.trans kind
    | binary => cases fits.symm.trans kind
    | letIn => cases fits.1.symm.trans kind
    | loop => cases fits.1.symm.trans kind
    | recur => cases fits.1.symm.trans kind

/-- In a text that is parsed, every integer is in range. -/
theorem Program.value_lt_of_parse {source : String} {p : Program}
    (parsed : Program.parse source = .ok p) {t : Token} (mem : t ∈ Lexical.tokensOf source)
    (kind : t.kind = .integer) : Decimal.value t.literal.toList < 2 ^ 63 := by
  have holds := Grammar.holds_of_parse parsed
  have significant : t ∈ Token.significant (Lexical.tokensOf source) := by
    simp [Token.significant, mem, kind, TokenKind.isDelimiter]
  rw [← holds.tokens] at significant
  obtain ⟨node, inside, rfl⟩ := List.mem_map.mp significant
  obtain ⟨v, _, value⟩ := Node.eq_integer_of_fits (holds.fits node inside) kind
  have most := v.toInt_lt
  omega

/-- A text with an integer that is out of range is no program. -/
theorem interpret_overflow (run : Digits d.toList n) (large : 2 ^ 63 ≤ n) {source : String}
    {pos : Position} (mem : ⟨.integer, d, pos⟩ ∈ Lexical.tokensOf source) (fuel : Nat)
    (args : List Int64) : ∃ ds, interpret fuel source args = .error (.error (.parse ds)) := by
  unfold interpret
  cases parsed : Program.parse source with
  | error ds => exact ⟨ds, rfl⟩
  | ok p =>
    have small := Program.value_lt_of_parse parsed mem rfl
    rw [run.value] at small
    omega

theorem Lexical.mem_tokensOf_inMain (run : Digits d.toList n) :
    ⟨.integer, d, ⟨2, 2⟩⟩ ∈ tokensOf (inMain ("-" ++ d)) := by
  rw [Grammar.tokensOf_eq (results_inMain_of_tokens (results_minus_digits run)), List.mem_append,
    List.mem_append]
  exact Or.inr (Or.inl (by simp [Token.relocate, Position.down]))

/-! ## Values -/

/-- The tree of a number, without tokens: an integer, behind a minus sign if it is negative. -/
def Expr.numeral (m : Int64) : Expr :=
  if 0 ≤ m then .integer .none m else .unary .none .neg (.integer .none (-m))

theorem Expr.eq_integer_of_bare {e : Expr} {v : Int64} (same : e.bare = .integer .none v) :
    ∃ t, e = .integer t v := by
  cases e with
  | integer t w =>
    obtain rfl : w = v := by simpa [Expr.bare] using same
    exact ⟨t, rfl⟩
  | _ => simp [Expr.bare] at same

theorem Expr.eq_unary_of_bare {e o : Expr} {op : UnaryOp} (same : e.bare = .unary .none op o) :
    ∃ t e', e = .unary t op e' ∧ e'.bare = o := by
  cases e with
  | unary t op' e' =>
    obtain ⟨rfl, rfl⟩ : op' = op ∧ e'.bare = o := by simpa [Expr.bare] using same
    exact ⟨t, e', rfl, rfl⟩
  | _ => simp [Expr.bare] at same

/-- With fuel for two nodes, a number evaluates to itself. -/
theorem Expr.eval_numeral (p : Program) {e : Expr} {m : Int64} (same : e.bare = .numeral m)
    {fuel : Nat} (enough : 2 ≤ fuel) (s : Stack) : p.eval fuel e s = .ok (.value m) s := by
  obtain ⟨k, rfl⟩ := Nat.exists_eq_add_of_le' enough
  unfold numeral at same
  split at same
  · obtain ⟨t, rfl⟩ := eq_integer_of_bare same
    rfl
  · obtain ⟨t, e', rfl, inner⟩ := eq_unary_of_bare same
    obtain ⟨t', rfl⟩ := eq_integer_of_bare inner
    have evaluated : p.eval (k + 2) (.unary t .neg (.integer t' (-m))) s = .ok (.value (- -m)) s :=
      rfl
    rw [evaluated, Int64.neg_neg]

/-- The decimal text of every word but the least is parsed as this number. -/
theorem Expr.exists_parse_text {m : Int64} (notLeast : m ≠ Int64.minValue) :
    ∃ e, Expr.parse (Decimal.text m) = .ok e ∧ e.bare = .numeral m := by
  have most := m.toInt_lt
  have least := m.le_toInt
  unfold numeral Decimal.text
  rw [Int.repr_eq_if]
  by_cases nonneg : 0 ≤ m
  · have nonneg' : 0 ≤ m.toInt := Int64.le_iff_toInt_le.mp nonneg
    rw [if_pos nonneg, if_pos nonneg']
    refine ⟨_, parse_digits (Decimal.digits_repr _) (by omega), ?_⟩
    rw [bare, Int.toNat_of_nonneg nonneg', Int64.ofInt_toInt]
  · have negative : ¬0 ≤ m.toInt := fun h => nonneg (Int64.le_iff_toInt_le.mpr h)
    have other : m.toInt ≠ -2 ^ 63 := fun h => notLeast (Int64.toInt_inj.mp h)
    rw [if_neg nonneg, if_neg negative]
    refine ⟨_, parse_minus_digits (Decimal.digits_repr _) (by omega), ?_⟩
    rw [bare, bare, Int.toNat_of_nonneg (by omega), Int64.ofInt_neg, Int64.ofInt_toInt]

theorem Program.evaluate_numeral {p : Program} {main : Function} {m : Int64}
    (alone : p.duplicate? = none) (found : p.lookup? "main" = some main)
    (body : main.body.bare = .numeral m) {args : List Int64}
    (fits : args.length = main.params.length) {fuel : Nat} (enough : 2 ≤ fuel) :
    p.evaluate fuel args = .ok m := by
  simp only [Program.evaluate, alone, found, if_pos fits, Run.enter,
    Expr.eval_numeral p body enough]
  rfl

theorem interpret_text {m : Int64} (notLeast : m ≠ Int64.minValue) (a : Int64) {fuel : Nat}
    (enough : 2 ≤ fuel) : interpret fuel (inMain (Decimal.text m)) [a] = .ok m := by
  obtain ⟨e, parsed, numeral⟩ := Expr.exists_parse_text notLeast
  obtain ⟨main, whole, name, params, body⟩ := exists_main_of_parse parsed
  have bare : main.body.bare = .numeral m := by rw [body, Expr.bare_relocate, numeral]
  have alone : (⟨[main]⟩ : Program).duplicate? = none := by simp [Program.duplicate?_eq_none_iff]
  have found : (⟨[main]⟩ : Program).lookup? "main" = some main := by simp [Program.lookup?, name]
  have fits : [a].length = main.params.length := by
    simpa using (congrArg List.length params).symm
  have evaluated := Program.evaluate_numeral alone found bare fits enough
  unfold interpret
  rw [whole]
  dsimp only
  rw [evaluated]
  rfl

/-- **Integers are read exactly up to the limit.** A run of digits, however many zeros lead, is
parsed as the number that it denotes if this is less than 2 ^ 63; otherwise the one diagnostic is
that the run is out of range, and a minus sign in front changes only its place; no program has such
a run in its text. So a `main` whose body is the decimal text of a word returns that word, for every
word but the least. -/
theorem literals_read_exactly :
    (∀ (d : String) (n : Nat), Digits d.toList n →
      (n < 2 ^ 63 →
        ∃ v : Int64, v.toInt = n ∧ Expr.parse d = .ok (.integer ⟨.integer, d, .start⟩ v))
      ∧ (2 ^ 63 ≤ n →
        Expr.parse d = .error [⟨.start, .literalOutOfRange d⟩]
        ∧ Expr.parse ("-" ++ d) = .error [⟨⟨1, 2⟩, .literalOutOfRange d⟩]
        ∧ (∀ source pos, ⟨.integer, d, pos⟩ ∈ Lexical.tokensOf source →
            ∀ fuel args, ∃ ds, interpret fuel source args = .error (.error (.parse ds)))
        ∧ ∀ fuel args, ∃ ds,
            interpret fuel (inMain ("-" ++ d)) args = .error (.error (.parse ds))))
    ∧ ∀ m : Int64, m ≠ Int64.minValue →
        (∃ e, Expr.parse (Decimal.text m) = .ok e
          ∧ ∀ (p : Program) (main : Function) (args : List Int64) (fuel : Nat),
              p.duplicate? = none → p.lookup? "main" = some main → main.body.bare = e.bare →
              args.length = main.params.length → 2 ≤ fuel → p.evaluate fuel args = .ok m)
        ∧ ∀ fuel a, 2 ≤ fuel → interpret fuel (inMain (Decimal.text m)) [a] = .ok m := by
  refine ⟨fun d n run => ⟨fun small => ?_, fun large => ?_⟩, fun m notLeast => ?_⟩
  · exact ⟨.ofInt n, (run.number small .start).toInt_eq.trans (by rw [run.value]),
      Expr.parse_digits run small⟩
  · exact ⟨Expr.parse_digits_overflow run large, Expr.parse_minus_digits_overflow run large,
      fun source pos mem => interpret_overflow run large mem,
      interpret_overflow run large (Lexical.mem_tokensOf_inMain run)⟩
  · obtain ⟨e, parsed, numeral⟩ := Expr.exists_parse_text notLeast
    refine ⟨⟨e, parsed, ?_⟩, ?_⟩
    · intro p main args fuel alone found body fits enough
      exact Program.evaluate_numeral alone found (body.trans numeral) fits enough
    · intro fuel a enough
      exact interpret_text notLeast a enough

/-- The greatest integer in range with zeros in front, the least one out of range, and the least
word but one. -/
theorem literals_read_exactly_limits :
    (∃ v : Int64, v.toInt = 9223372036854775807 ∧ Expr.parse "009223372036854775807" =
        .ok (.integer ⟨.integer, "009223372036854775807", .start⟩ v))
      ∧ Expr.parse ("-" ++ "9223372036854775808") =
          .error [⟨⟨1, 2⟩, .literalOutOfRange "9223372036854775808"⟩]
      ∧ Decimal.text (-9223372036854775807) = "-9223372036854775807"
      ∧ interpret 2 (inMain (Decimal.text (-9223372036854775807))) [0] =
          .ok (-9223372036854775807) := by
  obtain ⟨ofDigits, ofWords⟩ := literals_read_exactly
  have greatest : Digits "009223372036854775807".toList 9223372036854775807 :=
    Decimal.natural?_eq_some_iff.mp (by decide +kernel)
  have beyond : Digits "9223372036854775808".toList 9223372036854775808 :=
    Decimal.natural?_eq_some_iff.mp (by decide +kernel)
  exact ⟨(ofDigits _ _ greatest).1 (by decide), ((ofDigits _ _ beyond).2 (by decide)).2.1,
    by decide +kernel, (ofWords _ (by decide)).2 2 0 (by decide)⟩

end LoopLang
