import LoopLang.Proofs.Grammar.Reports
import LoopLang.Proofs.Parser.Reuse
import Mathlib.Data.List.Basic

set_option autoImplicit false

/-! # The lines of a report

A report is a headline and one line for each diagnostic, as long as no message has a newline in it.
The messages tell pieces of the source text: words, numbers, characters that begin no token, and the
character behind an operator that is not doubled. Only this last one can be a newline, and it is
told as it is: then the line breaks in the middle of the message, and the report has one line more
than it has diagnostics and a headline. -/

namespace LoopLang

/-! ## Lines -/

/-- The lines of a text: what stands between its newlines. -/
def linesOf (text : String) : List String :=
  (text.toList.splitOn '\n').map String.ofList

/-- The text is a single line. -/
def Unbroken (text : String) : Prop := '\n' ∉ text.toList

instance : DecidablePred Unbroken := fun text =>
  inferInstanceAs (Decidable ('\n' ∉ text.toList))

theorem unbroken_append {a b : String} : Unbroken (a ++ b) ↔ Unbroken a ∧ Unbroken b := by
  simp [Unbroken]

theorem unbroken_toString {c : Char} : Unbroken c.toString ↔ c ≠ '\n' := by
  simp [Unbroken, eq_comm]

theorem Unbroken.linesOf_eq {text : String} (unbroken : Unbroken text) :
    linesOf text = [text] := by
  rw [linesOf, List.splitOn_eq_singleton unbroken, List.map_singleton, String.ofList_toList]

theorem linesOf_newline (a b : String) : linesOf (a ++ ("\n" ++ b)) = linesOf a ++ linesOf b := by
  have parted := List.splitOnP_append_cons (p := (· == '\n')) a.toList b.toList (beq_self_eq_true _)
  have joined : (a ++ ("\n" ++ b)).toList = a.toList ++ '\n' :: b.toList := by simp
  rw [linesOf, joined, List.splitOn, parted, List.map_append]
  rfl

theorem linesOf_join (a : String) (bs : List String) :
    linesOf (a ++ String.join (bs.map ("\n" ++ ·))) = linesOf a ++ bs.flatMap linesOf := by
  induction bs generalizing a with
  | nil => simp
  | cons b bs ih =>
    rw [List.map_cons, String.join_cons, String.append_assoc, linesOf_newline, ih,
      List.flatMap_cons]

/-! ## The lines that tell a diagnostic -/

/-- The line on which the wording of a cause begins, and the line on which it goes on where a
newline is told. -/
def Cause.lines : Cause → String × Option String
  | .loneOperator char next =>
    if next = some '\n' then
      ("expected '" ++ char.toString ++ char.toString ++ "', got '", some "' instead")
    else
      ((loneOperator char next).message, none)
  | cause => (cause.message, none)

/-- The wording takes two lines. -/
def Cause.breaksLine (cause : Cause) : Bool := cause.lines.2.isSome

namespace Diagnostic

/-- What the line of a diagnostic begins with: its number and its place. -/
def opening (number : Nat) (d : Diagnostic) : String :=
  number.repr ++ ": syntax error: " ++ d.pos.text ++ ": "

/-- The lines of a diagnostic in a report. -/
def lines (number : Nat) (d : Diagnostic) : List String :=
  (d.opening number ++ d.cause.lines.1) :: d.cause.lines.2.toList

theorem numbered_eq (number : Nat) (d : Diagnostic) :
    d.numbered number = "\n" ++ (d.opening number ++ d.cause.message) := by
  unfold numbered message opening
  simp only [String.append_assoc]
  rfl

end Diagnostic

/-! ## What messages tell -/

/-- All that the cause tells is on a single line, but for what stands behind a lone operator. -/
def Cause.Plain : Cause → Prop
  | unexpectedToken found expected => Unbroken found ∧ Unbroken expected
  | strayChar char | loneOperator char _ => char ≠ '\n'
  | literalOutOfRange told | expectedExpression told | expectedIdentifier told => Unbroken told

/-- Where no newline is told, the message is a single line. -/
theorem Cause.Plain.unbroken_message {cause : Cause} (plain : cause.Plain)
    (other : ∀ char, cause ≠ .loneOperator char (some '\n')) : Unbroken cause.message := by
  cases cause with
  | unexpectedToken found expected =>
    show Unbroken ("unexpected token '" ++ found ++ "', expected '" ++ expected ++ "'")
    simp only [unbroken_append]
    exact ⟨⟨⟨⟨by decide, plain.1⟩, by decide⟩, plain.2⟩, by decide⟩
  | strayChar char => exact unbroken_append.mpr ⟨by decide, unbroken_toString.mpr plain⟩
  | loneOperator char next =>
    have sign : Unbroken char.toString := unbroken_toString.mpr plain
    cases next with
    | none =>
      show Unbroken ("expected '" ++ char.toString ++ char.toString ++ "', got end of input")
      simp only [unbroken_append]
      exact ⟨⟨⟨by decide, sign⟩, sign⟩, by decide⟩
    | some next =>
      have told : Unbroken next.toString :=
        unbroken_toString.mpr fun newline => other char (by rw [newline])
      show Unbroken ("expected '" ++ char.toString ++ char.toString ++ "', got '" ++ next.toString
        ++ "' instead")
      simp only [unbroken_append]
      exact ⟨⟨⟨⟨⟨by decide, sign⟩, sign⟩, by decide⟩, told⟩, by decide⟩
  | literalOutOfRange literal => exact unbroken_append.mpr ⟨by decide, plain⟩
  | expectedExpression found =>
    exact unbroken_append.mpr ⟨unbroken_append.mpr ⟨by decide, plain⟩, by decide⟩
  | expectedIdentifier found =>
    exact unbroken_append.mpr ⟨unbroken_append.mpr ⟨by decide, plain⟩, by decide⟩

theorem Cause.lines_of_ne {cause : Cause}
    (other : ∀ char, cause ≠ .loneOperator char (some '\n')) :
    cause.lines = (cause.message, none) := by
  cases cause with
  | loneOperator char next => exact if_neg fun newline => other char (by rw [newline])
  | unexpectedToken | strayChar | literalOutOfRange | expectedExpression | expectedIdentifier => rfl

theorem Cause.Plain.linesOf_message {cause : Cause} (plain : cause.Plain) {front : String}
    (unbroken : Unbroken front) :
    linesOf (front ++ cause.message) = (front ++ cause.lines.1) :: cause.lines.2.toList := by
  by_cases newline : ∃ char, cause = .loneOperator char (some '\n')
  · obtain ⟨char, rfl⟩ := newline
    have sign : Unbroken char.toString := unbroken_toString.mpr plain
    have first : Unbroken
        (front ++ ("expected '" ++ char.toString ++ char.toString ++ "', got '")) := by
      simp only [unbroken_append]
      exact ⟨unbroken, ⟨⟨by decide, sign⟩, sign⟩, by decide⟩
    have second : Unbroken "' instead" := by decide
    have split : front ++ (loneOperator char (some '\n')).message =
        (front ++ ("expected '" ++ char.toString ++ char.toString ++ "', got '"))
          ++ ("\n" ++ "' instead") := by
      unfold message
      simp only [String.append_assoc]
      rfl
    rw [split, linesOf_newline, first.linesOf_eq, second.linesOf_eq]
    rfl
  · have other : ∀ char, cause ≠ .loneOperator char (some '\n') :=
      fun char same => newline ⟨char, same⟩
    have single := unbroken_append.mpr ⟨unbroken, plain.unbroken_message other⟩
    rw [single.linesOf_eq, lines_of_ne other]
    rfl

theorem unbroken_repr (n : Nat) : Unbroken n.repr := by
  intro mem
  rw [Nat.toList_repr] at mem
  have digit := Nat.isDigit_of_mem_toDigits (by decide) (by decide) mem
  cases digit

theorem Diagnostic.unbroken_opening (number : Nat) (d : Diagnostic) :
    Unbroken (d.opening number) := by
  simp only [opening, Position.text, unbroken_append, unbroken_repr]
  decide

/-- A report as a whole. -/
theorem Diagnostic.linesOf_report {ds : List Diagnostic} (plain : ∀ d ∈ ds, d.cause.Plain) :
    linesOf (report ds) = ("Generated " ++ ds.length.repr ++ " error(s):")
      :: ds.zipIdx.flatMap fun (d, index) => d.lines (index + 1) := by
  have headline : Unbroken ("Generated " ++ ds.length.repr ++ " error(s):") := by
    simp only [unbroken_append, unbroken_repr]
    decide
  have split : report ds = ("Generated " ++ ds.length.repr ++ " error(s):") ++ String.join
      ((ds.zipIdx.map fun (d, index) => d.opening (index + 1) ++ d.cause.message).map
        ("\n" ++ ·)) := by
    rw [report, List.map_map]
    simp only [numbered_eq]
    rfl
  rw [split, linesOf_join, headline.linesOf_eq, List.flatMap_map]
  refine congrArg (_ :: ·) (List.flatMap_congr fun (d, index) mem => ?_)
  exact (plain d (List.fst_mem_of_mem_zipIdx mem)).linesOf_message (d.unbroken_opening _)

/-! ## What is told of a text -/

namespace Lexical

/-- Tokens are made of visible characters. -/
theorem visible_of_mem {kind : TokenKind} {text : List Char} (fits : Fits kind text) :
    ∀ c ∈ text, Visible c := by
  have word : ∀ {text : List Char}, Word text → ∀ c ∈ text, Visible c := by
    rintro _ ⟨c, cs, rfl, letter, parts⟩
    exact List.forall_mem_cons.mpr ⟨visible_of_letter letter, fun d mem =>
      (parts d mem).elim visible_of_letter visible_of_digit⟩
  cases kind with
  | eof => exact fits.elim
  | integer => exact fun c mem => visible_of_digit (fits.2 c mem)
  | identifier => exact word fits.1
  | keyword k =>
    obtain rfl : text = k.spelling.toList := fits
    exact word (word_spelling k)
  | symbol s =>
    obtain rfl : text = s.spelling.toList := fits
    intro c mem
    rcases Symbol.of_mem_spelling s (Symbol.mem_all s) c mem with doubled | ⟨t, _, spelled⟩
    · unfold Visible Blank
      rcases doubled with rfl | rfl <;> decide
    · obtain ⟨d, ds, same, visible, _⟩ := spelling_eq_cons t
      obtain ⟨rfl, _⟩ := List.cons.inj (same.symm.trans spelled)
      exact visible

theorem Visible.ne_newline {c : Char} (visible : Visible c) : c ≠ '\n' :=
  fun newline => visible.1 (Or.inr (Or.inr (Or.inl newline)))

theorem spelled_of_mem_tokensToEnd {source : String} {t : Token}
    (mem : t ∈ tokensToEnd source) : t.Spelled := by
  rcases List.mem_append.mp mem with mem | mem
  · obtain ⟨_, _, _, _, read⟩ := (Cursor.scan_results source).exists_readAs (mem_tokens.mp mem)
    cases read with
    | token fits _ => exact Or.inr (by rwa [String.toList_ofList])
  · obtain rfl := List.mem_singleton.mp mem
    exact Or.inl rfl

end Lexical

theorem TokenKind.unbroken_text (kind : TokenKind) : Unbroken kind.text := by
  cases kind with
  | symbol s => cases s <;> decide
  | keyword k => cases k <;> decide
  | eof | integer | identifier => decide

namespace Token.Spelled

variable {t : Token} (spelled : t.Spelled)
include spelled

theorem unbroken_literal (notEnd : t.kind ≠ .eof) : Unbroken t.literal := fun mem =>
  (Lexical.visible_of_mem (spelled.resolve_left notEnd) _ mem).ne_newline rfl

theorem unbroken_text : Unbroken t.text := by
  unfold text
  split
  · next integer => exact spelled.unbroken_literal (by rw [integer]; decide)
  · next identifier => exact spelled.unbroken_literal (by rw [identifier]; decide)
  · exact t.kind.unbroken_text

theorem plain {d : Diagnostic} (fault : Parser.FaultAt t d) : d.cause.Plain := by
  cases fault with
  | unsuited w =>
    cases w with
    | kind k => exact ⟨spelled.unbroken_text, k.unbroken_text⟩
    | identifier | expression => exact spelled.unbroken_text
  | overflow integer => exact spelled.unbroken_literal (by rw [integer]; decide)

end Token.Spelled

theorem Lexical.plain_of_mem_faultsOf {source : String} {d : Diagnostic}
    (mem : d ∈ faultsOf source) : d.cause.Plain := by
  obtain ⟨_, _, _, _, read⟩ := (Cursor.scan_results source).exists_readAs (mem_faults.mp mem)
  cases read with
  | loneOperator operator _ =>
    rcases operator with rfl | rfl
    · show '&' ≠ '\n'
      decide
    · show '|' ≠ '\n'
      decide
  | strayChar stray => exact stray.1.ne_newline

/-! ## Failed parses -/

/-- The diagnostic is a lexical fault of the text or a fault of the grammar at one of its tokens. -/
def Diagnostic.Of (source : String) (d : Diagnostic) : Prop :=
  d ∈ Lexical.faultsOf source ∨ ∃ t ∈ Lexical.tokensToEnd source, Parser.FaultAt t d

theorem Diagnostic.Of.plain {source : String} {d : Diagnostic} (h : d.Of source) :
    d.cause.Plain := by
  rcases h with lexical | ⟨t, mem, fault⟩
  · exact Lexical.plain_of_mem_faultsOf lexical
  · exact (Lexical.spelled_of_mem_tokensToEnd mem).plain fault

theorem Program.told_of_parse {source : String} {ds : List Diagnostic}
    (failed : Program.parse source = .error ds) : ds ≠ [] ∧ ∀ d ∈ ds, d.Of source := by
  obtain ⟨fs, faults, q, parsed, noted, places, _⟩ := Parser.exists_noted source
  obtain ⟨rfl, some⟩ := Parser.of_conclude_eq_error (parsed.symm.trans failed)
  refine ⟨some, fun d mem => ?_⟩
  have mem' := noted.mem_iff.mp (List.mem_reverse.mpr (Parser.mem_report.mp mem))
  rcases List.mem_append.mp mem' with syntactic | lexical
  · exact Or.inr (places d syntactic)
  · exact Or.inl lexical

theorem Expr.told_of_parse {source : String} {ds : List Diagnostic}
    (failed : Expr.parse source = .error ds) : ds ≠ [] ∧ ∀ d ∈ ds, d.Of source := by
  have scanned := Parser.scanned_ofSource source
  have ready := scanned.ready
  -- what was noted on the way are lexical faults
  have noted : ∀ {q : Parser} {ts : List Token}, (Parser.ofSource source).step.Passes ts q →
      ∀ d ∈ q.noted, d.Of source := by
    intro q ts pass d mem
    have told : q.told = Lexical.faultsOf source := by
      rw [pass.told_eq, Parser.told_step]
      rfl
    exact Or.inl (told ▸ List.mem_append_left _ (List.mem_reverse.mpr mem))
  unfold Expr.parse at failed
  rcases (Parser.ofSource source).parseExpression_cases with ⟨e, q, read⟩ | ⟨d, q, stopped⟩
  · rw [Parser.parseExpression_of_ok read] at failed
    obtain ⟨rfl, some⟩ := Parser.of_conclude_eq_error failed
    obtain ⟨r, inner, _, rfl⟩ := Parser.wholeExpression_eq_ok_iff.mp read
    obtain ⟨ts, pass, _⟩ := (Parser.yields_expression _ _ ready.lexed).of_ok inner
    have pass' : (Parser.ofSource source).step.Passes (ts ++ [r.current]) r.step :=
      pass.trans ⟨rfl, rfl⟩
    exact ⟨some, fun d mem => noted pass' d (Parser.mem_report.mp mem)⟩
  · rw [Parser.parseExpression_of_failed stopped] at failed
    obtain rfl := Except.error.inj failed
    obtain ⟨ts, pass, _⟩ := Parser.wholeExpression_failed_passes ready.lexed stopped
    obtain ⟨t, ahead, fault⟩ :=
      Parser.wholeExpression_failed_faultAt ready.scanned ready.lexed stopped
    refine ⟨List.ne_nil_of_mem (Parser.mem_report.mpr List.mem_cons_self), fun e mem => ?_⟩
    rcases List.mem_cons.mp (Parser.mem_report.mp mem) with rfl | mem
    · exact Or.inr ⟨t, Parser.ahead_ofSource source ▸ ahead, fault⟩
    · exact noted pass e mem

/-! ## Counting lines -/

theorem Cause.breaksLine_iff {cause : Cause} :
    cause.breaksLine = true ↔ ∃ char, cause = .loneOperator char (some '\n') := by
  constructor
  · intro breaks
    by_contra other
    rw [breaksLine, lines_of_ne fun char same => other ⟨char, same⟩] at breaks
    cases breaks
  · rintro ⟨char, rfl⟩
    rfl

theorem Diagnostic.length_lines (number : Nat) (d : Diagnostic) :
    (d.lines number).length = 1 + if d.cause.breaksLine then 1 else 0 := by
  rw [lines, Cause.breaksLine]
  cases d.cause.lines.2 <;> rfl

theorem Diagnostic.length_flatMap_lines (ds : List Diagnostic) (start : Nat) :
    ((ds.zipIdx start).flatMap fun (d, index) => d.lines (index + 1)).length =
      ds.length + ds.countP fun d => d.cause.breaksLine := by
  induction ds generalizing start with
  | nil => rfl
  | cons d ds ih =>
    rw [List.zipIdx_cons, List.flatMap_cons, List.length_append, ih, length_lines,
      List.length_cons, List.countP_cons]
    omega

/-- **A report has a line for each diagnostic, and one more for each newline told.** A parse that
fails has something to report. Its report is the headline and then, for each diagnostic in turn, a
line that begins with its number and its place. This line has the whole message, but for an operator
that is not doubled and stands in front of a newline: there the message goes on in another line. -/
theorem report_lines {source : String} {ds : List Diagnostic}
    (failed : Program.parse source = .error ds ∨ Expr.parse source = .error ds) :
    ds ≠ []
    ∧ linesOf (Diagnostic.report ds) = ("Generated " ++ ds.length.repr ++ " error(s):")
        :: ds.zipIdx.flatMap (fun (d, index) => d.lines (index + 1))
    ∧ (linesOf (Diagnostic.report ds)).length =
        ds.length + 1 + ds.countP (fun d => d.cause.breaksLine)
    ∧ ((∀ d ∈ ds, ∀ char, d.cause ≠ .loneOperator char (some '\n')) ↔
        linesOf (Diagnostic.report ds) = ("Generated " ++ ds.length.repr ++ " error(s):")
          :: ds.zipIdx.map (fun (d, index) => d.opening (index + 1) ++ d.cause.message)) := by
  have told : ds ≠ [] ∧ ∀ d ∈ ds, d.Of source :=
    failed.elim Program.told_of_parse Expr.told_of_parse
  have whole := Diagnostic.linesOf_report fun d mem => (told.2 d mem).plain
  have count : (linesOf (Diagnostic.report ds)).length =
      ds.length + 1 + ds.countP (fun d => d.cause.breaksLine) := by
    rw [whole, List.length_cons, Diagnostic.length_flatMap_lines]
    omega
  refine ⟨told.1, whole, count, fun single => ?_, fun same d mem char breaks => ?_⟩
  · rw [whole, List.map_eq_flatMap]
    refine congrArg (_ :: ·) (List.flatMap_congr fun (d, index) mem => ?_)
    show d.lines (index + 1) = [d.opening (index + 1) ++ d.cause.message]
    rw [Diagnostic.lines, Cause.lines_of_ne (single d (List.fst_mem_of_mem_zipIdx mem))]
    rfl
  · have none : ds.countP (fun d => d.cause.breaksLine) = 0 := by
      rw [same, List.length_cons, List.length_map, List.length_zipIdx] at count
      omega
    exact List.countP_eq_zero.mp none d mem (Cause.breaksLine_iff.mpr ⟨char, breaks⟩)

/-- Two faults, and a newline behind the first of them. -/
theorem report_lines_newline :
    Program.parse "let main x = x &\n x end" = .error
        [⟨⟨1, 16⟩, .loneOperator '&' (some '\n')⟩, ⟨⟨2, 2⟩, .unexpectedToken "x" "end"⟩]
      ∧ linesOf (Diagnostic.report
          [⟨⟨1, 16⟩, .loneOperator '&' (some '\n')⟩, ⟨⟨2, 2⟩, .unexpectedToken "x" "end"⟩]) =
        ["Generated 2 error(s):", "1: syntax error: 1:16: expected '&&', got '", "' instead",
          "2: syntax error: 2:2: unexpected token 'x', expected 'end'"] := by
  have failed : Program.parse "let main x = x &\n x end" = .error
      [⟨⟨1, 16⟩, .loneOperator '&' (some '\n')⟩, ⟨⟨2, 2⟩, .unexpectedToken "x" "end"⟩] := by
    rfl
  exact ⟨failed, (report_lines (Or.inl failed)).2.1⟩

/-- A report of one diagnostic need not have two lines. -/
theorem report_lines_length_ne :
    Expr.parse "1 &\n" = .error [⟨⟨1, 3⟩, .loneOperator '&' (some '\n')⟩]
      ∧ (linesOf (Diagnostic.report [⟨⟨1, 3⟩, .loneOperator '&' (some '\n')⟩])).length ≠ 1 + 1 :=
  ⟨by rfl, by decide +kernel⟩

end LoopLang
