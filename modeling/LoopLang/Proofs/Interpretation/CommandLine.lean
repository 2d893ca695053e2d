import LoopLang.CommandLine.Words
import LoopLang.Proofs.BigStep.Blame
import Mathlib.Data.List.Forall2

set_option autoImplicit false

/-! # The command line and the interpreter

Calling the command with a file and some integers is interpreting the text in the file with these
integers, however the integers are spelled: a value goes to the standard output and an error to the
standard error, each as one text and with nothing else beside it, and the exit code tells which it
was. `Decimal.Spells` says what the spellings of an integer are, without reading any. -/

namespace LoopLang

namespace Decimal

/-! ## Spellings -/

/-- A run of decimal digits, at least one, that denotes the number `n`. Zeros may lead. -/
structure Digits (digits : List Char) (n : Nat) : Prop where
  nonempty : digits ≠ []
  allDigits : ∀ c ∈ digits, c.isDigit = true
  value : value digits = n

/-- The word spells the 64-bit integer: as a run of digits, without a sign or behind either one. -/
inductive Spells (word : String) (v : Int64) : Prop where
  | unsigned {n} (run : Digits word.toList n) (same : v.toInt = n)
  | plus {ds n} (sign : word.toList = '+' :: ds) (run : Digits ds n) (same : v.toInt = n)
  | minus {ds n} (sign : word.toList = '-' :: ds) (run : Digits ds n) (same : v.toInt = -n)

theorem natural?_eq_some_iff {ds : List Char} {n : Nat} : natural? ds = some n ↔ Digits ds n := by
  unfold natural?
  constructor
  · intro read
    split at read
    · next run => exact ⟨run.1, List.all_eq_true.mp run.2, Option.some.inj read⟩
    · cases read
  · rintro ⟨nonempty, digits, rfl⟩
    rw [if_pos ⟨nonempty, List.all_eq_true.mpr digits⟩]

theorem ofInt?_eq_some_iff {n : Int} {v : Int64} : ofInt? n = some v ↔ v.toInt = n := by
  constructor
  · intro read
    unfold ofInt? at read
    split at read
    · next inRange =>
      rw [← Option.some.inj read]
      exact Int64.toInt_ofInt_of_le inRange.1 (Int.lt_add_one_of_le inRange.2)
    · cases read
  · rintro rfl
    exact ofInt?_toInt v

/-- What is read are the spellings. -/
theorem read?_eq_some_iff {word : String} {v : Int64} : read? word = some v ↔ Spells word v := by
  constructor
  · intro read
    obtain ⟨n, isNumber, inRange⟩ := Option.bind_eq_some_iff.mp read
    have same := ofInt?_eq_some_iff.mp inRange
    unfold integer? at isNumber
    split at isNumber
    · next ds sign =>
      obtain ⟨m, run, rfl⟩ := Option.map_eq_some_iff.mp isNumber
      exact .minus sign (natural?_eq_some_iff.mp run) same
    · next ds sign =>
      obtain ⟨m, run, rfl⟩ := Option.map_eq_some_iff.mp isNumber
      exact .plus sign (natural?_eq_some_iff.mp run) same
    · obtain ⟨m, run, rfl⟩ := Option.map_eq_some_iff.mp isNumber
      exact .unsigned (natural?_eq_some_iff.mp run) same
  · rintro (⟨run, same⟩ | @⟨ds, n, sign, run, same⟩ | @⟨ds, n, sign, run, same⟩)
    · obtain ⟨c, cs, front⟩ := List.exists_cons_of_ne_nil run.nonempty
      have digit : c.isDigit = true := run.allDigits c (by rw [front]; exact List.mem_cons_self)
      rw [read?, front, integer?_eq_natural? digit, ← front, natural?_eq_some_iff.mpr run]
      exact ofInt?_eq_some_iff.mpr same
    · have read : integer? word.toList = (natural? ds).map Int.ofNat := congrArg integer? sign
      rw [read?, read, natural?_eq_some_iff.mpr run]
      exact ofInt?_eq_some_iff.mpr same
    · have read : integer? word.toList = (natural? ds).map fun n => -Int.ofNat n :=
        congrArg integer? sign
      rw [read?, read, natural?_eq_some_iff.mpr run]
      exact ofInt?_eq_some_iff.mpr same

end Decimal

namespace CommandLine

/-! ## Readers of words -/

/-- The word does not look like an option: nothing follows a minus sign at its front. -/
def Plain (word : String) : Prop := ∀ c cs, word.toList ≠ '-' :: c :: cs

/-- The word looks like a negative number: digits follow a minus sign. -/
def LooksNegative (word : String) : Prop :=
  ∃ digits, word.toList = '-' :: digits ∧ digits ≠ [] ∧ ∀ c ∈ digits, c.isDigit = true

/-- The reader takes the first word as the file and the words behind it as integers, if it accepts
such words as values. -/
def Reader.FileFirst (read : Reader) (isValue : String → Prop) : Prop :=
  ∀ file words values, Plain file →
    List.Forall₂ (fun word v => isValue word ∧ Decimal.read? word = some v) words values →
    read (file :: words) = .ok ⟨file, values⟩

/-- A spelling of an integer looks like a negative number, or else like no option. -/
theorem plain_or_looksNegative {word : String} {v : Int64} (spelled : Decimal.Spells word v) :
    Plain word ∨ LooksNegative word := by
  cases spelled with
  | unsigned run =>
    refine Or.inl fun c cs sign => ?_
    have digit := run.allDigits '-' (by rw [sign]; exact List.mem_cons_self)
    cases digit
  | plus sign =>
    refine Or.inl fun c cs sign' => ?_
    cases sign.symm.trans sign'
  | minus sign run => exact Or.inr ⟨_, sign, run.nonempty, run.allDigits⟩

/-! ## The reader of words -/

/-- Behind a minus sign, digits are no option where an integer may stand. -/
theorem Word.classify_of_looksNegative {word : String} (negative : LooksNegative word) :
    Word.classify true word = .operand := by
  obtain ⟨digits, sign, nonempty, allDigits⟩ := negative
  obtain ⟨c, cs, rfl⟩ := List.exists_cons_of_ne_nil nonempty
  have digit := allDigits c List.mem_cons_self
  have all : (c :: cs).all Char.isDigit = true := List.all_eq_true.mpr allDigits
  unfold classify
  rw [sign]
  split
  · next both => cases both; cases digit
  · next both => cases both; cases digit
  · next both => cases both; cases digit
  · next both => cases both; cases digit
  · next both =>
    cases both
    rw [all]
    rfl
  · rfl

/-- What does not look like an option is none. -/
theorem Word.classify_of_plain {word : String} (plain : Plain word) (integers : Bool) :
    Word.classify integers word = .operand := by
  unfold classify
  split
  · next sign => exact absurd sign (plain _ _)
  · next sign => exact absurd sign (plain _ _)
  · next sign => exact absurd sign (plain _ _)
  · next sign => exact absurd sign (plain _ _)
  · next sign => exact absurd sign (plain _ _)
  · rfl

theorem readArgs_of_values {file : String} {words : List String} {values : List Int64}
    (denoted : List.Forall₂
      (fun word v => Word.classify true word = .operand ∧ Decimal.read? word = some v) words values)
    (before : List Int64) :
    readArgs file false before words = .ok ⟨file, before.reverse ++ values⟩ := by
  induction denoted generalizing before with
  | nil => rw [readArgs, List.append_nil]
  | @cons word v words values first _ ih =>
    obtain ⟨operand, read⟩ := first
    rw [readArgs, if_neg (by decide), operand]
    dsimp only
    rw [read]
    dsimp only
    rw [ih, List.reverse_cons, List.append_assoc]
    rfl

/-- The reader of words takes the file first. -/
theorem readWords_fileFirst :
    Reader.FileFirst readWords fun word => Word.classify true word = .operand := by
  intro file words values plain denoted
  rw [readWords, readFile, if_neg (by decide), Word.classify_of_plain plain]
  exact readArgs_of_values denoted []

/-! ## Files -/

/-- What a text is stored as is read back as this text. -/
theorem fromUTF8?_toUTF8 (s : String) : String.fromUTF8? s.toUTF8 = some s := by
  rw [String.fromUTF8?, String.toUTF8_eq_toByteArray, dif_pos s.isValidUTF8]
  rfl

/-! ## Runs -/

/-- A run that ends has a value or an error: the stack never breaks. -/
theorem interpret_ne_brokenStack (fuel : Nat) (source : String) (args : List Int64) :
    interpret fuel source args ≠ .error .brokenStack := by
  intro broken
  unfold interpret at broken
  split at broken
  · cases broken
  next p _ =>
    have arises := p.evaluate_arises fuel args
    match run : p.evaluate fuel args with
    | .ok v => simp [run, Except.mapError] at broken
    | .error (.error _) | .error .outOfFuel => simp [run, Except.mapError, Halt.map] at broken
    | .error .brokenStack =>
      rw [run] at arises
      exact arises

/-- **The command line agrees with the interpreter.** Take a reader that takes the file first, and
as values the words that do not look like options and those that look like negative numbers. Take
also a file with a source text and words that spell some integers, each in any way. If interpreting
the text with these integers comes to a value, the command writes its decimal text and a newline to
the standard output, nothing to the standard error, and exits with 0. If it comes to an error, the
command writes the text of this error and a newline to the standard error, nothing to the standard
output, and exits with 1. Only where interpreting runs out of fuel is there no response. And the
decimal text of an integer spells this integer and no other one, so the command takes it back as an
argument. -/
theorem respond_as_interpreted {read : Reader} {isValue : String → Prop}
    (fileFirst : read.FileFirst isValue)
    (plainAccepted : ∀ word, Plain word → isValue word)
    (negativeAccepted : ∀ word, LooksNegative word → isValue word)
    {file source : String} {words : List String} {values : List Int64}
    {contents : String → Except String ByteArray} (named : Plain file)
    (stored : contents file = .ok source.toUTF8)
    (spelled : List.Forall₂ Decimal.Spells words values) (fuel : Nat) :
    (∀ v, interpret fuel source values = .ok v →
      respond read fuel contents (file :: words) = some ⟨0, Decimal.text v ++ "\n", ""⟩)
    ∧ (∀ failure, interpret fuel source values = .error (.error failure) →
      respond read fuel contents (file :: words) = some ⟨1, "", failure.message ++ "\n"⟩)
    ∧ (respond read fuel contents (file :: words) = none ↔
        interpret fuel source values = .error .outOfFuel)
    ∧ ∀ v w, (Decimal.Spells (Decimal.text v) w ↔ w = v)
        ∧ read [file, Decimal.text v] = .ok ⟨file, [v]⟩ := by
  have denoted {word : String} {v : Int64} (spelled : Decimal.Spells word v) :
      isValue word ∧ Decimal.read? word = some v :=
    ⟨(plain_or_looksNegative spelled).elim (plainAccepted word) (negativeAccepted word),
      Decimal.read?_eq_some_iff.mpr spelled⟩
  have spells (v : Int64) : Decimal.Spells (Decimal.text v) v :=
    Decimal.read?_eq_some_iff.mp (Decimal.read?_text v)
  have response : respond read fuel contents (file :: words) =
      respondToSource fuel source values := by
    rw [respond, fileFirst file words values named (spelled.imp fun _ _ => denoted)]
    dsimp only
    rw [stored]
    dsimp only
    rw [fromUTF8?_toUTF8]
  rw [response]
  unfold respondToSource
  refine ⟨fun v value => ?_, fun failure failed => ?_, ?_, fun v w => ⟨?_, ?_⟩⟩
  · rw [value]
  · rw [failed]
  · match run : interpret fuel source values with
    | .ok v => simp
    | .error (.error failure) => simp
    | .error .brokenStack => exact absurd run (interpret_ne_brokenStack fuel source values)
    | .error .outOfFuel => simp
  · rw [← Decimal.read?_eq_some_iff, Decimal.read?_text, Option.some.injEq, eq_comm]
  · exact fileFirst file _ _ named (.cons (denoted (spells v)) .nil)

/-- The least integer, as a sum of two arguments with signs and leading zeros. -/
theorem respond_as_interpreted_least :
    Reader.FileFirst readWords (fun word => Word.classify true word = .operand)
      ∧ Plain "sum.sl"
      ∧ List.Forall₂ Decimal.Spells ["-009223372036854775807", "+01"] [-9223372036854775807, 1]
      ∧ respond readWords 9 (fun _ => .ok "let main a b = a + -b end".toUTF8)
          ["sum.sl", "-009223372036854775807", "+01"] =
        some ⟨0, "-9223372036854775808\n", ""⟩ := by
  have named : Plain "sum.sl" := by
    intro c cs option
    cases option
  have spelled : List.Forall₂ Decimal.Spells ["-009223372036854775807", "+01"]
      [-9223372036854775807, 1] :=
    .cons (Decimal.read?_eq_some_iff.mp (by decide +kernel))
      (.cons (Decimal.read?_eq_some_iff.mp (by decide +kernel)) .nil)
  have value : interpret 9 "let main a b = a + -b end" [-9223372036854775807, 1] =
      .ok (-9223372036854775808) := by rfl
  have agrees := @respond_as_interpreted readWords (fun word => Word.classify true word = .operand)
    readWords_fileFirst (fun _ plain => Word.classify_of_plain plain true)
    (fun _ => Word.classify_of_looksNegative) "sum.sl" "let main a b = a + -b end" _ _
    (fun _ => .ok "let main a b = a + -b end".toUTF8) named rfl spelled 9
  exact ⟨readWords_fileFirst, named, spelled, agrees.1 _ value⟩

end CommandLine

end LoopLang
