set_option autoImplicit false

/-! # Decimal text of 64-bit integers

Writing gives the shortest decimal text, with a minus sign in front of a negative number. Reading
takes more: an optional sign of either kind and any number of leading zeros, but at least one
digit, nothing else, and a value between `-2^63` and `2^63 - 1`. What is written is read back as
the same number (`read?_text`), and a run of digits is read exactly when its value is in range
(`read?_digits`). -/

namespace LoopLang.Decimal

/-! ## Runs of digits -/

/-- The number that a run of decimal digits denotes, the most significant digit first. -/
def value (digits : List Char) : Nat :=
  Nat.ofDigitChars 10 digits 0

/-- The number denoted by a text that is a nonempty run of decimal digits. -/
def natural? (text : List Char) : Option Nat :=
  if text ≠ [] ∧ text.all Char.isDigit then some (value text) else none

theorem natural?_repr (n : Nat) : natural? n.repr.toList = some n := by
  have digits : (Nat.toDigits 10 n).all Char.isDigit = true :=
    List.all_eq_true.mpr fun _ h => Nat.isDigit_of_mem_toDigits (by decide) (by decide) h
  simp [natural?, value, Nat.toDigits_ne_nil, digits]

/-! ## Signed numbers -/

/-- The number denoted by a run of digits behind an optional sign. -/
def integer? : List Char → Option Int
  | '-' :: digits => (natural? digits).map fun n => -Int.ofNat n
  | '+' :: digits => (natural? digits).map Int.ofNat
  | digits => (natural? digits).map Int.ofNat

/-- The 64-bit integer of this value, if there is one. -/
def ofInt? (n : Int) : Option Int64 :=
  if Int64.minValue.toInt ≤ n ∧ n ≤ Int64.maxValue.toInt then some (Int64.ofInt n) else none

/-- Reads a signed decimal number that fits in 64 bits. -/
def read? (text : String) : Option Int64 :=
  (integer? text.toList).bind ofInt?

/-- Writes a number, without leading zeros and without a plus sign. -/
def text (n : Int64) : String :=
  n.toInt.repr

/-- Behind no sign, the number is the run of digits itself. -/
theorem integer?_eq_natural? {c : Char} {cs : List Char} (h : c.isDigit = true) :
    integer? (c :: cs) = (natural? (c :: cs)).map Int.ofNat := by
  unfold integer?
  split
  · next h' => cases h'; simp at h
  · next h' => cases h'; simp at h
  · rfl

theorem ofInt?_toInt (n : Int64) : ofInt? n.toInt = some n := by
  have inRange : Int64.minValue.toInt ≤ n.toInt ∧ n.toInt ≤ Int64.maxValue.toInt :=
    ⟨n.minValue_le_toInt, n.toInt_le⟩
  rw [ofInt?, if_pos inRange, Int64.ofInt_toInt]

theorem integer?_repr (n : Int) : integer? n.repr.toList = some n := by
  cases n with
  | ofNat m =>
    have read := natural?_repr m
    simp only [Int.repr_eq_if, Int.ofNat_eq_natCast, Int.natCast_nonneg, if_true, Int.toNat_natCast]
    cases digits : m.repr.toList with
    | nil => simp [digits, natural?] at read
    | cons c cs =>
      have digit : c.isDigit = true := by
        simp only [natural?, digits] at read
        split at read
        · next h => exact List.all_eq_true.mp h.2 c List.mem_cons_self
        · cases read
      rw [integer?_eq_natural? digit, ← digits, natural?_repr]
      rfl
  | negSucc m =>
    have negative : ¬ 0 ≤ Int.negSucc m := by omega
    have size : (-Int.negSucc m).toNat = m + 1 := by omega
    have sign : integer? ("-".toList ++ (m + 1).repr.toList)
        = (natural? (m + 1).repr.toList).map fun n => -Int.ofNat n := by
      simp [integer?]
    rw [Int.repr_eq_if, if_neg negative, size, String.toList_append, sign, natural?_repr]
    rfl

/-- What is written is read back as the same number. -/
theorem read?_text (n : Int64) : read? (text n) = some n := by
  simp [read?, text, integer?_repr, ofInt?_toInt]

/-- A run of digits is read exactly when its value is in range. -/
theorem read?_digits {digits : String} (nonempty : digits.toList ≠ [])
    (allDigits : digits.toList.all Char.isDigit = true) :
    read? digits =
      if (value digits.toList : Int) ≤ Int64.maxValue.toInt
      then some (Int64.ofInt (value digits.toList)) else none := by
  cases h : digits.toList with
  | nil => exact absurd h nonempty
  | cons c cs =>
    rw [h] at allDigits
    have digit : c.isDigit = true := List.all_eq_true.mp allDigits c List.mem_cons_self
    have read : natural? (c :: cs) = some (value (c :: cs)) := by
      simp only [natural?, allDigits]
      simp
    have lower : Int64.minValue.toInt ≤ (value (c :: cs) : Int) :=
      Int.le_trans (by decide) (Int.natCast_nonneg _)
    rw [read?, h, integer?_eq_natural? digit, read, Option.map_some, Option.bind_some,
      Int.ofNat_eq_natCast]
    by_cases small : (value (c :: cs) : Int) ≤ Int64.maxValue.toInt
    · rw [if_pos small, ofInt?, if_pos ⟨lower, small⟩]
    · rw [if_neg small, ofInt?, if_neg fun inRange => small inRange.2]

end LoopLang.Decimal
