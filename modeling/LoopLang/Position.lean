set_option autoImplicit false

/-! # Places in a source text

A place is a line and a column, both counted from one, and a column counts Unicode characters.
`Position.advance` moves a place over a piece of text: a newline opens the next line and every
other character takes one column. Both counters have 32 bits and come round behind the last number
that these can hold. Places are ordered by line and then by column; this is the order in which they
are met in a text, as long as no counter comes round. -/

namespace LoopLang

/-- The place of one character in a source text. -/
structure Position where
  line : UInt32
  column : UInt32
deriving DecidableEq, Repr, Inhabited

namespace Position

/-- The place of the first character of a text. -/
def start : Position := ⟨1, 1⟩

/-- The place of no character at all, for tokens that were never read from a text. -/
def nowhere : Position := ⟨0, 0⟩

/-- The place behind the character `c`, if `c` stands at `p`. -/
def after (p : Position) (c : Char) : Position :=
  if c = '\n' then ⟨p.line + 1, 1⟩ else ⟨p.line, p.column + 1⟩

/-- The place behind a whole piece of text that starts at `p`. -/
def advance (p : Position) (text : List Char) : Position :=
  text.foldl after p

@[simp] theorem advance_nil (p : Position) : p.advance [] = p := rfl

@[simp] theorem advance_cons (p : Position) (c : Char) (cs : List Char) :
    p.advance (c :: cs) = (p.after c).advance cs := rfl

theorem advance_append (p : Position) (cs ds : List Char) :
    p.advance (cs ++ ds) = (p.advance cs).advance ds :=
  List.foldl_append

/-- Whether `p` comes no later than `q`, by line and then by column. -/
def notAfter (p q : Position) : Bool :=
  p.line < q.line || (p.line == q.line && p.column ≤ q.column)

theorem notAfter_iff {p q : Position} :
    p.notAfter q = true ↔ p.line.toNat < q.line.toNat
      ∨ (p.line.toNat = q.line.toNat ∧ p.column.toNat ≤ q.column.toNat) := by
  simp [notAfter, UInt32.lt_iff_toNat_lt, UInt32.le_iff_toNat_le, UInt32.toNat_inj]

theorem notAfter_trans {p q r : Position} (hpq : p.notAfter q = true)
    (hqr : q.notAfter r = true) : p.notAfter r = true := by
  rw [notAfter_iff] at *
  omega

theorem notAfter_of_not {p q : Position} (h : ¬p.notAfter q = true) : q.notAfter p = true := by
  rw [notAfter_iff] at *
  omega

/-- The written form `LINE:COLUMN`. -/
def text (p : Position) : String :=
  p.line.toNat.repr ++ ":" ++ p.column.toNat.repr

end Position

end LoopLang
