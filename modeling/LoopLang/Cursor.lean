import LoopLang.Diagnostic

set_option autoImplicit false

/-! # Reading tokens from a text

A cursor is a place in a source text together with the characters that are left from there on.
`Cursor.next` skips layout (blanks, and comments from `#` to the end of the line) and then reads
the longest token that stands there; a character that begins no token is skipped alone and told as
a diagnostic. `Cursor.results` is all that is read before the end of the text. It counts down from
the number of characters left, which is enough because every result takes at least one character
(`next_length_lt`); so it obeys the plain recursion `results_eq`. -/

namespace LoopLang

/-! ## Classes of characters -/

/-- The characters that only separate tokens. -/
def isBlank (c : Char) : Bool :=
  c == ' ' || c == '\t' || c == '\n' || c == '\r'

/-- The characters that begin a word: the letters of the Latin alphabet and the underscore. -/
def isWordStart (c : Char) : Bool :=
  c.isAlpha || c == '_'

/-- The characters that go on with a word: those that begin one, and the decimal digits. -/
def isWordPart (c : Char) : Bool :=
  c.isAlphanum || c == '_'

/-! ## Lexemes -/

/-- A piece of text that is read as a whole: a token of some kind, or a fault. -/
structure Lexeme where
  meaning : Except Cause TokenKind
  text : List Char

namespace Lexeme

/-- The lexeme at the front of the text `c :: cs`, where `c` is no layout. Numbers, words and
symbols are as long as they can be. -/
def atFront (c : Char) (cs : List Char) : Lexeme :=
  if c.isDigit then
    ⟨.ok .integer, c :: cs.takeWhile Char.isDigit⟩
  else if isWordStart c then
    let word := c :: cs.takeWhile isWordPart
    ⟨.ok (.ofWord (String.ofList word)), word⟩
  else
    match Symbol.atFront? (c :: cs) with
    | some s => ⟨.ok (.symbol s), s.spelling.toList⟩
    | none =>
      if c = '&' ∨ c = '|' then
        ⟨.error (.loneOperator c cs.head?), [c]⟩
      else
        ⟨.error (.strayChar c), [c]⟩

/-- What a lexeme at the place `pos` is read as. -/
def result (l : Lexeme) (pos : Position) : Except Diagnostic Token :=
  match l.meaning with
  | .ok kind => .ok ⟨kind, String.ofList l.text, pos⟩
  | .error cause => .error ⟨pos, cause⟩

theorem atFront_text_ne_nil (c : Char) (cs : List Char) : (atFront c cs).text ≠ [] := by
  unfold atFront
  split
  · simp
  · split
    · simp
    · split
      · next s _ => cases s <;> simp [Symbol.spelling]
      · split <;> simp

/-- A lexeme is a front part of the text it is read from. -/
theorem atFront_text_isPrefix (c : Char) (cs : List Char) : (atFront c cs).text <+: c :: cs := by
  unfold atFront
  split
  · exact List.cons_prefix_cons.mpr ⟨rfl, List.takeWhile_prefix _⟩
  · split
    · exact List.cons_prefix_cons.mpr ⟨rfl, List.takeWhile_prefix _⟩
    · split
      · next s found => exact Symbol.spelling_isPrefix_of_atFront? found
      · split <;> exact List.cons_prefix_cons.mpr ⟨rfl, List.nil_prefix⟩

/-- No lexeme is read as the end of the text. -/
theorem kind_ne_eof {c : Char} {cs : List Char} {kind : TokenKind}
    (h : (atFront c cs).meaning = .ok kind) : kind ≠ .eof := by
  unfold atFront at h
  split at h
  · cases h; simp
  · split at h
    · cases h
      unfold TokenKind.ofWord
      split <;> simp
    · split at h
      · cases h; simp
      · split at h <;> cases h

end Lexeme

/-! ## Cursors -/

/-- The characters that are left to read, and the place of the first of them. -/
structure Cursor where
  rest : List Char
  pos : Position
deriving Repr

namespace Cursor

/-- The cursor at the start of a source text. -/
def ofSource (source : String) : Cursor := ⟨source.toList, .start⟩

/-- The place behind the last character. -/
def endPos (c : Cursor) : Position := c.pos.advance c.rest

/-- Goes over a piece of text that stands at the cursor. -/
def past (c : Cursor) (piece : List Char) : Cursor :=
  ⟨c.rest.drop piece.length, c.pos.advance piece⟩

/-- The cursor behind the layout in front of a text; a comment may already be open, and goes on up
to a newline, which is a blank itself. -/
def behindLayout (inComment : Bool) : List Char → Position → Cursor
  | [], pos => ⟨[], pos⟩
  | c :: cs, pos =>
    if inComment then behindLayout (c != '\n') cs (pos.after c)
    else if isBlank c then behindLayout false cs (pos.after c)
    else if c = '#' then behindLayout true cs (pos.after c)
    else ⟨c :: cs, pos⟩

/-- Goes over blanks and comments. -/
def skipLayout (c : Cursor) : Cursor :=
  behindLayout false c.rest c.pos

/-- Reads what stands at the cursor, where no layout stands. -/
def readHere (c : Cursor) : Except Diagnostic Token × Cursor :=
  match c.rest with
  | [] => (.ok (.endOfText c.pos), c)
  | first :: others =>
    ((Lexeme.atFront first others).result c.pos, c.past (Lexeme.atFront first others).text)

/-- Reads the next token, or tells and skips the character that begins none. At the end of the
text it reads the end of the text, however often it is asked. -/
def next (c : Cursor) : Except Diagnostic Token × Cursor :=
  c.skipLayout.readHere

/-- The results of reading at most `n` times, up to the end of the text. -/
def resultsWithin : Nat → Cursor → List (Except Diagnostic Token)
  | 0, _ => []
  | n + 1, c =>
    match c.next with
    | (.error d, later) => .error d :: resultsWithin n later
    | (.ok t, later) => if t.kind = .eof then [] else .ok t :: resultsWithin n later

/-- All that is read before the end of the text. -/
def results (c : Cursor) : List (Except Diagnostic Token) :=
  resultsWithin c.rest.length c

/-! ## Every result takes a character -/

theorem behindLayout_length_le (inComment : Bool) (cs : List Char) (pos : Position) :
    (behindLayout inComment cs pos).rest.length ≤ cs.length := by
  induction cs generalizing inComment pos with
  | nil => simp [behindLayout]
  | cons c cs ih =>
    unfold behindLayout
    split
    · exact Nat.le_succ_of_le (ih _ _)
    · split
      · exact Nat.le_succ_of_le (ih _ _)
      · split
        · exact Nat.le_succ_of_le (ih _ _)
        · exact Nat.le_refl _

theorem skipLayout_length_le (c : Cursor) : c.skipLayout.rest.length ≤ c.rest.length :=
  behindLayout_length_le _ _ _

/-- Reading takes at least one character, if there is one. -/
theorem readHere_length_lt {c : Cursor} (h : c.rest ≠ []) :
    c.readHere.2.rest.length < c.rest.length := by
  unfold readHere
  split
  · next empty => exact absurd empty h
  · next first others more =>
    have nonempty := List.length_pos_iff.mpr (Lexeme.atFront_text_ne_nil first others)
    simp only [past, List.length_drop, more, List.length_cons]
    omega

theorem readHere_of_nil {c : Cursor} (h : c.rest = []) :
    c.readHere = (.ok (.endOfText c.pos), c) := by
  unfold readHere
  split
  · rfl
  · next more => rw [h] at more; cases more

/-- Whatever is read, other than the end of the text, takes at least one character. -/
theorem next_length_lt {c later : Cursor} {r : Except Diagnostic Token}
    (h : c.next = (r, later)) (notEnd : ∀ t, r = .ok t → t.kind ≠ .eof) :
    later.rest.length < c.rest.length := by
  have more : c.skipLayout.rest ≠ [] := by
    intro empty
    rw [next, readHere_of_nil empty] at h
    cases h
    exact notEnd _ rfl rfl
  have shorter := readHere_length_lt more
  have bound := c.skipLayout_length_le
  rw [next] at h
  rw [h] at shorter
  exact Nat.lt_of_lt_of_le shorter bound

/-- Reading more often than there are characters brings nothing new. -/
theorem resultsWithin_eq_of_le {m n : Nat} {c : Cursor} (hm : c.rest.length ≤ m)
    (hn : c.rest.length ≤ n) : resultsWithin m c = resultsWithin n c := by
  have atEnd : ∀ {k : Nat} {c : Cursor}, c.rest.length ≤ 0 → resultsWithin k c = [] := by
    intro k c empty
    have skipped : c.skipLayout.rest = [] :=
      List.length_eq_zero_iff.mp (Nat.le_zero.mp (Nat.le_trans c.skipLayout_length_le empty))
    cases k with
    | zero => rfl
    | succ k => simp [resultsWithin, next, readHere_of_nil skipped, Token.endOfText]
  induction m generalizing n c with
  | zero => rw [atEnd hm, atEnd hm]
  | succ m ih =>
    cases n with
    | zero => rw [atEnd hn, atEnd hn]
    | succ n =>
      unfold resultsWithin
      split
      · next d later read =>
        have shorter := next_length_lt read fun t h => nomatch h
        rw [ih (n := n) (by omega) (by omega)]
      · next t later read =>
        split
        · rfl
        · next kind =>
          have shorter := next_length_lt read fun u h => by cases h; exact kind
          rw [ih (n := n) (by omega) (by omega)]

/-- All that is read from a cursor: the next result and then all that is read behind it. -/
theorem results_eq (c : Cursor) :
    c.results =
      match c.next with
      | (.error d, later) => .error d :: later.results
      | (.ok t, later) => if t.kind = .eof then [] else .ok t :: later.results := by
  rw [results, resultsWithin_eq_of_le (Nat.le_refl _) (Nat.le_succ _), resultsWithin]
  split
  · next d later read =>
    have shorter := next_length_lt read fun t h => nomatch h
    rw [resultsWithin_eq_of_le (by omega) (Nat.le_refl _), ← results]
  · next t later read =>
    split
    · rfl
    · next kind =>
      have shorter := next_length_lt read fun u h => by cases h; exact kind
      rw [resultsWithin_eq_of_le (by omega) (Nat.le_refl _), ← results]

end Cursor

end LoopLang
