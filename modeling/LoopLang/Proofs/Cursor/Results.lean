import LoopLang.Cursor

set_option autoImplicit false

/-! # The tokens of a text

What all tokens read from a text have in common: none of them is the end of the text, and the text
of an integer is a run of digits. And wherever a cursor comes to, the text ends where it did. -/

namespace LoopLang

/-- Where the token is an integer, its text is a run of digits. -/
def Token.Lexed (t : Token) : Prop :=
  t.kind = .integer → t.literal.toList ≠ [] ∧ t.literal.toList.all Char.isDigit = true

namespace Lexeme

theorem digits_of_integer {c : Char} {cs : List Char}
    (h : (atFront c cs).meaning = .ok .integer) :
    (atFront c cs).text.all Char.isDigit = true := by
  unfold atFront at h ⊢
  by_cases digit : c.isDigit
  · simp [digit, List.all_takeWhile]
  · rw [if_neg digit] at h
    split at h
    · simp only [TokenKind.ofWord, Except.ok.injEq] at h
      split at h <;> cases h
    · split at h
      · cases h
      · split at h <;> cases h

theorem lexed_of_result {c : Char} {cs : List Char} {pos : Position} {t : Token}
    (h : (atFront c cs).result pos = .ok t) : t.Lexed := by
  unfold result at h
  split at h
  · next kind meaning =>
    cases h
    rintro rfl
    simp only [String.toList_ofList]
    exact ⟨atFront_text_ne_nil c cs, digits_of_integer meaning⟩
  · cases h

end Lexeme

namespace Cursor

theorem lexed_of_next {c later : Cursor} {t : Token} (h : c.next = (.ok t, later)) : t.Lexed := by
  unfold next readHere at h
  split at h
  · cases h
    exact fun kind => nomatch kind
  · next first others _ =>
    exact Lexeme.lexed_of_result (congrArg Prod.fst h)

/-- What is read in front of the end of a text is no end of a text, and its integers are runs of
digits. -/
theorem lexed_of_mem_results {c : Cursor} {t : Token} (h : .ok t ∈ c.results) :
    t.kind ≠ .eof ∧ t.Lexed := by
  unfold results at h
  -- how often the cursor is read plays no part
  generalize c.rest.length = n at h
  induction n generalizing c with
  | zero => cases h
  | succ n ih =>
    unfold resultsWithin at h
    split at h
    · rcases List.mem_cons.mp h with same | others
      · cases same
      · exact ih others
    · next u later read =>
      split at h
      · cases h
      · next notEnd =>
        rcases List.mem_cons.mp h with same | others
        · cases same
          exact ⟨notEnd, lexed_of_next read⟩
        · exact ih others

/-! ## Where the text ends -/

theorem behindLayout_endPos (inComment : Bool) (cs : List Char) (pos : Position) :
    (behindLayout inComment cs pos).endPos = pos.advance cs := by
  induction cs generalizing inComment pos with
  | nil => rfl
  | cons c cs ih =>
    unfold behindLayout
    split
    · exact ih _ _
    · split
      · exact ih _ _
      · split
        · exact ih _ _
        · rfl

/-- Going over a piece that stands at the cursor does not move the end. -/
theorem past_endPos {c : Cursor} {piece : List Char} (front : piece <+: c.rest) :
    (c.past piece).endPos = c.endPos := by
  obtain ⟨after, whole⟩ := front
  rw [past, endPos, endPos, ← whole, List.drop_left, Position.advance_append]

theorem next_endPos (c : Cursor) : c.next.2.endPos = c.endPos := by
  have skipped : c.skipLayout.endPos = c.endPos := behindLayout_endPos false c.rest c.pos
  rw [next, ← skipped]
  unfold readHere
  split
  · rfl
  · next first others more =>
    exact past_endPos (more ▸ Lexeme.atFront_text_isPrefix first others)

/-- Reading brings the first result, or nothing more is read before the end of the text. -/
theorem results_cases {c d : Cursor} {r : Except Diagnostic Token} (h : c.next = (r, d)) :
    c.results = r :: d.results
      ∨ c.results = [] ∧ d.results = [] ∧ r = .ok (.endOfText c.endPos) := by
  by_cases more : c.skipLayout.rest = []
  · -- only layout is left
    have skipped : c.skipLayout.endPos = c.endPos := behindLayout_endPos false c.rest c.pos
    have read : c.next = (.ok (.endOfText c.skipLayout.pos), c.skipLayout) := readHere_of_nil more
    have place : c.skipLayout.pos = c.endPos := by
      rw [← skipped, endPos, more, Position.advance_nil]
    have nothing : c.results = [] := by
      rw [results_eq, read]
      rfl
    have nothing' : c.skipLayout.results = [] := by
      rw [results, more, List.length_nil, resultsWithin]
    rw [read, place] at h
    cases h
    exact Or.inr ⟨nothing, nothing', rfl⟩
  · left
    rw [results_eq, h]
    cases r with
    | error e => rfl
    | ok t =>
      refine if_neg fun atEnd => ?_
      -- what is read at a character is no end of the text
      unfold next readHere at h
      split at h
      · next empty => exact more empty
      · next first others _ =>
        have meaning := congrArg Prod.fst h
        unfold Lexeme.result at meaning
        dsimp only at meaning
        split at meaning
        · next kind isKind =>
          cases meaning
          exact Lexeme.kind_ne_eof isKind atEnd
        · cases meaning

end Cursor

end LoopLang
