import LoopLang.Proofs.Printing.RoundTrip
import Mathlib.Data.List.Chain

set_option autoImplicit false

/-! # Which tokens may touch

Tokens are written one behind the other, with any blanks and comments between them. They are
scanned back, without any fault, exactly if two of them never touch that would then be read as
something else: a word in front of a word or of an integer, two integers, and `=` in front of `=`
or `==`. These are the neighbours of which the second could make the first longer
(`Lexical.extends_iff_clash`). -/

namespace LoopLang

open Printing Lexical

/-! ## Gaps -/

namespace Lexical

/-- Blanks and comments, each comment with the newline that ends it. -/
inductive Gap : List Char → Prop where
  | nil : Gap []
  | blank {c w} (blank : Blank c) (more : Gap w) : Gap (c :: w)
  | comment {text w} (line : '\n' ∉ text) (more : Gap w) : Gap ('#' :: (text ++ '\n' :: w))

/-- Blanks and comments at the end of a text, where the last comment may be left open. -/
inductive LastGap : List Char → Prop where
  | closed {w} (gap : Gap w) : LastGap w
  | unterminated {w text} (gap : Gap w) (line : '\n' ∉ text) : LastGap (w ++ '#' :: text)

/-- A gap in front of layout is layout. -/
theorem Gap.append_layout {after w v : List Char} (gap : Gap w) (layout : Layout after v) :
    Layout after (w ++ v) := by
  induction gap with
  | nil => exact layout
  | blank blank _ ih => exact .blank blank ih
  | @comment text w line _ ih =>
    have newline : Blank '\n' := by simp [Blank]
    simp only [List.cons_append, List.append_assoc]
    exact .comment line (by simp) (.blank newline ih)

theorem Gap.layout {w : List Char} (gap : Gap w) (after : List Char) : Layout after w := by
  simpa using gap.append_layout (@Layout.nil after)

theorem LastGap.layout {w : List Char} (last : LastGap w) : Layout [] w := by
  cases last with
  | closed gap => exact gap.layout []
  | @unterminated w text gap line =>
    have comment : Layout [] ('#' :: (text ++ [])) := .comment line (by simp) .nil
    rw [List.append_nil] at comment
    exact gap.append_layout comment

theorem Gap.front {w : List Char} (gap : Gap w) : ∀ c ∈ w.head?, Blank c ∨ c = '#' := by
  intro c mem
  cases gap with
  | nil => simp at mem
  | blank blank _ =>
    obtain rfl : _ = c := by simpa using mem
    exact Or.inl blank
  | comment _ _ =>
    obtain rfl : '#' = c := by simpa using mem
    exact Or.inr rfl

theorem LastGap.front {w : List Char} (last : LastGap w) :
    ∀ c ∈ w.head?, Blank c ∨ c = '#' := by
  intro c mem
  rcases last with gap | @⟨w, text, gap, line⟩
  · exact gap.front c mem
  · rcases w with _ | ⟨d, w⟩
    · obtain rfl : '#' = c := by simpa using mem
      exact Or.inr rfl
    · exact gap.front c (by simpa using mem)

/-- What a gap begins with makes no token longer. -/
theorem not_extends_of_front {kind : TokenKind} {c : Char} (front : Blank c ∨ c = '#') :
    ¬Extends kind c := by
  rcases front with blank | rfl
  · exact not_extends_blank blank
  · have visible : ¬Letter '#' ∧ ¬Digit '#' := by
      unfold Letter Digit
      decide
    intro longer
    unfold Extends at longer
    split at longer <;> simp_all

/-- Every token begins with a visible character. -/
theorem exists_visible {kind : TokenKind} {text : List Char} (fits : Fits kind text) :
    ∃ c cs, text = c :: cs ∧ Visible c := by
  have read : ReadAs .start [] text (.ok ⟨kind, String.ofList text, .start⟩) := .token fits nofun
  obtain ⟨c, cs, same, visible, _⟩ := read.atFront_eq
  exact ⟨c, cs, same, visible⟩

theorem visible_of_fits {kind : TokenKind} {text : List Char} (fits : Fits kind text)
    (rest : List Char) : ∀ c ∈ (text ++ rest).head?, Visible c := by
  obtain ⟨d, ds, rfl, visible⟩ := exists_visible fits
  simpa using visible

/-- A text is layout in front of a visible character in one way only. -/
theorem Layout.unique {w v x y : List Char} (first : Layout x w) (second : Layout y v)
    (visible : ∀ c ∈ x.head?, Visible c) (visible' : ∀ c ∈ y.head?, Visible c)
    (same : w ++ x = v ++ y) : w = v ∧ x = y := by
  have behind := Cursor.behindLayout_layout first visible .start
  rw [same, Cursor.behindLayout_layout second visible' .start] at behind
  obtain rfl : y = x := (Cursor.mk.inj behind).1
  exact ⟨List.append_cancel_right same, rfl⟩

/-! ## Neighbours that clash -/

/-- An identifier or a keyword. -/
def IsWord : TokenKind → Prop
  | .identifier | .keyword _ => True
  | _ => False

/-- Tokens of these kinds, in this order, are read as something else where they touch. -/
def Clash (kind next : TokenKind) : Prop :=
  (IsWord kind ∧ (IsWord next ∨ next = .integer))
    ∨ (kind = .integer ∧ next = .integer)
    ∨ (kind = .symbol .assign ∧ (next = .symbol .assign ∨ next = .symbol .equalEqual))

theorem extends_of_letter {kind : TokenKind} {c : Char} (letter : Letter c) :
    Extends kind c ↔ IsWord kind := by
  have notDigit := not_digit_of_letter letter
  have notAssign : c ≠ '=' := by
    rintro rfl
    revert letter
    unfold Letter
    decide
  unfold Extends IsWord
  split <;> simp [letter, notDigit, notAssign]

theorem extends_of_digit {kind : TokenKind} {c : Char} (digit : Digit c) :
    Extends kind c ↔ IsWord kind ∨ kind = .integer := by
  have notAssign : c ≠ '=' := by
    rintro rfl
    revert digit
    unfold Digit
    decide
  unfold Extends IsWord
  split <;> simp_all

theorem extends_of_symbol {kind : TokenKind} {c : Char} (notLetter : ¬Letter c)
    (notDigit : ¬Digit c) : Extends kind c ↔ kind = .symbol .assign ∧ c = '=' := by
  unfold Extends
  split <;> simp_all

/-- A token could be made longer by the one behind it exactly if the two clash. -/
theorem extends_iff_clash {kind next : TokenKind} {text : List Char} {c : Char}
    (fits : Fits next text) (front : c ∈ text.head?) : Extends kind c ↔ Clash kind next := by
  cases next with
  | eof => exact fits.elim
  | integer =>
    have digit : Digit c := fits.2 c (List.mem_of_mem_head? front)
    rw [extends_of_digit digit]
    simp [Clash, IsWord]
  | identifier =>
    obtain ⟨⟨d, ds, rfl, letter, _⟩, _⟩ := fits
    obtain rfl : d = c := by simpa using front
    rw [extends_of_letter letter]
    simp [Clash, IsWord]
  | keyword k =>
    obtain ⟨d, ds, spelled, letter, _⟩ := word_spelling k
    obtain rfl : text = d :: ds := Eq.trans fits spelled
    obtain rfl : d = c := by simpa using front
    rw [extends_of_letter letter]
    simp [Clash, IsWord]
  | symbol s =>
    obtain ⟨d, ds, spelled, _, notLetter, notDigit⟩ := spelling_eq_cons s
    obtain rfl : text = d :: ds := Eq.trans fits spelled
    obtain rfl : d = c := by simpa using front
    have equals : d = '=' ↔ s = .assign ∨ s = .equalEqual := by
      revert spelled
      cases s <;> simp [Symbol.spelling] <;> rintro rfl <;> simp
    rw [extends_of_symbol notLetter notDigit, equals]
    simp [Clash, IsWord]

end Lexical

/-! ## Texts of tokens -/

namespace Printing

/-- A token that is to be written, behind some blanks and comments. -/
structure Item where
  gap : List Char
  word : Word
  isGap : Gap gap
  spelled : word.Spelled

/-- Tokens that are to be written one behind the other, and what stands behind the last one. -/
structure Writing where
  items : List Item
  last : List Char
  isLast : LastGap last

/-- The characters of some tokens and of the gaps between them, in front of the end of a text. -/
def written (items : List Item) (last : List Char) : List Char :=
  items.flatMap (fun i => i.gap ++ i.word.literal.toList) ++ last

/-- The tokens as a text. -/
def Writing.text (w : Writing) : String := String.ofList (written w.items w.last)

/-- Between neighbours that clash something is written. -/
def Parted (items : List Item) : Prop :=
  items.IsChain fun i j => Clash i.word.kind j.word.kind → j.gap ≠ []

theorem written_cons (i : Item) (items : List Item) (last : List Char) :
    written (i :: items) last = i.gap ++ (i.word.literal.toList ++ written items last) := by
  simp [written]

/-- What is written behind a token does not make it longer exactly if the next token is kept apart
where the two clash. -/
theorem not_extends_written_iff {kind : TokenKind} {items : List Item} {last : List Char}
    (isLast : LastGap last) :
    (∀ c ∈ (written items last).head?, ¬Extends kind c)
      ↔ ∀ j ∈ items.head?, Clash kind j.word.kind → j.gap ≠ [] := by
  rcases items with _ | ⟨⟨gap, word, isGap, spelled⟩, items⟩
  · have front : ∀ c ∈ (written [] last).head?, ¬Extends kind c := by
      intro c mem
      exact not_extends_of_front (isLast.front c mem)
    simpa using front
  · rw [written_cons]
    rcases gap with _ | ⟨g, gap⟩
    · obtain ⟨c, cs, literal, _⟩ := exists_visible spelled
      have front : c ∈ word.literal.toList.head? := by simp [literal]
      have clash : Extends kind c ↔ Clash kind word.kind := extends_iff_clash spelled front
      simp [literal, clash]
    · have front : ¬Extends kind g := not_extends_of_front (isGap.front g rfl)
      simp [front]

/-- The first token of a text is read as it was written exactly if what follows does not make it
longer. -/
theorem scan_cons_iff {before gap rest : List Char} {w : Word} {rs : List (Except Diagnostic Token)}
    (isGap : Gap gap) (spelled : w.Spelled) :
    (∃ t : Token, t.word = w ∧ Scan before (gap ++ (w.literal.toList ++ rest)) (.ok t :: rs))
      ↔ (∀ c ∈ rest.head?, ¬Extends w.kind c)
        ∧ Scan (before ++ gap ++ w.literal.toList) rest rs := by
  constructor
  · rintro ⟨t, rfl, scan⟩
    generalize whole : gap ++ (t.word.literal.toList ++ rest) = text at scan
    cases scan with
    | @next before w lexeme after r rs layout read more =>
      cases read with
      | token fits longest =>
        obtain ⟨rfl, same⟩ := (isGap.layout _).unique layout (visible_of_fits spelled rest)
          (visible_of_fits fits after) whole
        simp only [Token.word, String.toList_ofList] at same ⊢
        obtain rfl := List.append_cancel_left same
        exact ⟨longest, more⟩
  · rintro ⟨longest, more⟩
    have read : ReadAs (.behind (before ++ gap)) rest w.literal.toList
        (.ok ⟨w.kind, String.ofList w.literal.toList, .behind (before ++ gap)⟩) :=
      .token spelled longest
    exact ⟨_, by simp [Token.word], .next (isGap.layout _) read more⟩

/-- Tokens are read as they were written exactly if those that clash are kept apart. -/
theorem scan_written_iff {before last : List Char} {items : List Item} (isLast : LastGap last) :
    (∃ ts : List Token, ts.map Token.word = items.map Item.word
        ∧ Scan before (written items last) (ts.map .ok))
      ↔ Parted items := by
  induction items generalizing before with
  | nil =>
    have scan : Scan before (written [] last) [] := .done isLast.layout
    simpa [Parted] using scan
  | cons i items ih =>
    have rest := @not_extends_written_iff i.word.kind items last isLast
    rw [Parted, List.isChain_cons, ← rest, ← Parted, ← ih, written_cons]
    constructor
    · rintro ⟨ts, words, scan⟩
      obtain ⟨t, us, rfl, here, others⟩ := List.map_eq_cons_iff.mp words
      obtain ⟨longest, more⟩ := (scan_cons_iff i.isGap i.spelled).mp ⟨t, here, scan⟩
      exact ⟨longest, us, others, more⟩
    · rintro ⟨longest, us, others, more⟩
      obtain ⟨t, here, scan⟩ := (scan_cons_iff i.isGap i.spelled).mpr ⟨longest, more⟩
      exact ⟨t :: us, by simp [here, others], scan⟩

/-- Results are these words, without any fault, exactly if they are tokens that are written so. -/
theorem map_word_eq_iff {rs : List (Except Diagnostic Token)} {ws : List Word} :
    rs.map (Except.map Token.word) = ws.map .ok
      ↔ ∃ ts : List Token, ts.map Token.word = ws ∧ rs = ts.map .ok := by
  constructor
  · intro same
    induction rs generalizing ws with
    | nil =>
      obtain rfl : ws = [] := by simpa using same.symm
      exact ⟨[], rfl, rfl⟩
    | cons r rs ih =>
      obtain ⟨w, ws', rfl, here, others⟩ := List.map_eq_cons_iff.mp same.symm
      obtain ⟨ts, rfl, rfl⟩ := ih others.symm
      rcases r with d | t
      · simp [Except.map] at here
      · obtain rfl : w = t.word := by simpa [Except.map] using here
        exact ⟨t :: ts, rfl, rfl⟩
  · rintro ⟨ts, rfl, rfl⟩
    simp [Function.comp_def, Except.map]

/-- **What is written is scanned back, if what clashes is kept apart, and only then.** Tokens are
written with any blanks and comments in front of them, between them and behind them. Scanning the
text tells no fault and gives just these kinds and literals if and only if something stands between
any two neighbours that clash: a word and a word or an integer, two integers, `=` and `=` or
`==`. -/
theorem Writing.results_iff_parted (w : Writing) :
    (Cursor.ofSource w.text).results.map (Except.map Token.word)
        = (w.items.map Item.word).map .ok
      ↔ Parted w.items := by
  have scan := @scan_written_iff [] w.last w.items w.isLast
  rw [map_word_eq_iff, ← scan]
  refine exists_congr fun ts => and_congr_right fun _ => ?_
  rw [Cursor.results_eq_iff, Writing.text, String.toList_ofList]

/-- The name `x` in front of the integer `1`, with this gap between them. -/
def Writing.nameThenInteger {gap : List Char} (isGap : Gap gap) : Writing where
  items :=
    [⟨[], .name "x", .nil, Word.spelled_name.mpr (by decide +kernel)⟩,
      ⟨gap, ⟨.integer, "1"⟩, isGap, by simp [Word.Spelled, Fits, Digit]⟩]
  last := []
  isLast := .closed .nil

theorem Writing.text_nameThenInteger {gap : List Char} (isGap : Gap gap) :
    (nameThenInteger isGap).text = String.ofList ('x' :: (gap ++ ['1'])) := by
  simp [text, written, nameThenInteger, Word.name]

/-- A comment keeps a name and an integer apart. Without anything between them, what is scanned
back is not these two. -/
theorem Writing.results_iff_parted_name_integer :
    (Cursor.ofSource "x#y\n1").results.map (Except.map Token.word)
        = [.ok (.name "x"), .ok ⟨.integer, "1"⟩]
      ∧ (Cursor.ofSource "x1").results.map (Except.map Token.word)
        ≠ [.ok (.name "x"), .ok ⟨.integer, "1"⟩] := by
  have comment : Gap ['#', 'y', '\n'] := @Gap.comment ['y'] [] (by decide) .nil
  have parted : Parted (nameThenInteger comment).items := by
    simp [nameThenInteger, Parted]
  have touching : ¬Parted (nameThenInteger .nil).items := by
    simp [nameThenInteger, Parted, Clash, IsWord, Word.name]
  have apart : (nameThenInteger comment).text = "x#y\n1" := text_nameThenInteger comment
  have joined : (nameThenInteger .nil).text = "x1" := text_nameThenInteger .nil
  rw [← apart, ← joined]
  exact ⟨(nameThenInteger comment).results_iff_parted.mpr parted,
    fun same => touching ((nameThenInteger .nil).results_iff_parted.mp same)⟩

end Printing

end LoopLang
