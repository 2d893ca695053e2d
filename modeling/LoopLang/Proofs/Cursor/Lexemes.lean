import LoopLang.Cursor

set_option autoImplicit false

/-! # What a lexeme is

The words of the language on their own, without the reading of them: which characters are letters,
digits and blanks, which texts fit a kind of token, which characters could have made a token longer,
and which single characters are faults. `Lexical.ReadAs` says what a piece of text is read as in
front of another, and what is read at the front of a text is exactly this
(`Lexeme.readAs_result`, `Lexical.ReadAs.atFront_eq`). -/

namespace LoopLang

namespace Lexical

/-! ## Characters -/

/-- `[A-Za-z_]` -/
def Letter (c : Char) : Prop :=
  ('a' ≤ c ∧ c ≤ 'z') ∨ ('A' ≤ c ∧ c ≤ 'Z') ∨ c = '_'

/-- `[0-9]` -/
def Digit (c : Char) : Prop := '0' ≤ c ∧ c ≤ '9'

/-- Space, tab, newline and carriage return. -/
def Blank (c : Char) : Prop := c = ' ' ∨ c = '\t' ∨ c = '\n' ∨ c = '\r'

/-- A character that no layout begins with. -/
def Visible (c : Char) : Prop := ¬Blank c ∧ c ≠ '#'

theorem isDigit_iff {c : Char} : c.isDigit = true ↔ Digit c := by
  simp [Char.isDigit, Digit, Char.le_def]

theorem isUpper_iff {c : Char} : c.isUpper = true ↔ 'A' ≤ c ∧ c ≤ 'Z' :=
  decide_eq_true_iff

theorem isLower_iff {c : Char} : c.isLower = true ↔ 'a' ≤ c ∧ c ≤ 'z' :=
  Bool.and_eq_true_iff.trans (and_congr decide_eq_true_iff decide_eq_true_iff)

theorem isWordStart_iff {c : Char} : isWordStart c = true ↔ Letter c := by
  have letter : isWordStart c = (c.isUpper || c.isLower || c == '_') := rfl
  rw [letter, Bool.or_eq_true, Bool.or_eq_true, isUpper_iff, isLower_iff, beq_iff_eq, Letter,
    or_assoc]
  exact or_left_comm

theorem isWordPart_iff {c : Char} : isWordPart c = true ↔ Letter c ∨ Digit c := by
  rw [← isDigit_iff, ← isWordStart_iff]
  simp only [isWordPart, isWordStart, Char.isAlphanum, Bool.or_eq_true]
  exact or_right_comm

theorem isBlank_iff {c : Char} : isBlank c = true ↔ Blank c := by
  simp [isBlank, Blank, or_assoc]

/-! ## Kinds -/

/-- `[A-Za-z_][A-Za-z0-9_]*` -/
def Word (text : List Char) : Prop :=
  ∃ c cs, text = c :: cs ∧ Letter c ∧ ∀ d ∈ cs, Letter d ∨ Digit d

theorem word_iff {text : List Char} :
    Word text ↔ text.head?.any isWordStart = true ∧ text.all isWordPart = true := by
  constructor
  · rintro ⟨c, cs, rfl, letter, parts⟩
    have others : ∀ d ∈ cs, isWordPart d = true := fun d mem => isWordPart_iff.mpr (parts d mem)
    simp only [List.head?_cons, Option.any_some, List.all_cons, Bool.and_eq_true,
      List.all_eq_true]
    exact ⟨isWordStart_iff.mpr letter, isWordPart_iff.mpr (Or.inl letter), others⟩
  · rintro ⟨front, parts⟩
    cases text with
    | nil => simp at front
    | cons c cs =>
      simp only [List.head?_cons, Option.any_some] at front
      simp only [List.all_cons, Bool.and_eq_true, List.all_eq_true] at parts
      exact ⟨c, cs, rfl, isWordStart_iff.mp front, fun d mem => isWordPart_iff.mp (parts.2 d mem)⟩

instance : DecidablePred Word := fun _ => decidable_of_iff _ word_iff.symm

/-- The texts that tokens of this kind are read from. -/
def Fits : TokenKind → List Char → Prop
  | .eof, _ => False
  | .integer, text => text ≠ [] ∧ ∀ c ∈ text, Digit c
  | .identifier, text => Word text ∧ ∀ k : Keyword, text ≠ k.spelling.toList
  | .keyword k, text => text = k.spelling.toList
  | .symbol s, text => text = s.spelling.toList

/-- A token of this kind would have been longer if this character stood behind it. -/
def Extends : TokenKind → Char → Prop
  | .integer, c => Digit c
  | .identifier, c | .keyword _, c => Letter c ∨ Digit c
  | .symbol .assign, c => c = '='
  | _, _ => False

/-- A character that begins no token and no layout and does not occur in any symbol. -/
def Stray (c : Char) : Prop :=
  Visible c ∧ ¬Letter c ∧ ¬Digit c ∧ ∀ s : Symbol, c ∉ s.spelling.toList

/-- The piece of text at the place `pos`, in front of the text `after`, is read as this result: as a
token whose kind it fits and which could not be longer, as an `&` or `|` that is not doubled, or as
a character that begins nothing. -/
inductive ReadAs (pos : Position) (after : List Char) :
    List Char → Except Diagnostic Token → Prop where
  | token {kind text} (fits : Fits kind text) (longest : ∀ c ∈ after.head?, ¬Extends kind c) :
      ReadAs pos after text (.ok ⟨kind, String.ofList text, pos⟩)
  | loneOperator {c} (operator : c = '&' ∨ c = '|') (single : after.head? ≠ some c) :
      ReadAs pos after [c] (.error ⟨pos, .loneOperator c after.head?⟩)
  | strayChar {c} (stray : Stray c) : ReadAs pos after [c] (.error ⟨pos, .strayChar c⟩)

theorem fits_ofWord {text : List Char} (word : Word text) :
    Fits (.ofWord (String.ofList text)) text := by
  unfold TokenKind.ofWord
  split
  · next k found =>
    have spelled := Keyword.ofName?_eq_some_iff.mp found
    show text = k.spelling.toList
    rw [← spelled, String.toList_ofList]
  · next notFound =>
    refine ⟨word, fun k same => ?_⟩
    rw [same, String.ofList_toList, Keyword.ofName?_spelling] at notFound
    cases notFound

/-- What makes a word longer is the same for every word. -/
theorem extends_ofWord {word : String} {c : Char} :
    Extends (.ofWord word) c ↔ Letter c ∨ Digit c := by
  unfold TokenKind.ofWord
  split <;> exact Iff.rfl

theorem word_spelling (k : Keyword) : Word k.spelling.toList := by
  have parts : ∀ {cs : List Char}, cs.all isWordPart = true → ∀ c ∈ cs, Letter c ∨ Digit c :=
    fun all c mem => isWordPart_iff.mp (List.all_eq_true.mp all c mem)
  cases k <;> exact ⟨_, _, rfl, isWordStart_iff.mp rfl, parts rfl⟩

theorem ofWord_of_fits {kind : TokenKind} {text : List Char} (fits : Fits kind text)
    (notInteger : kind ≠ .integer) (notSymbol : ∀ s, kind ≠ .symbol s) :
    TokenKind.ofWord (String.ofList text) = kind := by
  unfold TokenKind.ofWord
  cases kind with
  | eof => exact fits.elim
  | integer => exact absurd rfl notInteger
  | symbol s => exact absurd rfl (notSymbol s)
  | keyword k =>
    have same : text = k.spelling.toList := fits
    rw [same, String.ofList_toList, Keyword.ofName?_spelling]
  | identifier =>
    split
    · next k found =>
      have spelled := Keyword.ofName?_eq_some_iff.mp found
      exact absurd (by rw [← spelled, String.toList_ofList]) (fits.2 k)
    · rfl

end Lexical

/-- Scanning can come to the token: its literal fits its kind, or it is the end of a text. -/
def Token.Spelled (t : Token) : Prop :=
  t.kind = .eof ∨ Lexical.Fits t.kind t.literal.toList

/-- There are tokens of every kind. -/
theorem Token.exists_spelled (kind : TokenKind) : ∃ t : Token, t.kind = kind ∧ t.Spelled := by
  cases kind with
  | eof => exact ⟨.endOfText .nowhere, rfl, Or.inl rfl⟩
  | integer =>
    have digits : ∀ c ∈ ['0'], Lexical.Digit c :=
      List.forall_mem_singleton.mpr (Lexical.isDigit_iff.mp rfl)
    exact ⟨⟨.integer, "0", .nowhere⟩, rfl, Or.inr ⟨List.cons_ne_nil _ _, digits⟩⟩
  | identifier =>
    have word : Lexical.Word ['x'] :=
      ⟨'x', [], rfl, Lexical.isWordStart_iff.mp rfl, List.forall_mem_nil _⟩
    have notKeyword : ∀ k : Keyword, ['x'] ≠ k.spelling.toList := fun k => by
      cases k <;> decide
    exact ⟨⟨.identifier, "x", .nowhere⟩, rfl, Or.inr ⟨word, notKeyword⟩⟩
  | keyword k => exact ⟨⟨.keyword k, k.spelling, .nowhere⟩, rfl, Or.inr rfl⟩
  | symbol s => exact ⟨⟨.symbol s, s.spelling, .nowhere⟩, rfl, Or.inr rfl⟩

/-! ## Symbols -/

namespace Symbol

/-- Of two spellings, one begins the other only with `=` and `==`. -/
theorem eq_of_spelling_prefix {s t : Symbol} (h : s.spelling.toList <+: t.spelling.toList) :
    s = t ∨ (s = .assign ∧ t = .equalEqual) := by
  rw [← List.isPrefixOf_iff_prefix] at h
  revert h
  cases s <;> cases t <;> decide

/-- The symbol at the front of a text is the one that is written there; where `=` and `==` both are,
it is the longer one. -/
theorem atFront?_eq_some_iff {text : List Char} {s : Symbol} :
    atFront? text = some s ↔
      s.spelling.toList <+: text ∧ (s = .assign → ¬equalEqual.spelling.toList <+: text) := by
  constructor
  · intro found
    refine ⟨spelling_isPrefix_of_atFront? found, ?_⟩
    rintro rfl longer
    have first : atFront? text = some .equalEqual :=
      List.find?_cons_of_pos (List.isPrefixOf_iff_prefix.mpr longer)
    rw [first] at found
    cases found
  · rintro ⟨written, longest⟩
    -- some symbol is found, and its spelling and that of `s` both begin the text
    have isFound : (atFront? text).isSome :=
      List.find?_isSome.mpr ⟨s, mem_all s, List.isPrefixOf_iff_prefix.mpr written⟩
    obtain ⟨t, found⟩ := Option.isSome_iff_exists.mp isFound
    have written' := spelling_isPrefix_of_atFront? found
    rw [found]
    rcases List.prefix_or_prefix_of_prefix written written' with before | before
    · rcases eq_of_spelling_prefix before with rfl | ⟨rfl, rfl⟩
      · rfl
      · exact absurd written' (longest rfl)
    · rcases eq_of_spelling_prefix before with rfl | ⟨rfl, rfl⟩
      · rfl
      · have first : atFront? text = some .equalEqual :=
          List.find?_cons_of_pos (List.isPrefixOf_iff_prefix.mpr written)
        rw [first] at found
        cases found

/-- The characters of symbols are symbols themselves, but for `&` and `|`. -/
theorem of_mem_spelling : ∀ s ∈ all, ∀ c ∈ s.spelling.toList,
    (c = '&' ∨ c = '|') ∨ ∃ t ∈ all, t.spelling.toList = [c] := by
  have checked : (all.all fun s => s.spelling.toList.all fun c =>
      c == '&' || c == '|' || all.any fun t => t.spelling.toList == [c]) = true := rfl
  intro s mem c inside
  have found := List.all_eq_true.mp (List.all_eq_true.mp checked s mem) c inside
  simpa using found

end Symbol

/-! ## The lexeme at the front of a text -/

namespace Lexical

/-- Behind the longest run of such characters stands another one, or nothing. -/
theorem not_of_mem_head?_dropWhile {p : Char → Bool} {cs : List Char} :
    ∀ c ∈ (cs.dropWhile p).head?, ¬p c = true := by
  intro c mem
  have stops := List.head?_dropWhile_not p cs
  rw [Option.mem_def.mp mem] at stops
  simpa using stops

/-- A run of such characters is the longest one if another character, or nothing, follows. -/
theorem takeWhile_append_of_head? {p : Char → Bool} {cs after : List Char}
    (run : ∀ c ∈ cs, p c = true) (stops : ∀ c ∈ after.head?, ¬p c = true) :
    (cs ++ after).takeWhile p = cs := by
  have rest : after.takeWhile p = [] := by
    cases after with
    | nil => rfl
    | cons c _ => exact List.takeWhile_cons_of_neg (stops c rfl)
  rw [List.takeWhile_append_of_pos run, rest, List.append_nil]

theorem not_digit_of_letter {c : Char} (h : Letter c) : ¬Digit c := by
  simp only [Letter, Digit, Char.le_def, UInt32.le_iff_toNat_le] at *
  rcases h with lower | upper | rfl
  · have : 'a'.val.toNat = 97 := rfl
    have : '9'.val.toNat = 57 := rfl
    omega
  · have : 'A'.val.toNat = 65 := rfl
    have : '9'.val.toNat = 57 := rfl
    omega
  · decide

theorem visible_of_digit {c : Char} (h : Digit c) : Visible c := by
  refine ⟨?_, ?_⟩
  · rintro (rfl | rfl | rfl | rfl) <;> exact absurd h (by unfold Digit; decide)
  · rintro rfl
    exact absurd h (by unfold Digit; decide)

theorem visible_of_letter {c : Char} (h : Letter c) : Visible c := by
  refine ⟨?_, ?_⟩
  · rintro (rfl | rfl | rfl | rfl) <;> exact absurd h (by unfold Letter; decide)
  · rintro rfl
    exact absurd h (by unfold Letter; decide)

/-- No blank makes a token longer. -/
theorem not_extends_blank {kind : TokenKind} {c : Char} (blank : Blank c) : ¬Extends kind c := by
  intro longer
  have notLetter : ¬Letter c := fun letter => (visible_of_letter letter).1 blank
  have notDigit : ¬Digit c := fun digit => (visible_of_digit digit).1 blank
  have notAssign : c ≠ '=' := by
    rintro rfl
    exact absurd blank (by unfold Blank; decide)
  unfold Extends at longer
  split at longer <;> simp_all

/-- A symbol begins with a character that begins nothing else. -/
theorem spelling_eq_cons (s : Symbol) :
    ∃ c cs, s.spelling.toList = c :: cs ∧ Visible c ∧ ¬Letter c ∧ ¬Digit c := by
  unfold Visible Blank Letter Digit
  cases s <;> exact ⟨_, _, rfl, by decide, by decide, by decide⟩

end Lexical

namespace Lexeme

open Lexical

variable {c : Char} {cs : List Char}

theorem atFront_of_digit (digit : c.isDigit = true) :
    atFront c cs = ⟨.ok .integer, c :: cs.takeWhile Char.isDigit⟩ :=
  if_pos digit

theorem atFront_of_letter (notDigit : ¬c.isDigit = true) (letter : isWordStart c = true) :
    atFront c cs =
      ⟨.ok (.ofWord (String.ofList (c :: cs.takeWhile isWordPart))),
        c :: cs.takeWhile isWordPart⟩ :=
  (if_neg notDigit).trans (if_pos letter)

theorem atFront_of_other (notDigit : ¬c.isDigit = true) (notLetter : ¬isWordStart c = true) :
    atFront c cs =
      match Symbol.atFront? (c :: cs) with
      | some s => ⟨.ok (.symbol s), s.spelling.toList⟩
      | none =>
        if c = '&' ∨ c = '|' then ⟨.error (.loneOperator c cs.head?), [c]⟩
        else ⟨.error (.strayChar c), [c]⟩ :=
  (if_neg notDigit).trans (if_neg notLetter)

theorem not_prefix_of_atFront? (notFound : Symbol.atFront? (c :: cs) = none) (s : Symbol) :
    ¬s.spelling.toList <+: c :: cs := by
  intro written
  have none := List.find?_eq_none.mp notFound s (Symbol.mem_all s)
  exact none (List.isPrefixOf_iff_prefix.mpr written)

theorem not_mem_spelling {s : Symbol} (notFound : Symbol.atFront? (c :: cs) = none)
    (notOperator : ¬(c = '&' ∨ c = '|')) : c ∉ s.spelling.toList := by
  intro mem
  rcases Symbol.of_mem_spelling s (Symbol.mem_all s) c mem with doubled | ⟨t, _, spelled⟩
  · exact notOperator doubled
  · exact not_prefix_of_atFront? notFound t (spelled ▸ List.prefix_append [c] cs)

/-- What is read at the front of a text is what the lexeme there is read as. -/
theorem readAs_result (cs : List Char) (visible : Visible c) (pos : Position) :
    ∃ after, c :: cs = (atFront c cs).text ++ after
      ∧ ReadAs pos after (atFront c cs).text ((atFront c cs).result pos) := by
  by_cases digit : c.isDigit = true
  · rw [atFront_of_digit digit]
    refine ⟨cs.dropWhile Char.isDigit, by simp, .token ⟨List.cons_ne_nil _ _, ?_⟩ ?_⟩
    · have run : ∀ d ∈ cs.takeWhile Char.isDigit, d.isDigit = true :=
        List.all_eq_true.mp List.all_takeWhile
      exact List.forall_mem_cons.mpr
        ⟨isDigit_iff.mp digit, fun d mem => isDigit_iff.mp (run d mem)⟩
    · intro d mem extends'
      exact not_of_mem_head?_dropWhile d mem (isDigit_iff.mpr extends')
  · by_cases letter : isWordStart c = true
    · rw [atFront_of_letter digit letter]
      have run : ∀ d ∈ cs.takeWhile isWordPart, isWordPart d = true :=
        List.all_eq_true.mp List.all_takeWhile
      have word : Word (c :: cs.takeWhile isWordPart) :=
        ⟨c, _, rfl, isWordStart_iff.mp letter, fun d mem => isWordPart_iff.mp (run d mem)⟩
      refine ⟨cs.dropWhile isWordPart, by simp, .token (fits_ofWord word) fun d mem extends' => ?_⟩
      exact not_of_mem_head?_dropWhile d mem (isWordPart_iff.mpr (extends_ofWord.mp extends'))
    · rw [atFront_of_other digit letter]
      split
      · next s found =>
        obtain ⟨⟨after, written⟩, longest⟩ := Symbol.atFront?_eq_some_iff.mp found
        refine ⟨after, written.symm, .token rfl fun d mem extends' => ?_⟩
        -- only `=` can be made longer, and then `==` stands there
        cases s with
        | assign =>
          obtain rfl : d = '=' := extends'
          obtain ⟨more, rfl⟩ := List.head?_eq_some_iff.mp (Option.mem_def.mp mem)
          exact longest rfl ⟨more, written⟩
        | andAnd | orOr | bang | less | equalEqual | plus | star | minus | leftParen
        | rightParen => exact extends'
      · next notFound =>
        split
        · next operator =>
          refine ⟨cs, rfl, .loneOperator operator fun doubled => ?_⟩
          obtain ⟨more, rfl⟩ := List.head?_eq_some_iff.mp doubled
          rcases operator with rfl | rfl
          · exact not_prefix_of_atFront? notFound .andAnd ⟨more, rfl⟩
          · exact not_prefix_of_atFront? notFound .orOr ⟨more, rfl⟩
        · next notOperator =>
          refine ⟨cs, rfl, .strayChar ⟨visible, ?_, ?_, fun s => ?_⟩⟩
          · exact fun isLetter => letter (isWordStart_iff.mpr isLetter)
          · exact fun isDigit => digit (isDigit_iff.mpr isDigit)
          · exact not_mem_spelling notFound notOperator

end Lexeme

namespace Lexical

open Lexeme (atFront atFront_of_digit atFront_of_letter atFront_of_other)

/-- A word in front of what does not make it longer is read as a whole. -/
theorem atFront_of_word {c : Char} {cs after : List Char} {kind : TokenKind} {pos : Position}
    (letter : Letter c) (parts : ∀ d ∈ cs, Letter d ∨ Digit d)
    (same : TokenKind.ofWord (String.ofList (c :: cs)) = kind)
    (longest : ∀ d ∈ after.head?, ¬(Letter d ∨ Digit d)) :
    (atFront c (cs ++ after)).text = c :: cs ∧
      (atFront c (cs ++ after)).result pos = .ok ⟨kind, String.ofList (c :: cs), pos⟩ := by
  have run : (cs ++ after).takeWhile isWordPart = cs :=
    takeWhile_append_of_head? (fun d mem => isWordPart_iff.mpr (parts d mem))
      fun d mem part => longest d mem (isWordPart_iff.mp part)
  have notDigit : ¬c.isDigit = true := fun digit =>
    not_digit_of_letter letter (isDigit_iff.mp digit)
  rw [atFront_of_letter notDigit (isWordStart_iff.mpr letter), run, same]
  exact ⟨rfl, rfl⟩

/-- A piece of text is read, in front of what follows it, as what it is. -/
theorem ReadAs.atFront_eq {pos : Position} {after text : List Char}
    {r : Except Diagnostic Token} (h : ReadAs pos after text r) :
    ∃ c cs, text = c :: cs ∧ Visible c ∧ (atFront c (cs ++ after)).text = text ∧
      (atFront c (cs ++ after)).result pos = r := by
  cases h with
  | @token kind text fits longest =>
    cases kind with
    | eof => exact fits.elim
    | integer =>
      obtain ⟨nonempty, digits⟩ := fits
      obtain ⟨c, cs, rfl⟩ := List.exists_cons_of_ne_nil nonempty
      obtain ⟨digit, digits⟩ := List.forall_mem_cons.mp digits
      have run : (cs ++ after).takeWhile Char.isDigit = cs :=
        takeWhile_append_of_head? (fun d mem => isDigit_iff.mpr (digits d mem))
          fun d mem isDigit => longest d mem (isDigit_iff.mp isDigit)
      refine ⟨c, cs, rfl, visible_of_digit digit, ?_⟩
      rw [atFront_of_digit (isDigit_iff.mpr digit), run]
      exact ⟨rfl, rfl⟩
    | identifier =>
      have same := ofWord_of_fits fits nofun nofun
      obtain ⟨⟨c, cs, rfl, letter, parts⟩, _⟩ := fits
      exact ⟨c, cs, rfl, visible_of_letter letter, atFront_of_word letter parts same longest⟩
    | keyword k =>
      have same := ofWord_of_fits fits nofun nofun
      obtain ⟨c, cs, spelled, letter, parts⟩ := word_spelling k
      obtain rfl : text = c :: cs := Eq.trans fits spelled
      exact ⟨c, cs, rfl, visible_of_letter letter, atFront_of_word letter parts same longest⟩
    | symbol s =>
      obtain ⟨c, cs, spelled, visible, notLetter, notDigit⟩ := spelling_eq_cons s
      have same : text = c :: cs := Eq.trans fits spelled
      have found : Symbol.atFront? (c :: (cs ++ after)) = some s := by
        refine Symbol.atFront?_eq_some_iff.mpr ⟨⟨after, by rw [spelled]; rfl⟩, ?_⟩
        rintro rfl ⟨more, written⟩
        -- what stands behind the `=` is not another one
        cases spelled
        obtain rfl : '=' :: more = after := (List.cons.inj written).2
        exact longest '=' rfl rfl
      refine ⟨c, cs, same, visible, ?_⟩
      rw [atFront_of_other (fun digit => notDigit (isDigit_iff.mp digit))
        (fun letter => notLetter (isWordStart_iff.mp letter)), found]
      exact ⟨spelled.trans same.symm, by rw [same, ← spelled]; rfl⟩
  | @loneOperator c operator single =>
    have other : Visible c ∧ ¬Letter c ∧ ¬Digit c := by
      unfold Visible Blank Letter Digit
      rcases operator with rfl | rfl <;> decide
    have notFound : Symbol.atFront? (c :: after) = none := by
      refine List.find?_eq_none.mpr fun s _ written => ?_
      obtain ⟨more, written⟩ := List.isPrefixOf_iff_prefix.mp written
      -- the symbols that begin with `&` or `|` double it
      have doubled : s.spelling.toList = [c, c] := by
        rcases operator with rfl | rfl <;> cases s <;> simp_all [Symbol.spelling]
      rw [doubled] at written
      exact single (by rw [← (List.cons.inj written).2]; rfl)
    refine ⟨c, [], rfl, other.1, ?_⟩
    rw [List.nil_append, atFront_of_other (fun digit => other.2.2 (isDigit_iff.mp digit))
      (fun letter => other.2.1 (isWordStart_iff.mp letter)), notFound]
    simp only [if_pos operator]
    exact ⟨trivial, rfl⟩
  | @strayChar c stray =>
    obtain ⟨visible, notLetter, notDigit, notSymbol⟩ := stray
    have notFound : Symbol.atFront? (c :: after) = none := by
      refine List.find?_eq_none.mpr fun s _ written => ?_
      obtain ⟨d, ds, spelled, _⟩ := spelling_eq_cons s
      obtain ⟨more, written⟩ := List.isPrefixOf_iff_prefix.mp written
      rw [spelled] at written
      obtain rfl : d = c := (List.cons.inj written).1
      exact notSymbol s (spelled ▸ List.mem_cons_self)
    have notOperator : ¬(c = '&' ∨ c = '|') := by
      rintro (rfl | rfl)
      · exact notSymbol .andAnd (by decide)
      · exact notSymbol .orOr (by decide)
    refine ⟨c, [], rfl, visible, ?_⟩
    rw [List.nil_append, atFront_of_other (fun digit => notDigit (isDigit_iff.mp digit))
      (fun letter => notLetter (isWordStart_iff.mp letter)), notFound]
    simp only [if_neg notOperator]
    exact ⟨trivial, rfl⟩

end Lexical

end LoopLang
