import LoopLang.Proofs.Cursor.Lexemes
import Mathlib.Data.List.Induction

set_option autoImplicit false

/-! # A source text is layout and lexemes in turn

Scanning accounts for every character of a source text exactly once: the text is layout, a lexeme,
layout, a lexeme, and so on up to some last layout, and the results are what these lexemes are read
as, each at its place. `Lexical.Scan` says so without any reading, and a text can be taken apart in
this way for one list of results only, which is the one that the cursor gives. -/

namespace LoopLang

/-! ## Places -/

/-- The place behind a text: how many newlines it has, and how many characters behind the last
newline, or in all if there is none, both counted from one and in 32 bits. -/
def Position.behind (text : List Char) : Position :=
  ⟨.ofNat (1 + text.count '\n'), .ofNat (1 + (text.reverse.takeWhile (· != '\n')).length)⟩

theorem Position.start_advance (text : List Char) : start.advance text = behind text := by
  -- the last character decides whether the column starts again
  induction text using List.reverseRecOn with
  | nil => rfl
  | append_singleton text c ih =>
    rw [advance_append, ih, advance_cons, advance_nil]
    by_cases newline : c = '\n'
    · simp [after, behind, newline, UInt32.ofNat_add, UInt32.add_assoc]
    · simp [after, behind, newline, UInt32.ofNat_add, UInt32.add_comm]

/-- Behind fewer than `2 ^ 32 - 1` characters the numbers are the true ones. -/
theorem Position.behind_toNat {text : List Char} (short : text.length < UInt32.size - 1) :
    (behind text).line.toNat = 1 + text.count '\n'
      ∧ (behind text).column.toNat = 1 + (text.reverse.takeWhile (· != '\n')).length := by
  have lines : text.count '\n' ≤ text.length := List.count_le_length
  have columns := (List.takeWhile_sublist (l := text.reverse) (· != '\n')).length_le
  rw [List.length_reverse] at columns
  rw [behind, UInt32.toNat_ofNat', UInt32.toNat_ofNat']
  simp only [UInt32.size] at short
  exact ⟨Nat.mod_eq_of_lt (by omega), Nat.mod_eq_of_lt (by omega)⟩

theorem Position.behind_advance (before text : List Char) :
    (behind before).advance text = behind (before ++ text) := by
  rw [← start_advance, ← start_advance, advance_append]

namespace Lexical

/-! ## Layout -/

/-- Blanks and comments in front of the text `after`. A comment goes up to a newline, which does not
belong to it, or to the end of the whole text. -/
inductive Layout (after : List Char) : List Char → Prop where
  | nil : Layout after []
  | blank {c w} (blank : Blank c) (more : Layout after w) : Layout after (c :: w)
  | comment {text w} (line : '\n' ∉ text) (ends : ∀ c ∈ (w ++ after).head?, c = '\n')
      (more : Layout after w) : Layout after ('#' :: (text ++ w))

/-- A comment may begin with one more character. -/
theorem Layout.comment_cons {after w : List Char} {c : Char} (h : Layout after ('#' :: w))
    (notNewline : c ≠ '\n') : Layout after ('#' :: c :: w) := by
  generalize open' : '#' :: w = whole at h
  cases h with
  | nil => cases open'
  | blank blank _ =>
    cases open'
    exact absurd blank (by unfold Blank; decide)
  | @comment text w' line ends more =>
    cases open'
    exact @Layout.comment after (c :: text) _ (by simp [line, notNewline.symm]) ends more

/-- Every text, and every rest of a text in which a comment is open, begins with some layout that
ends in front of a visible character or at the end. -/
theorem exists_layout (inComment : Bool) (text : List Char) :
    ∃ w after, text = w ++ after ∧ (∀ c ∈ after.head?, Visible c) ∧
      Layout after (if inComment then '#' :: w else w) := by
  induction text generalizing inComment with
  | nil =>
    refine ⟨[], [], rfl, nofun, ?_⟩
    cases inComment with
    | false => exact .nil
    | true => exact @Layout.comment [] [] [] (by simp) nofun .nil
  | cons c cs ih =>
    cases inComment with
    | true =>
      by_cases newline : c = '\n'
      · subst newline
        obtain ⟨w, after, rfl, visible, layout⟩ := ih false
        refine ⟨'\n' :: w, after, rfl, visible, ?_⟩
        exact @Layout.comment after [] _ (by simp) (by simp)
          (.blank (Or.inr (Or.inr (Or.inl rfl))) layout)
      · obtain ⟨w, after, rfl, visible, layout⟩ := ih true
        exact ⟨c :: w, after, rfl, visible, layout.comment_cons newline⟩
    | false =>
      by_cases blank : Blank c
      · obtain ⟨w, after, rfl, visible, layout⟩ := ih false
        exact ⟨c :: w, after, rfl, visible, .blank blank layout⟩
      · by_cases hash : c = '#'
        · subst hash
          obtain ⟨w, after, rfl, visible, layout⟩ := ih true
          exact ⟨'#' :: w, after, rfl, visible, layout⟩
        · refine ⟨[], c :: cs, rfl, ?_, .nil⟩
          rintro _ ⟨⟩
          exact ⟨blank, hash⟩

/-! ## Whole texts -/

/-- With the text `before` in front of it, the text is layout and lexemes in turn, and these are
read as the results. -/
inductive Scan : List Char → List Char → List (Except Diagnostic Token) → Prop where
  | done {before w} (layout : Layout [] w) : Scan before w []
  | next {before w lexeme after r rs} (layout : Layout (lexeme ++ after) w)
      (read : ReadAs (.behind (before ++ w)) after lexeme r)
      (more : Scan (before ++ w ++ lexeme) after rs) :
      Scan before (w ++ (lexeme ++ after)) (r :: rs)

end Lexical

/-! ## The cursor -/

namespace Cursor

open Lexical

theorem behindLayout_comment {text rest : List Char} (line : '\n' ∉ text)
    (ends : ∀ c ∈ rest.head?, c = '\n') (pos : Position) :
    behindLayout true (text ++ rest) pos = behindLayout false rest (pos.advance text) := by
  induction text generalizing pos with
  | nil =>
    cases rest with
    | nil => rfl
    | cons c cs =>
      obtain rfl := ends c rfl
      rfl
  | cons c text ih =>
    rw [List.mem_cons, not_or] at line
    have notNewline : (c != '\n') = true := bne_iff_ne.mpr fun same => line.1 same.symm
    rw [List.cons_append, behindLayout, if_pos rfl, notNewline, ih line.2]
    rfl

theorem behindLayout_layout {after w : List Char} (layout : Layout after w)
    (visible : ∀ c ∈ after.head?, Visible c) (pos : Position) :
    behindLayout false (w ++ after) pos = ⟨after, pos.advance w⟩ := by
  induction layout generalizing pos with
  | nil =>
    cases after with
    | nil => rfl
    | cons c cs =>
      obtain ⟨notBlank, notHash⟩ := visible c rfl
      have notBlank' : ¬isBlank c = true := fun blank => notBlank (isBlank_iff.mp blank)
      rw [List.nil_append, behindLayout, if_neg (by decide), if_neg notBlank', if_neg notHash]
      rfl
  | blank blank _ ih =>
    rw [List.cons_append, behindLayout, if_neg (by decide), if_pos (isBlank_iff.mpr blank), ih]
    rfl
  | @comment text w line ends _ ih =>
    rw [List.cons_append, behindLayout, if_neg (by decide), if_neg (by decide), if_pos rfl,
      List.append_assoc, behindLayout_comment line ends, ih, Position.advance_cons,
      Position.advance_append]

/-- The cursor goes over layout and reads the lexeme behind it. -/
theorem next_of_readAs {w lexeme after : List Char} {pos : Position}
    {r : Except Diagnostic Token} (layout : Layout (lexeme ++ after) w)
    (read : ReadAs (pos.advance w) after lexeme r) :
    next ⟨w ++ (lexeme ++ after), pos⟩ = (r, ⟨after, (pos.advance w).advance lexeme⟩) := by
  obtain ⟨c, cs, rfl, visible, text, result⟩ := read.atFront_eq
  have front : ∀ d ∈ (c :: cs ++ after).head?, Visible d := by
    rintro _ ⟨⟩
    exact visible
  have skipped : skipLayout ⟨w ++ (c :: cs ++ after), pos⟩ = ⟨c :: cs ++ after, pos.advance w⟩ :=
    behindLayout_layout layout front pos
  rw [next, skipped, readHere]
  simp only [List.cons_append]
  rw [result, past, text]
  simp

theorem results_of_next {c later : Cursor} {r : Except Diagnostic Token} (h : c.next = (r, later))
    (notEnd : ∀ t, r = .ok t → t.kind ≠ .eof) : c.results = r :: later.results := by
  rw [results_eq, h]
  cases r with
  | error d => rfl
  | ok t => exact if_neg (notEnd t rfl)

theorem results_of_layout {w : List Char} (layout : Layout [] w) (pos : Position) :
    results ⟨w, pos⟩ = [] := by
  have skipped := behindLayout_layout layout nofun pos
  rw [List.append_nil] at skipped
  have atEnd : next ⟨w, pos⟩ = (.ok (.endOfText (pos.advance w)), ⟨[], pos.advance w⟩) := by
    rw [next, skipLayout, skipped]
    rfl
  rw [results_eq, atEnd]
  rfl

end Cursor

namespace Lexical

theorem ReadAs.notEnd {pos : Position} {after lexeme : List Char} {r : Except Diagnostic Token}
    (h : ReadAs pos after lexeme r) : ∀ t, r = .ok t → t.kind ≠ .eof := by
  rintro t rfl atEnd
  cases h with
  | @token kind _ fits _ =>
    obtain rfl : kind = .eof := atEnd
    exact fits

theorem ReadAs.nonempty {pos : Position} {after lexeme : List Char} {r : Except Diagnostic Token}
    (h : ReadAs pos after lexeme r) : lexeme ≠ [] := by
  obtain ⟨c, cs, rfl, _⟩ := h.atFront_eq
  exact List.cons_ne_nil c cs

/-- Every result of a text is what some lexeme of it is read as. -/
theorem Scan.exists_readAs {before text : List Char} {rs : List (Except Diagnostic Token)}
    (h : Scan before text rs) {r : Except Diagnostic Token} (mem : r ∈ rs) :
    ∃ front after lexeme, before ++ text = front ++ (lexeme ++ after)
      ∧ ReadAs (.behind front) after lexeme r := by
  induction h with
  | done => cases mem
  | @next before w lexeme after _ _ _ read _ ih =>
    rcases List.mem_cons.mp mem with rfl | mem
    · exact ⟨before ++ w, after, lexeme, (List.append_assoc _ _ _).symm, read⟩
    · obtain ⟨front, after', lexeme', whole, read'⟩ := ih mem
      exact ⟨front, after', lexeme', by simpa using whole, read'⟩

/-- Whatever way a text is taken apart, its results are what the cursor gives. -/
theorem Scan.results_eq {before text : List Char} {rs : List (Except Diagnostic Token)}
    (h : Scan before text rs) : Cursor.results ⟨text, .behind before⟩ = rs := by
  induction h with
  | done layout => exact Cursor.results_of_layout layout _
  | @next before w lexeme after r rs layout read _ ih =>
    rw [← Position.behind_advance] at read
    have next := Cursor.next_of_readAs layout read
    rw [Position.behind_advance, Position.behind_advance] at next
    rw [Cursor.results_of_next next read.notEnd, ih]

/-- Every text can be taken apart. -/
theorem exists_scan (before text : List Char) : ∃ rs, Scan before text rs := by
  -- each lexeme takes at least one character, so what is behind it is shorter
  obtain ⟨w, rest, rfl, visible, layout⟩ := exists_layout false text
  cases rest with
  | nil => exact ⟨[], by rw [List.append_nil]; exact .done layout⟩
  | cons c cs =>
    obtain ⟨after, whole, read⟩ :=
      Lexeme.readAs_result cs (visible c rfl) (.behind (before ++ w))
    have nonempty := List.length_pos_iff.mpr read.nonempty
    have shorter : after.length < (w ++ c :: cs).length := by
      rw [whole]
      simp only [List.length_append]
      omega
    obtain ⟨rs, more⟩ := exists_scan (before ++ w ++ (Lexeme.atFront c cs).text) after
    rw [whole]
    rw [whole] at layout
    exact ⟨_, .next layout read more⟩
termination_by text.length

end Lexical

theorem Cursor.scan_results (source : String) :
    Lexical.Scan [] source.toList (Cursor.ofSource source).results := by
  obtain ⟨rs, scan⟩ := Lexical.exists_scan [] source.toList
  have same : (Cursor.ofSource source).results = rs := scan.results_eq
  rwa [same]

theorem Cursor.results_eq_iff {source : String} {rs : List (Except Diagnostic Token)} :
    (Cursor.ofSource source).results = rs ↔ Lexical.Scan [] source.toList rs := by
  constructor
  · rintro rfl
    exact Cursor.scan_results source
  · exact fun scan => scan.results_eq

/-- **What scanning yields.** The results of a source text are these exactly if the text is layout
and lexemes in turn, every lexeme standing at the place of its result and being read as this
result. Of fewer than `2 ^ 32 - 1` characters, the place behind any part of the text in front has
the true number of the line and the true number of the column. -/
theorem Cursor.results_iff_scan (source : String) (rs : List (Except Diagnostic Token)) :
    ((Cursor.ofSource source).results = rs ↔ Lexical.Scan [] source.toList rs)
    ∧ (source.length < UInt32.size - 1 → ∀ before, before <+: source.toList →
        (Position.behind before).line.toNat = 1 + before.count '\n'
        ∧ (Position.behind before).column.toNat =
            1 + (before.reverse.takeWhile (· != '\n')).length) := by
  refine ⟨Cursor.results_eq_iff, fun short before front => ?_⟩
  have shorter := front.length_le
  rw [String.length_toList] at shorter
  exact Position.behind_toNat (Nat.lt_of_le_of_lt shorter short)

/-- The `1` stands in the second line, behind two characters. -/
theorem Cursor.results_iff_scan_two_lines :
    "f\n= 1".length < UInt32.size - 1
      ∧ Lexical.Scan [] "f\n= 1".toList (Cursor.ofSource "f\n= 1").results
      ∧ (Position.behind "f\n= ".toList).line.toNat = 2
      ∧ (Position.behind "f\n= ".toList).column.toNat = 3 := by
  obtain ⟨scanned, places⟩ := Cursor.results_iff_scan "f\n= 1" _
  have short : "f\n= 1".length < UInt32.size - 1 := by decide
  exact ⟨short, scanned.mp rfl, places short "f\n= ".toList ⟨['1'], by decide⟩⟩

end LoopLang
