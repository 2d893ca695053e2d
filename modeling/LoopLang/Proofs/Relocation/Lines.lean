import LoopLang.Proofs.Cursor.Places
import LoopLang.Proofs.Relocation.Parsing

set_option autoImplicit false

/-! # Texts line by line

A newline closes whatever stands in front of it, a word, a number, an operator or a comment, and
behind it scanning goes on as at the beginning of a text, on a later line. So the results of two
texts with a newline between them are those of the one and those of the other, further down. Only an
operator character that is not doubled tells what stands behind it, and so tells the newline where
it stood at the end of its text.

Lines are counted in 32 bits. So `2 ^ 32` line breaks lead back to the line that they begin in, and
a text behind them is read as if it were the first one. -/

namespace LoopLang

/-! ## Places -/

namespace Position

/-- The same column, so many lines further down. -/
def down (lines : Nat) (p : Position) : Position := ⟨p.line + .ofNat lines, p.column⟩

@[simp] theorem down_zero (p : Position) : p.down 0 = p := by
  simp [down]

theorem down_down (m n : Nat) (p : Position) : (p.down m).down n = p.down (m + n) := by
  simp [down, UInt32.ofNat_add, UInt32.add_assoc]

/-- The lines have come round. -/
theorem down_size (p : Position) : p.down UInt32.size = p := by
  have none : UInt32.ofNat UInt32.size = 0 := by decide
  rw [down, none, UInt32.add_zero]

theorem after_down (lines : Nat) (p : Position) (c : Char) :
    (p.down lines).after c = (p.after c).down lines := by
  unfold after
  split
  · rw [down, down, UInt32.add_assoc, UInt32.add_comm (.ofNat lines), ← UInt32.add_assoc]
  · rfl

theorem advance_down (lines : Nat) (p : Position) (text : List Char) :
    (p.down lines).advance text = (p.advance text).down lines := by
  induction text generalizing p with
  | nil => rfl
  | cons c text ih => rw [advance_cons, advance_cons, after_down, ih]

/-- Behind a text and a newline, places are those of another text, further down. -/
theorem behind_newline (s t : List Char) :
    behind (s ++ '\n' :: t) = (behind t).down (s.count '\n' + 1) := by
  have line : behind (s ++ ['\n']) = start.down (s.count '\n' + 1) := by
    simp [behind, down, start, UInt32.ofNat_add, UInt32.add_comm]
  rw [List.append_cons, ← behind_advance, line, advance_down, start_advance]

end Position

open LoopLang.Parser (relocateResult)

namespace Lexical

/-! ## The text behind the newline -/

theorem ReadAs.relocate {f : Position → Position} {pos : Position} {after text : List Char}
    {r : Except Diagnostic Token} (h : ReadAs pos after text r) :
    ReadAs (f pos) after text (relocateResult f r) := by
  cases h with
  | token fits longest => exact .token fits longest
  | loneOperator operator single => exact .loneOperator operator single
  | strayChar stray => exact .strayChar stray

/-- Behind a text and a newline, a text is scanned as on its own, further down. -/
theorem Scan.behind_newline {before text : List Char} {rs : List (Except Diagnostic Token)}
    (h : Scan before text rs) (s : List Char) :
    Scan (s ++ '\n' :: before) text
      (rs.map (relocateResult (.down (s.count '\n' + 1)))) := by
  induction h with
  | done layout => exact .done layout
  | @next before w lexeme after r rs layout read _ ih =>
    have read' : ReadAs (.behind (s ++ '\n' :: before ++ w)) after lexeme
        (relocateResult (.down (s.count '\n' + 1)) r) := by
      rw [List.append_assoc, List.cons_append, Position.behind_newline]
      exact read.relocate
    simp only [List.append_assoc, List.cons_append] at ih read'
    refine .next layout (by simpa using read') (by simpa using ih)

/-! ## The text in front of the newline -/

/-- What a result is where a newline follows the text: an operator character at its end, which is
not doubled, has the newline behind it. -/
def closed : Except Diagnostic Token → Except Diagnostic Token
  | .error ⟨pos, .loneOperator c none⟩ => .error ⟨pos, .loneOperator c (some '\n')⟩
  | r => r

/-- Where layout ends depends on the next character only. -/
theorem Layout.of_head {after after' w : List Char} (h : Layout after w)
    (same : after'.head? = after.head?) : Layout after' w := by
  induction h with
  | nil => exact .nil
  | blank blank _ ih => exact .blank blank ih
  | @comment text w line ends _ ih =>
    refine .comment line ?_ ih
    rwa [List.head?_append, same, ← List.head?_append]

/-- Layout at the end of a text goes on behind a newline. -/
theorem Layout.newline {after w v : List Char} (h : Layout [] w) (below : Layout after v) :
    Layout after (w ++ '\n' :: v) := by
  have newline : Blank '\n' := by simp [Blank]
  induction h with
  | nil => exact .blank newline below
  | blank blank _ ih => exact .blank blank ih
  | @comment text w line ends _ ih =>
    rw [List.cons_append, List.append_assoc]
    refine .comment line ?_ ih
    -- the comment ends where it ended, or else in front of the newline
    intro c mem
    cases w with
    | nil => simpa [eq_comm] using mem
    | cons d w => exact ends c (by simpa using mem)

/-- A newline that follows makes no lexeme longer. -/
theorem ReadAs.newline {pos : Position} {after text : List Char} {r : Except Diagnostic Token}
    (h : ReadAs pos after text r) (rest : List Char) :
    ReadAs pos (after ++ '\n' :: rest) text (closed r) := by
  cases h with
  | token fits longest =>
    refine .token fits fun c mem => ?_
    cases after with
    | nil =>
      obtain rfl : '\n' = c := by simpa using mem
      exact not_extends_blank (by simp [Blank])
    | cons d after => exact longest c (by simpa using mem)
  | @loneOperator c operator single =>
    cases after with
    | nil =>
      refine .loneOperator operator ?_
      rcases operator with rfl | rfl <;> simp
    | cons d after => exact .loneOperator operator single
  | strayChar stray => exact .strayChar stray

/-- A text, a newline and another text are scanned one behind the other. -/
theorem Scan.newline {before s t : List Char} {rs us : List (Except Diagnostic Token)}
    (first : Scan before s rs) (second : Scan (before ++ s ++ ['\n']) t us) :
    Scan before (s ++ '\n' :: t) (rs.map closed ++ us) := by
  induction first with
  | @done before w layout =>
    cases second with
    | done layout' => exact .done (layout.newline layout')
    | @next _ v lexeme after r us layout' read more =>
      have whole : w ++ '\n' :: (v ++ (lexeme ++ after)) = w ++ '\n' :: v ++ (lexeme ++ after) := by
        simp
      simp only [List.append_assoc, List.singleton_append] at read more
      rw [whole]
      exact .next (layout.newline layout') read (by simpa using more)
  | @next before w lexeme after r rs layout read _ ih =>
    simp only [List.append_assoc] at ih second
    have layout' : Layout (lexeme ++ (after ++ '\n' :: t)) w := by
      refine layout.of_head ?_
      obtain ⟨c, cs, rfl, _⟩ := read.atFront_eq
      rfl
    have more := ih second
    simp only [List.append_assoc, List.map_cons, List.cons_append]
    exact .next layout' (read.newline t) (by simpa using more)

/-- Behind an operator character at the end of a text nothing is left. -/
theorem ReadAs.after_eq_nil {pos place : Position} {after text : List Char} {c : Char}
    (h : ReadAs pos after text (.error ⟨place, .loneOperator c none⟩)) : after = [] := by
  generalize same : Except.error _ = r at h
  cases h with
  | token => cases same
  | loneOperator =>
    simp only [Except.error.injEq, Diagnostic.mk.injEq, Cause.loneOperator.injEq] at same
    exact List.head?_eq_none_iff.mp same.2.2.symm
  | strayChar => cases same

/-- Only the last result can be an operator character at the end of the text. -/
theorem Scan.getLast?_of_mem {before text : List Char} {rs : List (Except Diagnostic Token)}
    (h : Scan before text rs) {pos : Position} {c : Char}
    (mem : .error ⟨pos, .loneOperator c none⟩ ∈ rs) :
    rs.getLast? = some (.error ⟨pos, .loneOperator c none⟩) := by
  induction h with
  | done => cases mem
  | @next before w lexeme after r rs _ read more ih =>
    rcases List.mem_cons.mp mem with rfl | later
    · obtain rfl := read.after_eq_nil
      obtain rfl : [] = rs := more.results_eq
      rfl
    · rw [List.getLast?_cons, ih later]
      rfl

end Lexical

namespace Cursor

open Lexical

/-- Whatever two texts hold, a newline keeps their results apart. -/
theorem results_newline (s t : String) :
    (ofSource (s ++ "\n" ++ t)).results =
      (ofSource s).results.map closed
        ++ (ofSource t).results.map (relocateResult (.down (s.toList.count '\n' + 1))) := by
  have below := (scan_results t).behind_newline s.toList
  have scan := (scan_results s).newline (by simpa using below)
  have joined : (s ++ "\n" ++ t).toList = s.toList ++ '\n' :: t.toList := by simp
  rw [← joined] at scan
  exact scan.results_eq

/-- The results in front of a newline are those of the text on its own exactly if it does not end
in an operator character that is not doubled. -/
theorem map_closed_eq_iff (s : String) :
    (ofSource s).results.map closed = (ofSource s).results
      ↔ ∀ pos c, (ofSource s).results.getLast? ≠ some (.error ⟨pos, .loneOperator c none⟩) := by
  constructor
  · intro same pos c last
    have each := List.map_eq_map_iff.mp (same.trans (List.map_id _).symm)
    have kept := each _ (List.mem_of_getLast? last)
    simp [closed] at kept
  · intro done
    have each : ∀ r ∈ (ofSource s).results, closed r = r := by
      intro r mem
      unfold closed
      split
      · next pos c => exact absurd ((scan_results s).getLast?_of_mem mem) (done pos c)
      · rfl
    exact (List.map_congr_left each).trans (List.map_id' _)

/-- Where there is room for all lines, those behind a text and a newline have the higher numbers. -/
theorem line_down_toNat {s t : String} (short : s.length + t.length < UInt32.size - 1)
    {r : Except Diagnostic Token} (mem : r ∈ (ofSource t).results) :
    ((place r).down (s.toList.count '\n' + 1)).line.toNat =
      (place r).line.toNat + (s.toList.count '\n' + 1) := by
  obtain ⟨front, after, lexeme, whole, read⟩ := (scan_results t).exists_readAs mem
  have nonempty := List.length_pos_iff.mpr read.nonempty
  have all := congrArg List.length whole
  rw [List.nil_append, String.length_toList] at all
  simp only [List.length_append] at all
  have first : s.toList.count '\n' ≤ s.length := String.length_toList ▸ List.count_le_length
  have second : front.count '\n' ≤ front.length := List.count_le_length
  have room : front.length < UInt32.size - 1 := by omega
  simp only [UInt32.size] at short
  rw [read.place_eq, Position.down, UInt32.toNat_add, UInt32.toNat_ofNat',
    (Position.behind_toNat room).1]
  omega

/-- **Scanning splits at line breaks.** The results of a text, a newline and another text are the
results of the one text and behind them those of the other, tokens and faults alike, in the same
columns and as many lines further down as the first text has newlines, and one more. The only
exception is a first text that ends in an `&` or `|` which is not doubled. The lines do not come
round if both texts together have fewer than `2 ^ 32 - 1` characters. -/
theorem results_split_iff (s t : String) :
    ((ofSource (s ++ "\n" ++ t)).results =
        (ofSource s).results
          ++ (ofSource t).results.map (relocateResult (.down (s.toList.count '\n' + 1)))
      ↔ ∀ pos c, (ofSource s).results.getLast? ≠ some (.error ⟨pos, .loneOperator c none⟩))
    ∧ (s.length + t.length < UInt32.size - 1 → ∀ r ∈ (ofSource t).results,
        ((place r).down (s.toList.count '\n' + 1)).line.toNat =
          (place r).line.toNat + (s.toList.count '\n' + 1)) := by
  refine ⟨?_, fun short r mem => line_down_toNat short mem⟩
  rw [results_newline, List.append_left_inj, map_closed_eq_iff]

/-- A comment at the end of the first text, and a word in the third line of the second one. -/
theorem results_split_iff_comment :
    (∀ pos c, (ofSource "a # b").results.getLast? ≠ some (.error ⟨pos, .loneOperator c none⟩))
      ∧ (ofSource ("a # b" ++ "\n" ++ "\n\nc")).results =
          [.ok ⟨.identifier, "a", ⟨1, 1⟩⟩, .ok ⟨.identifier, "c", ⟨4, 1⟩⟩]
      ∧ ((place (.ok ⟨.identifier, "c", ⟨3, 1⟩⟩)).down 1).line.toNat = 3 + 1 := by
  obtain ⟨split, lines⟩ := results_split_iff "a # b" "\n\nc"
  have done : ∀ pos c,
      (ofSource "a # b").results.getLast? ≠ some (.error ⟨pos, .loneOperator c none⟩) :=
    fun _ _ => nofun
  exact ⟨done, split.mpr done, lines (by decide) _ List.mem_cons_self⟩

end Cursor

/-! ## Lines that come round -/

namespace Lexical

/-- So many line breaks. -/
def lineBreaks (n : Nat) : String := .ofList (List.replicate n '\n')

theorem lineBreaks_succ_append (n : Nat) (t : String) :
    lineBreaks (n + 1) ++ t = "" ++ "\n" ++ (lineBreaks n ++ t) := by
  simp [lineBreaks, List.replicate_succ, ← String.toList_inj]

/-- The text `t`, `2 ^ 32` lines below the text `s`. -/
def farBelow (s t : String) : String := s ++ lineBreaks UInt32.size ++ t

end Lexical

namespace Cursor

open Lexical

theorem relocateResult_id (r : Except Diagnostic Token) : relocateResult id r = r := by
  cases r <;> rfl

theorem relocateResult_down (m n : Nat) (r : Except Diagnostic Token) :
    relocateResult (.down n) (relocateResult (.down m) r) = relocateResult (.down (m + n)) r := by
  cases r with
  | error d => simp [relocateResult, Diagnostic.relocate, Position.down_down]
  | ok t => simp [relocateResult, Token.relocate, Position.down_down]

theorem endPos_ofSource (t : String) : (ofSource t).endPos = .behind t.toList :=
  Position.start_advance t.toList

theorem endPos_newline (s t : String) :
    (ofSource (s ++ "\n" ++ t)).endPos =
      (ofSource t).endPos.down (s.toList.count '\n' + 1) := by
  have joined : (s ++ "\n" ++ t).toList = s.toList ++ '\n' :: t.toList := by simp
  rw [endPos_ofSource, endPos_ofSource, joined, Position.behind_newline]

/-- Line breaks in front of a text only put it further down. -/
theorem lineBreaks_append (n : Nat) (t : String) :
    (ofSource (lineBreaks n ++ t)).results =
        (ofSource t).results.map (relocateResult (.down n))
      ∧ (ofSource (lineBreaks n ++ t)).endPos = (ofSource t).endPos.down n := by
  induction n with
  | zero =>
    have here : Position.down 0 = id := funext Position.down_zero
    have nothing : lineBreaks 0 ++ t = t := by simp [lineBreaks]
    rw [nothing, here, List.map_congr_left fun r _ => relocateResult_id r, List.map_id']
    exact ⟨rfl, rfl⟩
  | succ n ih =>
    rw [lineBreaks_succ_append, results_newline, endPos_newline, ih.1, ih.2, List.map_map,
      Position.down_down]
    exact ⟨List.map_congr_left fun r _ => relocateResult_down n 1 r, rfl⟩

/-- `2 ^ 32` lines below a line of text, a text is read as if nothing stood in front of it. -/
theorem results_farBelow {s t : String} (oneLine : '\n' ∉ s.toList) :
    (ofSource (farBelow s t)).results = (ofSource s).results.map closed ++ (ofSource t).results
      ∧ (ofSource (farBelow s t)).endPos = (ofSource t).endPos := by
  obtain ⟨n, lines⟩ : ∃ n, UInt32.size = n + 1 := ⟨UInt32.size - 1, by decide⟩
  have split : farBelow s t = s ++ "\n" ++ (lineBreaks n ++ t) := by
    rw [farBelow, lines, String.append_assoc, lineBreaks_succ_append]
    simp [String.append_assoc]
  have none : s.toList.count '\n' = 0 := List.count_eq_zero.mpr oneLine
  have around : Position.down (n + (0 + 1)) = id := funext fun p => lines ▸ p.down_size
  have below : ∀ r, (relocateResult (.down (0 + 1)) ∘ relocateResult (.down n)) r = r := by
    intro r
    rw [Function.comp_apply, relocateResult_down, around, relocateResult_id]
  obtain ⟨results, endPos⟩ := lineBreaks_append n t
  rw [split, results_newline, endPos_newline, results, endPos, none, List.map_map,
    Position.down_down, around, List.map_congr_left fun r _ => below r, List.map_id']
  exact ⟨rfl, rfl⟩

end Cursor

namespace Parser

open Lexical (farBelow closed)

theorem ofSource_farBelow {s t : String} (oneLine : '\n' ∉ s.toList) :
    ofSource (farBelow s t) =
      ofResults ((Cursor.ofSource s).results.map closed ++ (Cursor.ofSource t).results)
        (Cursor.ofSource t).endPos := by
  obtain ⟨results, endPos⟩ := Cursor.results_farBelow (t := t) oneLine
  rw [← results, ← endPos]
  rfl

end Parser

end LoopLang
