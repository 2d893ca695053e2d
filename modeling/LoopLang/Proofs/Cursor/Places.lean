import LoopLang.Proofs.Cursor.Scanning
import Mathlib.Data.List.Pairwise

set_option autoImplicit false

/-! # Where results stand

Every lexeme stands behind the one in front of it. So the tokens of a text are listed by place, with
the end of the text behind them all, if the text has fewer than `2 ^ 32 - 1` characters; in a longer
one the counters may come round. What else there is among the results are lexical faults. -/

namespace LoopLang

/-! ## The order of places -/

namespace Position

/-- `p` comes earlier than `q`, by line and then by column. -/
def Before (p q : Position) : Prop :=
  p.line < q.line ∨ (p.line = q.line ∧ p.column < q.column)

instance (p q : Position) : Decidable (p.Before q) :=
  inferInstanceAs (Decidable (p.line < q.line ∨ (p.line = q.line ∧ p.column < q.column)))

theorem before_iff {p q : Position} :
    p.Before q ↔ p.line.toNat < q.line.toNat
      ∨ (p.line.toNat = q.line.toNat ∧ p.column.toNat < q.column.toNat) := by
  rw [Before, UInt32.lt_iff_toNat_lt, UInt32.lt_iff_toNat_lt, UInt32.toNat_inj]

theorem Before.notAfter {p q : Position} (h : p.Before q) : p.notAfter q = true := by
  rw [before_iff] at h
  rw [notAfter_iff]
  omega

theorem Before.ne {p q : Position} (h : p.Before q) : p ≠ q := by
  rintro rfl
  rw [before_iff] at h
  omega

theorem Before.trans_notAfter {p q r : Position} (h : p.Before q) (h' : q.notAfter r = true) :
    p.Before r := by
  rw [notAfter_iff] at h'
  rw [before_iff] at *
  omega

theorem notAfter_refl (p : Position) : p.notAfter p = true := by
  rw [notAfter_iff]
  omega

/-! ### Room -/

/-- Neither counter comes round within the next `n` characters, whatever they are. -/
def Room (p : Position) (n : Nat) : Prop :=
  p.line.toNat + n < UInt32.size ∧ p.column.toNat + n < UInt32.size

theorem room_start {n : Nat} (short : n < UInt32.size - 1) : start.Room n := by
  have first : (1 : UInt32).toNat = 1 := rfl
  simp only [Room, start, first, UInt32.size] at *
  omega

theorem Room.mono {p : Position} {m n : Nat} (room : p.Room n) (le : m ≤ n) : p.Room m :=
  ⟨Nat.lt_of_le_of_lt (Nat.add_le_add_left le _) room.1,
    Nat.lt_of_le_of_lt (Nat.add_le_add_left le _) room.2⟩

theorem toNat_succ {a : UInt32} (room : a.toNat + 1 < UInt32.size) :
    (a + 1).toNat = a.toNat + 1 := by
  rw [UInt32.toNat_add]
  exact Nat.mod_eq_of_lt room

theorem Room.after {p : Position} {n : Nat} (room : p.Room (n + 1)) (c : Char) :
    (p.after c).Room n := by
  obtain ⟨line, column⟩ := room
  have first : (1 : UInt32).toNat = 1 := rfl
  unfold Position.after
  split
  · have next := @toNat_succ p.line (by omega)
    constructor
    · simp only [next]
      omega
    · simp only [first]
      omega
  · have next := @toNat_succ p.column (by omega)
    constructor
    · simp only
      omega
    · simp only [next]
      omega

theorem Room.advance {p : Position} {text : List Char} {n : Nat}
    (room : p.Room (text.length + n)) : (p.advance text).Room n := by
  induction text generalizing p with
  | nil => exact room.mono (Nat.le_add_left _ _)
  | cons c cs ih =>
    rw [List.length_cons, Nat.add_right_comm] at room
    exact ih (room.after c)

/-- Where there is room for it, a character moves the place on. -/
theorem Room.before_after {p : Position} (room : p.Room 1) (c : Char) : p.Before (p.after c) := by
  rw [before_iff]
  unfold Position.after
  split
  · left
    rw [toNat_succ room.1]
    exact Nat.lt_succ_self _
  · right
    rw [toNat_succ room.2]
    exact ⟨rfl, Nat.lt_succ_self _⟩

theorem Room.notAfter_advance {p : Position} {text : List Char} (room : p.Room text.length) :
    p.notAfter (p.advance text) = true := by
  induction text generalizing p with
  | nil => exact notAfter_refl p
  | cons c cs ih =>
    have first := (room.mono (Nat.le_add_left 1 _)).before_after c
    exact (first.trans_notAfter (ih (room.after c))).notAfter

theorem Room.before_advance {p : Position} {text : List Char} (room : p.Room text.length)
    (nonempty : text ≠ []) : p.Before (p.advance text) := by
  obtain ⟨c, cs, rfl⟩ := List.exists_cons_of_ne_nil nonempty
  have first := (room.mono (Nat.le_add_left 1 _)).before_after c
  exact first.trans_notAfter (room.after c).notAfter_advance

end Position

namespace Lexical

/-! ## Tokens and faults among results -/

/-- The tokens among some results. -/
def tokens (rs : List (Except Diagnostic Token)) : List Token :=
  rs.filterMap Except.toOption

theorem mem_tokens {t : Token} {rs : List (Except Diagnostic Token)} :
    t ∈ tokens rs ↔ .ok t ∈ rs := by
  unfold tokens
  rw [List.mem_filterMap]
  constructor
  · rintro ⟨_ | u, mem, same⟩
    · cases same
    · cases same
      exact mem
  · exact fun mem => ⟨.ok t, mem, rfl⟩

theorem tokens_map_ok (ts : List Token) : tokens (ts.map .ok) = ts := by
  unfold tokens
  rw [List.filterMap_map]
  exact List.filterMap_some

/-- The lexical faults among some results. -/
def faults (rs : List (Except Diagnostic Token)) : List Diagnostic :=
  rs.filterMap fun
    | .ok _ => none
    | .error d => some d

theorem mem_faults {d : Diagnostic} {rs : List (Except Diagnostic Token)} :
    d ∈ faults rs ↔ .error d ∈ rs := by
  unfold faults
  rw [List.mem_filterMap]
  constructor
  · rintro ⟨e | _, mem, same⟩
    · cases same
      exact mem
    · cases same
  · exact fun mem => ⟨.error d, mem, rfl⟩

theorem tokens_errors_append (ds : List Diagnostic) (rs : List (Except Diagnostic Token)) :
    tokens (ds.map .error ++ rs) = tokens rs := by
  induction ds with
  | nil => rfl
  | cons d ds ih => exact ih

theorem faults_errors_append (ds : List Diagnostic) (rs : List (Except Diagnostic Token)) :
    faults (ds.map .error ++ rs) = ds ++ faults rs := by
  induction ds with
  | nil => rfl
  | cons d ds ih => exact congrArg (d :: ·) ih

theorem results_of_clean {rs : List (Except Diagnostic Token)} (clean : faults rs = []) :
    rs = (tokens rs).map .ok := by
  induction rs with
  | nil => rfl
  | cons r rs ih =>
    cases r with
    | ok t => exact congrArg (Except.ok t :: ·) (ih clean)
    | error d => cases clean

theorem ReadAs.isLexical {pos : Position} {after lexeme : List Char} {d : Diagnostic}
    (h : ReadAs pos after lexeme (.error d)) : d.cause.isLexical = true := by
  cases h with
  | loneOperator => rfl
  | strayChar => rfl

/-! ## Places of results -/

/-- The place that a result is about. -/
def place : Except Diagnostic Token → Position
  | .ok t => t.pos
  | .error d => d.pos

theorem ReadAs.place_eq {pos : Position} {after lexeme : List Char} {r : Except Diagnostic Token}
    (h : ReadAs pos after lexeme r) : place r = pos := by
  cases h <;> rfl

/-- Where there is room for a text, there is for its first part, and behind it for the others. -/
theorem room_behind {before text rest : List Char}
    (room : (Position.behind before).Room (text ++ rest).length) :
    (Position.behind before).Room text.length
      ∧ (Position.behind (before ++ text)).Room rest.length := by
  rw [List.length_append] at room
  rw [← Position.behind_advance]
  exact ⟨room.mono (Nat.le_add_right _ _), room.advance⟩

/-- Whatever is read from a text does not stand in front of it. -/
theorem Scan.notAfter {before text : List Char} {rs : List (Except Diagnostic Token)}
    (h : Scan before text rs) (room : (Position.behind before).Room text.length) :
    ∀ r ∈ rs ++ [Except.ok (Token.endOfText (.behind (before ++ text)))],
      (Position.behind before).notAfter (place r) = true := by
  induction h with
  | @done before w =>
    intro r mem
    obtain rfl := List.mem_singleton.mp mem
    rw [place, Token.endOfText, ← Position.behind_advance]
    exact room.notAfter_advance
  | @next before w lexeme after r rs layout read more ih =>
    obtain ⟨forLayout, room⟩ := room_behind room
    obtain ⟨forLexeme, room⟩ := room_behind room
    have start : (Position.behind before).notAfter (.behind (before ++ w)) = true := by
      rw [← Position.behind_advance]
      exact forLayout.notAfter_advance
    have lexeme' : (Position.behind (before ++ w)).notAfter (.behind (before ++ w ++ lexeme)) =
        true := by
      rw [← Position.behind_advance (before ++ w)]
      exact forLexeme.notAfter_advance
    have later := ih room
    simp only [List.append_assoc] at later lexeme'
    refine List.forall_mem_cons.mpr ⟨read.place_eq ▸ start, fun r mem => ?_⟩
    exact Position.notAfter_trans start (Position.notAfter_trans lexeme' (later r mem))

/-- The results of a text are listed by place, and the end of the text is behind them. -/
theorem Scan.pairwise {before text : List Char} {rs : List (Except Diagnostic Token)}
    (h : Scan before text rs) (room : (Position.behind before).Room text.length) :
    (rs ++ [Except.ok (Token.endOfText (.behind (before ++ text)))]).Pairwise
      fun r s => (place r).Before (place s) := by
  induction h with
  | done => exact List.pairwise_singleton _ _
  | @next before w lexeme after r rs layout read more ih =>
    have whole : before ++ w ++ lexeme ++ after = before ++ (w ++ (lexeme ++ after)) := by
      simp only [List.append_assoc]
    obtain ⟨_, room⟩ := room_behind room
    obtain ⟨forLexeme, room⟩ := room_behind room
    have lower := more.notAfter room
    have later := ih room
    rw [whole] at later lower
    have first : (place r).Before (.behind (before ++ w ++ lexeme)) := by
      rw [read.place_eq, ← Position.behind_advance (before ++ w)]
      exact forLexeme.before_advance read.nonempty
    exact List.pairwise_cons.mpr ⟨fun s mem => first.trans_notAfter (lower s mem), later⟩

/-- What is made of single results keeps their order, if it keeps their places. -/
theorem pairwise_filterMap {α : Type} {pos : α → Position} {f : Except Diagnostic Token → Option α}
    (keeps : ∀ r a, f r = some a → pos a = place r) {rs : List (Except Diagnostic Token)}
    (sorted : rs.Pairwise fun r s => (place r).Before (place s)) :
    (rs.filterMap f).Pairwise fun a b => (pos a).Before (pos b) := by
  refine sorted.filterMap f fun r s before a isA b isB => ?_
  rw [keeps r a isA, keeps s b isB]
  exact before

/-! ## Source texts -/

/-- The tokens of a source text, without its lexical faults. -/
def tokensOf (source : String) : List Token :=
  tokens (Cursor.ofSource source).results

/-- The lexical faults of a source text. -/
def faultsOf (source : String) : List Diagnostic :=
  faults (Cursor.ofSource source).results

/-- The tokens of a source text and the end of the text. -/
def tokensToEnd (source : String) : List Token :=
  tokensOf source ++ [.endOfText (Cursor.ofSource source).endPos]

end Lexical

namespace Cursor

open Lexical

theorem isLexical_of_mem_results {source : String} {d : Diagnostic}
    (mem : .error d ∈ (ofSource source).results) : d.cause.isLexical = true := by
  obtain ⟨_, _, _, _, read⟩ := (scan_results source).exists_readAs mem
  exact read.isLexical

section Short

variable {source : String} (short : source.length < UInt32.size - 1)
include short

/-- All that is read from a source text stands behind what is read before it, and the end behind
everything. -/
theorem results_pairwise :
    ((ofSource source).results ++ [Except.ok (Token.endOfText (ofSource source).endPos)]).Pairwise
      fun r s => (place r).Before (place s) := by
  have atEnd : (ofSource source).endPos = .behind ([] ++ source.toList) :=
    Position.start_advance source.toList
  have room : (Position.behind []).Room source.toList.length := by
    rw [String.length_toList]
    exact Position.room_start short
  rw [atEnd]
  exact (scan_results source).pairwise room

theorem tokensToEnd_pairwise : (tokensToEnd source).Pairwise fun t u => t.pos.Before u.pos := by
  have split : tokensToEnd source =
      tokens ((ofSource source).results ++ [.ok (.endOfText (ofSource source).endPos)]) := by
    rw [tokensToEnd, tokensOf, tokens, tokens, List.filterMap_append]
    rfl
  rw [split]
  refine pairwise_filterMap (fun r t isT => ?_) (results_pairwise short)
  cases r with
  | error d => cases isT
  | ok r =>
    cases isT
    rfl

theorem faultsOf_pairwise : (faultsOf source).Pairwise fun d e => d.pos.Before e.pos := by
  refine pairwise_filterMap (fun r d isD => ?_)
    (List.pairwise_append.mp (results_pairwise short)).1
  cases r with
  | ok t => cases isD
  | error r =>
    cases isD
    rfl

/-- No lexical fault stands where a token or the end of the text does. -/
theorem pos_ne_of_mem_faultsOf {d : Diagnostic} {t : Token} (fault : d ∈ faultsOf source)
    (token : t ∈ tokensToEnd source) : d.pos ≠ t.pos := by
  have apart := (results_pairwise short).imp fun before => before.ne
  have symmetric : Std.Symm fun r s => place r ≠ place s := ⟨fun _ _ ne => ne.symm⟩
  have here : .error d ∈
      (ofSource source).results ++ [.ok (Token.endOfText (ofSource source).endPos)] :=
    List.mem_append_left _ (mem_faults.mp fault)
  have there : .ok t ∈
      (ofSource source).results ++ [Except.ok (Token.endOfText (ofSource source).endPos)] := by
    rcases List.mem_append.mp token with mem | mem
    · exact List.mem_append_left _ (mem_tokens.mp mem)
    · obtain rfl := List.mem_singleton.mp mem
      exact List.mem_append_right _ List.mem_cons_self
  exact apart.forall here there nofun

end Short

end Cursor

end LoopLang
