import LoopLang.Proofs.Cursor.Places
import LoopLang.Proofs.Parser.Reads

set_option autoImplicit false

/-! # The tokens ahead of a parser

`Parser.ahead` lists the tokens from the current one on, up to the end of the text. Taking tokens
takes them off the front of this list, and whatever stands in front of it can be taken. On the way
only lexical faults are noted, and `Parser.told`, the diagnostics noted so far and the lexical
faults still to come, stays what it is; the faults of the grammar (`Parser.faults`) are noted by the
loop over functions alone. -/

namespace LoopLang.Parser

open Lexical (tokens tokens_errors_append)

/-- What remains of the results of a text: its tokens, and lexical faults. -/
structure Scanned (p : Parser) : Prop where
  tokens : ∀ t, .ok t ∈ p.pending → t.kind ≠ .eof ∧ t.Lexed
  faults : ∀ d, .error d ∈ p.pending → d.cause.isLexical = true

/-- The current token and all tokens behind it, with the end of the text. -/
def ahead (p : Parser) : List Token :=
  p.current ::
    if p.current.kind = .eof then [] else tokens p.pending ++ [.endOfText p.endPos]

/-- The diagnostics noted that are not lexical, the latest first. -/
def faults (p : Parser) : List Diagnostic :=
  p.noted.filter fun d => !d.cause.isLexical

/-- The diagnostics noted, the earliest first, and the lexical faults that are still to come. -/
def told (p : Parser) : List Diagnostic :=
  p.noted.reverse ++ Lexical.faults p.pending

/-! ## Steps -/

theorem pending_step_suffix (p : Parser) : p.step.pending <:+ p.pending := by
  obtain ⟨ds, _, split | ⟨_, nothing, _⟩⟩ := p.step_spec
  · exact ⟨ds.map .error ++ [.ok p.step.current], by simp [split]⟩
  · exact nothing ▸ List.nil_suffix

theorem Scanned.step {p : Parser} (scanned : p.Scanned) : p.step.Scanned :=
  ⟨fun t mem => scanned.tokens t (p.pending_step_suffix.subset mem),
    fun d mem => scanned.faults d (p.pending_step_suffix.subset mem)⟩

theorem Scanned.lexed_step {p : Parser} (scanned : p.Scanned) : p.step.Lexed :=
  Parser.lexed_step fun t mem => (scanned.tokens t mem).2

/-- A step comes to the first token, or to the end of the text. -/
theorem ahead_step {p : Parser} (scanned : p.Scanned) :
    p.step.ahead = tokens p.pending ++ [.endOfText p.endPos] := by
  obtain ⟨ds, _, split | ⟨split, _, atEnd⟩⟩ := p.step_spec
  · have notEnd := (scanned.tokens p.step.current (by simp [split])).1
    rw [ahead, if_neg notEnd, split, tokens_errors_append]
    rfl
  · have none := tokens_errors_append ds []
    rw [List.append_nil] at none
    rw [ahead, split, none, atEnd]
    rfl

theorem ahead_of_ne_eof {p : Parser} (scanned : p.Scanned) (notEnd : p.current.kind ≠ .eof) :
    p.ahead = p.current :: p.step.ahead := by
  rw [ahead_step scanned, ahead, if_neg notEnd]

/-- A step notes lexical faults only. -/
theorem faults_step {p : Parser} (scanned : p.Scanned) : p.step.faults = p.faults := by
  obtain ⟨ds, noted, rest⟩ := p.step_spec
  have lexical : ∀ d ∈ ds, d.cause.isLexical = true := fun d mem => scanned.faults d <| by
    rcases rest with split | ⟨split, _⟩ <;> simp [split, mem]
  have none : (ds.reverse.filter fun d => !d.cause.isLexical) = [] :=
    List.filter_eq_nil_iff.mpr fun d mem => by simp [lexical d (List.mem_reverse.mp mem)]
  rw [faults, noted, List.filter_append, none, List.nil_append, faults]

/-- A step notes the lexical faults that it passes. -/
theorem told_step (p : Parser) : p.step.told = p.told := by
  obtain ⟨ds, noted, rest⟩ := p.step_spec
  have passed : Lexical.faults p.pending = ds ++ Lexical.faults p.step.pending := by
    rcases rest with split | ⟨split, nothing, _⟩
    · rw [split, Lexical.faults_errors_append]
      rfl
    · rw [split, nothing, ← Lexical.faults_errors_append, List.append_nil]
  rw [told, told, noted, passed, List.reverse_append, List.reverse_reverse, List.append_assoc]

/-- A step comes to the end of the text only when all results have been passed. -/
theorem Scanned.pending_step {p : Parser} (scanned : p.Scanned)
    (atEnd : p.step.current.kind = .eof) : p.step.pending = [] := by
  obtain ⟨ds, _, split | ⟨_, nothing, _⟩⟩ := p.step_spec
  · exact absurd atEnd (scanned.tokens p.step.current (by simp [split])).1
  · exact nothing

/-! ## Taking tokens -/

theorem Passes.scanned {p q : Parser} {ts : List Token} (pass : p.Passes ts q)
    (scanned : p.Scanned) : q.Scanned := by
  induction ts generalizing p with
  | nil =>
    obtain rfl : q = p := pass
    exact scanned
  | cons t ts ih => exact ih pass.2 scanned.step

theorem Passes.faults_eq {p q : Parser} {ts : List Token} (pass : p.Passes ts q)
    (scanned : p.Scanned) : q.faults = p.faults := by
  induction ts generalizing p with
  | nil =>
    obtain rfl : q = p := pass
    rfl
  | cons t ts ih => rw [ih pass.2 scanned.step, faults_step scanned]

theorem Passes.told_eq {p q : Parser} {ts : List Token} (pass : p.Passes ts q) :
    q.told = p.told := by
  induction ts generalizing p with
  | nil =>
    obtain rfl : q = p := pass
    rfl
  | cons t ts ih => rw [ih pass.2, told_step]

/-- What is taken stood in front of what is ahead then. -/
theorem Passes.ahead_eq {p q : Parser} {ts : List Token} (pass : p.Passes ts q)
    (scanned : p.Scanned) (notEnd : ∀ t ∈ ts, t.kind ≠ .eof) : p.ahead = ts ++ q.ahead := by
  induction ts generalizing p with
  | nil =>
    obtain rfl : q = p := pass
    rfl
  | cons t ts ih =>
    obtain ⟨rfl, pass⟩ := pass
    obtain ⟨here, others⟩ := List.forall_mem_cons.mp notEnd
    rw [ahead_of_ne_eof scanned here, ih pass scanned.step others, List.cons_append]

theorem current_of_ahead {p : Parser} {t : Token} {ts : List Token} (h : p.ahead = t :: ts) :
    p.current = t :=
  (List.cons.inj h).1

/-- What is ahead can be taken, up to the last token. -/
theorem passes_of_ahead {p : Parser} (scanned : p.Scanned) {ts us : List Token}
    (h : p.ahead = ts ++ us) (more : us ≠ []) : ∃ q, p.Passes ts q ∧ q.ahead = us := by
  induction ts generalizing p with
  | nil => exact ⟨p, rfl, h⟩
  | cons t ts ih =>
    have here : p.current = t := current_of_ahead h
    have notEnd : p.current.kind ≠ .eof := by
      intro atEnd
      rw [ahead, if_pos atEnd] at h
      exact more (List.append_eq_nil_iff.mp (List.cons.inj h).2.symm).2
    rw [ahead_of_ne_eof scanned notEnd] at h
    obtain ⟨q, pass, rest⟩ := ih scanned.step (List.cons.inj h).2
    exact ⟨q, ⟨here, pass⟩, rest⟩

theorem Passes.unique {p q q' : Parser} {ts : List Token} (pass : p.Passes ts q)
    (pass' : p.Passes ts q') : q' = q := by
  induction ts generalizing p with
  | nil =>
    obtain rfl : q = p := pass
    exact pass'
  | cons t ts ih => exact ih pass.2 pass'.2

/-- Away from the end, taking a token never comes back to the same place. -/
theorem Passes.eq_nil {p : Parser} {ts : List Token} (pass : p.Passes ts p)
    (notEnd : p.current.kind ≠ .eof) : ts = [] := by
  cases ts with
  | nil => rfl
  | cons t ts =>
    have shorter := size_step_lt notEnd
    have bound := pass.2.size_le
    omega

/-- Of the tokens that lead to a place away from the end, there are no fewer and no more. -/
theorem Passes.eq_of_front {p q : Parser} {ts us : List Token} (pass : p.Passes ts q)
    (pass' : p.Passes us q) (notEnd : q.current.kind ≠ .eof) (front : ts <+: us) : ts = us := by
  obtain ⟨vs, rfl⟩ := front
  obtain ⟨r, first, rest⟩ := passes_append.mp pass'
  obtain rfl := first.unique pass
  rw [rest.eq_nil notEnd, List.append_nil]

end LoopLang.Parser
