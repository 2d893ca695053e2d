import LoopLang.Proofs.Grammar.Rounds
import Mathlib.Data.List.SplitBy

set_option autoImplicit false

/-! # Pieces of a program

Cut between every `end` and a `let` that directly follows it, the tokens of a program are its
functions, and those of a text that is no program are pieces that go wrong each on its own. No
production takes both the `end` and the `let` of such a border, and no fault lets the parser move on
beyond one. So a piece that is no function brings exactly one fault, whatever stands around it, and
the parser looks at the border behind it afterwards. -/

namespace LoopLang

namespace Grammar

/-- Whether the second token may directly follow the first one within a piece. -/
def joined (t u : Token) : Bool :=
  decide ¬(u.kind = .keyword .letKw ∧ t.kind = .keyword .endKw)

/-- The tokens, cut between every `end` and a `let` that directly follows it. No tokens at all are
one empty piece. -/
def pieces (ts : List Token) : List (List Token) :=
  if ts = [] then [[]] else ts.splitBy joined

theorem joined_eq_true_iff {t u : Token} :
    joined t u = true ↔ ¬(u.kind = .keyword .letKw ∧ t.kind = .keyword .endKw) :=
  decide_eq_true_iff

theorem joined_eq_false_iff {t u : Token} :
    joined t u = false ↔ u.kind = .keyword .letKw ∧ t.kind = .keyword .endKw := by
  rw [joined, decide_eq_false_iff_not, Classical.not_not]

/-- The token behind a piece: the end of the text, or a `let` behind the `end` of the piece. -/
def Closes (piece : List Token) (b : Token) : Prop :=
  b.kind = .eof ∨ (b.kind = .keyword .letKw ∧ ∃ t ∈ piece.getLast?, t.kind = .keyword .endKw)

/-- How the fault of a piece follows from the token behind it: it stands at a token of the piece, or
at the token behind, for the lack of something else. -/
inductive Report (piece : List Token) : (Token → Diagnostic) → Prop where
  | inside {t d} (mem : t ∈ piece) (fault : Parser.FaultAt t d) : Report piece fun _ => d
  | behind (w : Parser.Wanted) : Report piece fun b => ⟨b.pos, w.cause b.text⟩

end Grammar

namespace Parser

open Grammar (joined Closes Report)

/-! ## Moving on within a piece -/

/-- Behind a token of the kind `before`, these tokens are within one piece. -/
def Uncut (before : TokenKind) : List Token → Prop
  | [] => True
  | t :: ts => ¬(t.kind = .keyword .letKw ∧ before = .keyword .endKw) ∧ Uncut t.kind ts

theorem uncut_of_isChain {t : Token} {ts : List Token}
    (chain : (t :: ts).IsChain fun t u => joined t u) : Uncut t.kind ts := by
  induction ts generalizing t with
  | nil => trivial
  | cons u ts ih =>
    obtain ⟨first, rest⟩ := List.isChain_cons_cons.mp chain
    exact ⟨Grammar.joined_eq_true_iff.mp first, ih rest⟩

theorem lastKind_append (before : TokenKind) (ts us : List Token) :
    lastKind before (ts ++ us) = lastKind (lastKind before ts) us :=
  List.foldl_append

theorem lastKind_of_mem_getLast? {before : TokenKind} {t : Token} {ts : List Token}
    (last : t ∈ ts.getLast?) : lastKind before ts = t.kind := by
  obtain ⟨front, rfl⟩ := List.getLast?_eq_some_iff.mp last
  rw [lastKind_append]
  rfl

theorem lastKind_function {before : TokenKind} {ts : List Token} {f : Function}
    (function : Grammar.Function ts f) : lastKind before ts = .keyword .endKw := by
  obtain ⟨_, _, _, _, _, _, endKw⟩ := function
  simpa [lastKind] using endKw

theorem border_of_closes {piece : List Token} {b : Token} (closes : Closes piece b)
    (before : TokenKind) :
    b.kind = .eof ∨ (b.kind = .keyword .letKw ∧ lastKind before piece = .keyword .endKw) := by
  rcases closes with atEnd | ⟨letKw, t, last, endKw⟩
  · exact Or.inl atEnd
  · exact Or.inr ⟨letKw, (lastKind_of_mem_getLast? last).trans endKw⟩

/-- The rest of a piece is within this piece. -/
theorem uncut_rest {before : TokenKind} {ts us : List Token} (nonempty : ts ≠ [])
    (chain : (ts ++ us).IsChain fun t u => joined t u) : Uncut (lastKind before ts) us := by
  obtain ⟨front, t, rfl⟩ : ∃ front t, ts = front ++ [t] :=
    ⟨_, _, (List.dropLast_append_getLast nonempty).symm⟩
  rw [lastKind_append]
  exact uncut_of_isChain (chain.suffix ⟨front, by rw [List.append_assoc]; rfl⟩)

/-- The parser moves on to the border behind the piece. -/
theorem skipToFunction_of_uncut {n : Nat} {p q : Parser} {ts : List Token} (small : p.size ≤ n)
    (pass : p.Passes ts q) (notEnd : ∀ t ∈ ts, t.kind ≠ .eof) (uncut : Uncut p.previous ts)
    (border : q.AtBorder) : skipToFunction n p = q := by
  induction ts generalizing n p with
  | nil =>
    obtain rfl : q = p := pass
    exact skipToFunction_of_atBorder n border
  | cons t ts ih =>
    obtain ⟨rfl, pass⟩ := pass
    obtain ⟨here, others⟩ := List.forall_mem_cons.mp notEnd
    obtain ⟨first, rest⟩ := uncut
    have shorter := size_step_lt here
    cases n with
    | zero => omega
    | succ n =>
      have goesOn := not_or.mpr ⟨here, first⟩
      rw [skipToFunction, if_neg goesOn]
      exact ih (by omega) pass others rest

theorem recover_of_uncut {p : Parser} {ts us : List Token} {b : Token} (scanned : p.Scanned)
    (front : p.ahead = ts ++ b :: us) (notEnd : ∀ t ∈ ts, t.kind ≠ .eof)
    (uncut : Uncut p.previous ts)
    (border : b.kind = .eof ∨
      (b.kind = .keyword .letKw ∧ lastKind p.previous ts = .keyword .endKw)) :
    p.recover.ahead = b :: us := by
  obtain ⟨q, pass, rest⟩ := passes_of_ahead scanned front (List.cons_ne_nil b us)
  have here := current_of_ahead rest
  have atBorder : q.AtBorder := by
    unfold AtBorder
    rwa [here, pass.previous]
  rw [recover, skipToFunction_of_uncut (Nat.le_refl _) pass notEnd uncut atBorder, rest]

/-! ## Rounds within a piece -/

/-- The rounds that are left at a border: none at the end of the text. -/
inductive Continues (n : Nat) : Parser → List Function → List Diagnostic → Parser → Prop where
  | done {p} (atEnd : p.current.kind = .eof) : Continues n p [] [] p
  | rounds {p fs ds q} (notEnd : p.current.kind ≠ .eof) (rest : Rounds n p fs ds q) :
      Continues n p fs ds q

theorem Rounds.first {n : Nat} {p q : Parser} {fs : List Function} {ds : List Diagnostic}
    (rounds : Rounds n p fs ds q) :
    ∃ gs es r gs' es', Round n p gs es r ∧ Continues n r gs' es' q ∧ fs = gs ++ gs'
      ∧ ds = es ++ es' := by
  cases rounds with
  | last round atEnd =>
    exact ⟨fs, ds, q, [], [], round, .done atEnd, (List.append_nil _).symm,
      (List.append_nil _).symm⟩
  | more round notEnd rest => exact ⟨_, _, _, _, _, round, .rounds notEnd rest, rfl, rfl⟩

theorem rounds_of_read {n : Nat} {p q r : Parser} {f : Function} {fs : List Function}
    {ds : List Diagnostic} (read : function n p = .ok f r) (rounds : Rounds n p fs ds q) :
    ∃ gs, fs = f :: gs ∧ Continues n r gs ds q := by
  obtain ⟨gs, es, r', gs', es', round, rest, rfl, rfl⟩ := rounds.first
  cases round with
  | read result =>
    cases read.symm.trans result
    exact ⟨gs', rfl, rest⟩
  | skipped result => cases read.symm.trans result

theorem rounds_of_failed {n : Nat} {p q r : Parser} {d : Diagnostic} {fs : List Function}
    {ds : List Diagnostic} (stopped : function n p = .error (.failed d) r)
    (rounds : Rounds n p fs ds q) :
    ∃ es, ds = d :: es ∧ Continues n (r.note d).recover fs es q := by
  obtain ⟨gs, es, r', gs', es', round, rest, rfl, rfl⟩ := rounds.first
  cases round with
  | read result => cases stopped.symm.trans result
  | skipped result =>
    cases stopped.symm.trans result
    exact ⟨es', rfl, rest⟩

/-- What is left of the rounds at the border behind a piece. -/
def RestAt (n : Nat) (b : Token) (after : List Token) (fs : List Function) (ds : List Diagnostic)
    (q : Parser) : Prop :=
  ∃ r, Ready n r ∧ r.ahead = b :: after ∧ Continues n r fs ds q

theorem RestAt.of_eof {n : Nat} {b : Token} {after : List Token} {fs : List Function}
    {ds : List Diagnostic} {q : Parser} (h : RestAt n b after fs ds q) (atEnd : b.kind = .eof) :
    fs = [] ∧ ds = [] := by
  obtain ⟨r, _, front, continues⟩ := h
  cases continues with
  | done => exact ⟨rfl, rfl⟩
  | rounds notEnd _ =>
    rw [current_of_ahead front] at notEnd
    exact absurd atEnd notEnd

theorem RestAt.of_ne_eof {n : Nat} {b : Token} {after : List Token} {fs : List Function}
    {ds : List Diagnostic} {q : Parser} (h : RestAt n b after fs ds q) (notEnd : b.kind ≠ .eof) :
    ∃ r, Ready n r ∧ r.ahead = b :: after ∧ Rounds n r fs ds q := by
  obtain ⟨r, ready, front, continues⟩ := h
  cases continues with
  | done atEnd =>
    rw [current_of_ahead front] at atEnd
    exact absurd atEnd notEnd
  | rounds _ rest => exact ⟨r, ready, front, rest⟩

/-- A function that is a whole piece is read, without a fault. -/
theorem rounds_of_function {n : Nat} {p q : Parser} {piece after : List Token} {b : Token}
    {f : Function} {fs : List Function} {ds : List Diagnostic}
    (function : Grammar.Function piece f) (ready : Ready n p)
    (front : p.ahead = piece ++ b :: after) (rounds : Rounds n p fs ds q) :
    ∃ gs, fs = f :: gs ∧ RestAt n b after gs ds q := by
  obtain ⟨r, pass, rest⟩ := passes_of_ahead ready.scanned front (List.cons_ne_nil b after)
  obtain ⟨gs, rfl, continues⟩ := rounds_of_read (read_function function ready.small pass) rounds
  exact ⟨gs, rfl, r, ready.passes pass, rest, continues⟩

/-! ## Faults of pieces -/

theorem scanned_of_tokens {ts : List Token} (lexed : ∀ t ∈ ts, t.kind ≠ .eof ∧ t.Lexed)
    (endPos : Position) : (ofResults (ts.map .ok) endPos).Scanned := by
  refine ⟨fun t mem => ?_, fun d mem => ?_⟩
  · obtain ⟨u, mem, same⟩ := List.mem_map.mp mem
    cases same
    exact lexed t mem
  · obtain ⟨u, _, same⟩ := List.mem_map.mp mem
    cases same

theorem ahead_of_tokens {ts : List Token} (lexed : ∀ t ∈ ts, t.kind ≠ .eof ∧ t.Lexed)
    (endPos : Position) :
    (ofResults (ts.map .ok) endPos).step.ahead = ts ++ [.endOfText endPos] := by
  rw [ahead_step (scanned_of_tokens lexed endPos)]
  exact congrArg (· ++ _) (Lexical.tokens_map_ok ts)

/-- A function is read with only a piece ahead: it takes the tokens `ts` and leaves `us`. -/
structure PieceRun (m : Nat) (a : Parser) (ts us : List Token) (v : Verdict Function)
    (a' : Parser) (e : Token) : Prop where
  run : FunctionRun m a ts v a'
  whole : a.ahead = ts ++ us ++ [e]
  rest : a'.ahead = us ++ [e]
  isEnd : e.kind = .eof
  chain : (ts ++ us).IsChain fun t u => joined t u
  notEnd : ∀ t ∈ us, t.kind ≠ .eof

theorem exists_pieceRun {piece : List Token} (chain : piece.IsChain fun t u => joined t u)
    (lexed : ∀ t ∈ piece, t.kind ≠ .eof ∧ t.Lexed) :
    ∃ m a ts us v a' e, piece = ts ++ us ∧ PieceRun m a ts us v a' e := by
  have scanned := scanned_of_tokens lexed .start
  have whole := ahead_of_tokens lexed .start
  obtain ⟨ts, v, a', run⟩ := exists_functionRun scanned.lexed_step (Nat.le_refl _)
  have both := whole.symm.trans (run.pass.ahead_eq scanned.step run.notEnd)
  -- the end of the text is not among the tokens taken
  obtain ⟨us, rfl, rest⟩ : ∃ us, piece = ts ++ us ∧ a'.ahead = us ++ [.endOfText .start] := by
    rcases List.append_eq_append_iff.mp both with ⟨us, rfl, split⟩ | ⟨us, rfl, split⟩
    · obtain ⟨rfl, _⟩ | ⟨_, same⟩ := List.append_eq_singleton_iff.mp split.symm
      · exact ⟨[], by simp, split.symm⟩
      · exact absurd same (List.cons_ne_nil _ _)
    · exact ⟨us, rfl, split⟩
  exact ⟨_, _, ts, us, v, a', _, rfl, run, whole, rest, rfl, chain, fun t mem =>
    (lexed t (List.mem_append_right ts mem)).1⟩

section Pieces

variable {m n : Nat} {a a' p q : Parser} {ts us after : List Token} {e b : Token}
  {fs : List Function} {ds : List Diagnostic}

/-- What a function comes to on a piece alone, it comes to with anything behind the piece. -/
theorem PieceRun.replay {v : Verdict Function} (alone : PieceRun m a ts us v a' e)
    (ready : Ready n p) (front : p.ahead = ts ++ us ++ b :: after) (closes : Closes (ts ++ us) b) :
    ∃ p', p.Passes ts p' ∧ p'.ahead = us ++ b :: after ∧ function n p = v.result p' := by
  obtain ⟨run, whole, restAlone, isEnd, _, _⟩ := alone
  rw [List.append_assoc] at front whole
  obtain ⟨p', pass, rest⟩ := passes_of_ahead ready.scanned front (by simp)
  have alike : Alike a' p' := by
    cases us with
    | nil =>
      have border := border_of_closes closes p.previous
      rw [List.append_nil, ← pass.previous, ← current_of_ahead rest] at border
      exact Or.inr ⟨Or.inl (by rw [current_of_ahead restAlone, isEnd]), border⟩
    | cons u us => exact Or.inl (by rw [current_of_ahead restAlone, current_of_ahead rest])
  refine ⟨p', pass, rest, run.again ready.small pass (fun _ => alike) fun nothing => ?_⟩
  obtain ⟨notLet, _⟩ := run.nothing nothing
  rw [nothing] at front whole closes
  cases us with
  | nil =>
    rcases closes with atEnd | ⟨_, _, last, _⟩
    · rw [current_of_ahead front, atEnd]
      decide
    · cases last
  | cons u us => rwa [current_of_ahead front, ← current_of_ahead whole]

/-- Behind the tokens that a function takes, the rest of the piece is within the piece. -/
theorem PieceRun.uncut {v : Verdict Function} (alone : PieceRun m a ts us v a' e)
    (before : TokenKind) : Uncut (lastKind before ts) us := by
  obtain ⟨run, whole, _, _, chain, _⟩ := alone
  by_cases nothing : ts = []
  · obtain ⟨notLet, _⟩ := run.nothing nothing
    rw [nothing] at whole chain ⊢
    cases us with
    | nil => trivial
    | cons u us =>
      rw [current_of_ahead whole] at notLet
      exact ⟨fun both => notLet both.1, uncut_of_isChain chain⟩
  · exact uncut_rest nothing chain

/-- From the rest of a piece, the parser moves on to the border behind it. -/
theorem PieceRun.rounds_of_fault {v : Verdict Function} {d : Diagnostic} {p' : Parser}
    (alone : PieceRun m a ts us v a' e) (ready : Ready n p') (pass : p.Passes ts p')
    (front : p'.ahead = us ++ b :: after) (closes : Closes (ts ++ us) b) {r : Parser}
    (stopped : function n r = .error (.failed d) p') (rounds : Rounds n r fs ds q) :
    ∃ es, ds = d :: es ∧ RestAt n b after fs es q := by
  have uncut := alone.uncut p.previous
  have border := border_of_closes closes p.previous
  rw [lastKind_append] at border
  rw [← pass.previous] at uncut border
  obtain ⟨es, rfl, continues⟩ := rounds_of_failed stopped rounds
  have noted : Ready n (p'.note d) := ready.note d
  obtain ⟨_, skip, _⟩ := (p'.note d).recover_passes
  exact ⟨es, rfl, _, noted.passes skip,
    recover_of_uncut noted.scanned front alone.notEnd uncut border, continues⟩

/-- A function that breaks off leaves one fault for the piece. -/
theorem PieceRun.broken {v : Verdict Function} {d : Parser → Diagnostic}
    (alone : PieceRun m a ts us v a' e) (fails : ∀ r, v.result r = .error (.failed (d r)) r)
    (ready : Ready n p) (front : p.ahead = ts ++ us ++ b :: after) (closes : Closes (ts ++ us) b)
    (rounds : Rounds n p fs ds q) :
    ∃ p' es, p'.ahead = us ++ b :: after ∧ ds = d p' :: es ∧ RestAt n b after fs es q := by
  obtain ⟨p', pass, rest, result⟩ := alone.replay ready front closes
  obtain ⟨es, rfl, restAt⟩ := alone.rounds_of_fault (ready.passes pass) pass rest closes
    (result.trans (fails p')) rounds
  exact ⟨p', es, rest, rfl, restAt⟩

/-- What stands behind a whole function in a piece is one fault, at its first token. -/
theorem PieceRun.rubbish {f : Function} {u : Token} {us : List Token}
    (alone : PieceRun m a ts (u :: us) (.tree f) a' e) (ready : Ready n p)
    (front : p.ahead = ts ++ u :: us ++ b :: after) (closes : Closes (ts ++ u :: us) b)
    (rounds : Rounds n p fs ds q) :
    ∃ gs es, ds = ⟨u.pos, .unexpectedToken u.text (TokenKind.keyword .letKw).text⟩ :: es
      ∧ RestAt n b after gs es q := by
  obtain ⟨p', pass, rest, result⟩ := alone.replay ready front closes
  have here : p'.current = u := current_of_ahead rest
  obtain ⟨gs, rfl, continues⟩ := rounds_of_read result rounds
  have notLet : u.kind ≠ .keyword .letKw := fun letKw =>
    (alone.uncut p.previous).1 ⟨letKw, lastKind_function alone.run.holds⟩
  have stopped : function n p' = .error (.failed
      ⟨u.pos, .unexpectedToken u.text (TokenKind.keyword .letKw).text⟩) p' := by
    rw [function_apply, here, if_neg notLet]
  cases continues with
  | done atEnd => exact absurd (here ▸ atEnd) (alone.notEnd u List.mem_cons_self)
  | rounds _ more =>
    exact ⟨gs, alone.rounds_of_fault (ready.passes pass) pass rest closes stopped more⟩

end Pieces

/-- A piece that is no function brings exactly one fault, whatever is behind it. -/
theorem exists_report {piece : List Token} (chain : piece.IsChain fun t u => joined t u)
    (lexed : ∀ t ∈ piece, t.kind ≠ .eof ∧ t.Lexed) (bad : ¬∃ f, Grammar.Function piece f) :
    ∃ report, Report piece report ∧
      ∀ {n : Nat} {p q : Parser} {after : List Token} {b : Token} {fs : List Function}
        {ds : List Diagnostic}, Ready n p → p.ahead = piece ++ b :: after → Closes piece b →
        Rounds n p fs ds q → ∃ gs es, ds = report b :: es ∧ RestAt n b after gs es q := by
  obtain ⟨m, a, ts, us, v, a', e, rfl, alone⟩ := exists_pieceRun chain lexed
  cases v with
  | tree f =>
    cases us with
    | nil =>
      have function : Grammar.Function ts f := alone.run.holds
      exact absurd ⟨f, by rwa [List.append_nil]⟩ bad
    | cons u us =>
      exact ⟨_, .inside (t := u) (by simp) (.unsuited (.kind (.keyword .letKw))),
        fun ready front closes rounds => alone.rubbish ready front closes rounds⟩
  | stuck w =>
    cases us with
    | nil =>
      refine ⟨_, .behind w, fun ready front closes rounds => ?_⟩
      obtain ⟨p', es, rest, rfl, restAt⟩ := alone.broken (fun _ => rfl) ready front closes rounds
      exact ⟨_, es, by rw [current_of_ahead rest], restAt⟩
    | cons u us =>
      refine ⟨_, .inside (t := u) (d := ⟨u.pos, w.cause u.text⟩) (by simp) (.unsuited w),
        fun ready front closes rounds => ?_⟩
      obtain ⟨p', es, rest, rfl, restAt⟩ := alone.broken (fun _ => rfl) ready front closes rounds
      exact ⟨_, es, by rw [current_of_ahead rest], restAt⟩
  | overflow t =>
    obtain ⟨integer, vs, rfl, _⟩ := alone.run.holds
    refine ⟨_, .inside (t := t) (by simp) (.overflow integer),
      fun ready front closes rounds => ?_⟩
    obtain ⟨p', es, _, rfl, restAt⟩ := alone.broken (fun _ => rfl) ready front closes rounds
    exact ⟨_, es, rfl, restAt⟩

end Parser

end LoopLang
