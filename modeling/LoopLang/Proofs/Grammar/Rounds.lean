import LoopLang.Proofs.Grammar.Acceptance
import LoopLang.Proofs.Grammar.Decisions
import LoopLang.Proofs.Parser.Ahead

set_option autoImplicit false

/-! # The loop over functions, round by round

A round of the loop reads a function or notes what is wrong with it and moves on. `Parser.Rounds`
lists the functions and the faults of all rounds in their order. The faults of later rounds stand
behind those of earlier ones. So where the tokens are listed by place, a report lists the faults in
this order too, whatever lexical faults are among them. -/

namespace LoopLang

/-! ## Reports -/

namespace Diagnostic

theorem insertByPlace_of_front {d : Diagnostic} {ds : List Diagnostic}
    (front : ∀ e ∈ ds, d.pos.notAfter e.pos = true) : insertByPlace d ds = d :: ds := by
  cases ds with
  | nil => rfl
  | cons e es => exact if_pos (front e List.mem_cons_self)

theorem insertByPlace_filter (keep : Diagnostic → Bool) (d : Diagnostic) {ds : List Diagnostic}
    (sorted : ds.Pairwise fun d e => d.pos.notAfter e.pos) :
    (insertByPlace d ds).filter keep =
      if keep d then insertByPlace d (ds.filter keep) else ds.filter keep := by
  induction ds with
  | nil => exact List.filter_cons
  | cons e es ih =>
    obtain ⟨first, later⟩ := List.pairwise_cons.mp sorted
    by_cases before : d.pos.notAfter e.pos = true
    · have front : ∀ f ∈ e :: es, d.pos.notAfter f.pos = true := List.forall_mem_cons.mpr
        ⟨before, fun f mem => Position.notAfter_trans before (first f mem)⟩
      have kept : ∀ f ∈ (e :: es).filter keep, d.pos.notAfter f.pos = true :=
        fun f mem => front f (List.mem_filter.mp mem).1
      rw [insertByPlace_of_front front, insertByPlace_of_front kept, List.filter_cons]
    · rw [insertByPlace, if_neg before, List.filter_cons, ih later, List.filter_cons]
      cases keep d <;> cases keep e <;> simp [insertByPlace, before]

/-- Leaving diagnostics out does not change the order of the others. -/
theorem inOrder_filter (keep : Diagnostic → Bool) (ds : List Diagnostic) :
    (inOrder ds).filter keep = inOrder (ds.filter keep) := by
  induction ds with
  | nil => rfl
  | cons d ds ih =>
    have sorted := inOrder_pairwise ds
    show (insertByPlace d (inOrder ds)).filter keep = _
    rw [insertByPlace_filter keep d sorted, ih, List.filter_cons]
    split <;> rfl

/-- Diagnostics that are noted by place are reported as they were noted. -/
theorem inOrder_of_pairwise {ds : List Diagnostic}
    (sorted : ds.Pairwise fun d e => d.pos.notAfter e.pos) : inOrder ds = ds := by
  induction ds with
  | nil => rfl
  | cons d ds ih =>
    obtain ⟨first, later⟩ := List.pairwise_cons.mp sorted
    show insertByPlace d (inOrder ds) = _
    rw [ih later, insertByPlace_of_front first]

end Diagnostic

/-- What a parse has to say against the grammar: the diagnostics reported, but for lexical ones. -/
def syntaxErrors {α : Type} : Except (List Diagnostic) α → List Diagnostic
  | .ok _ => []
  | .error ds => ds.filter fun d => !d.cause.isLexical

namespace Parser

theorem syntaxErrors_report {α : Type} (p : Parser) :
    syntaxErrors (.error p.report : Except (List Diagnostic) α) =
      Diagnostic.inOrder p.faults.reverse := by
  show p.report.filter _ = _
  rw [report, Diagnostic.inOrder_filter, List.filter_reverse]
  rfl

theorem syntaxErrors_conclude {α : Type} (p : Parser) (tree : α) :
    syntaxErrors (p.conclude tree).1 = Diagnostic.inOrder p.faults.reverse := by
  rw [← syntaxErrors_report (α := α)]
  unfold conclude report
  cases p.noted with
  | nil => rfl
  | cons d ds => rfl

/-! ## Rounds -/

/-- One round of the loop: the function read, or the fault noted in its place. -/
inductive Round (n : Nat) (p : Parser) : List Function → List Diagnostic → Parser → Prop where
  | read {f q} (result : function n p = .ok f q) : Round n p [f] [] q
  | skipped {d q} (result : function n p = .error (.failed d) q) :
      Round n p [] [d] (q.note d).recover

/-- All rounds up to the end of the text. -/
inductive Rounds (n : Nat) : Parser → List Function → List Diagnostic → Parser → Prop where
  | last {p fs ds q} (round : Round n p fs ds q) (atEnd : q.current.kind = .eof) :
      Rounds n p fs ds q
  | more {p fs ds q gs es r} (round : Round n p fs ds q) (notEnd : q.current.kind ≠ .eof)
      (rest : Rounds n q gs es r) : Rounds n p (fs ++ gs) (ds ++ es) r

theorem exists_round {n : Nat} {p q : Parser} {found : Option Function}
    (h : functionOrSkip n p = .ok found q) : ∃ ds, Round n p found.toList ds q := by
  unfold functionOrSkip at h
  split at h
  · next f r read =>
    cases h
    exact ⟨[], .read read⟩
  · next d r stopped =>
    cases h
    exact ⟨[d], .skipped stopped⟩
  · cases h

theorem exists_rounds {n rounds : Nat} {p q : Parser} {fs : List Function}
    (h : functions n rounds p = .ok fs q) : ∃ ds, Rounds n p fs ds q := by
  induction rounds generalizing p fs with
  | zero => cases h
  | succ rounds ih =>
    obtain ⟨found, r, first, rest⟩ := functions_eq_ok h
    obtain ⟨ds, round⟩ := exists_round first
    rcases rest with ⟨atEnd, rfl, rfl⟩ | ⟨others, notEnd, more, rfl⟩
    · exact ⟨ds, .last round atEnd⟩
    · obtain ⟨es, rest⟩ := ih more
      exact ⟨ds ++ es, .more round notEnd rest⟩

/-! ## What a round does -/

/-- A parser in the middle of a text, with enough steps. At the end of the text nothing is left. -/
structure Ready (n : Nat) (p : Parser) : Prop where
  scanned : p.Scanned
  lexed : p.Lexed
  small : p.size ≤ n
  settled : p.current.kind = .eof → p.pending = []

theorem Ready.passes {n : Nat} {p q : Parser} {ts : List Token} (ready : Ready n p)
    (pass : p.Passes ts q) : Ready n q := by
  induction ts generalizing p with
  | nil =>
    obtain rfl : q = p := pass
    exact ready
  | cons t ts ih =>
    have scanned := ready.scanned
    exact ih ⟨scanned.step, scanned.lexed_step, Nat.le_trans p.size_step_le ready.small,
      scanned.pending_step⟩ pass.2

theorem Scanned.ready {p : Parser} (scanned : p.Scanned) : Ready (p.step.size + 1) p.step :=
  ⟨scanned.step, scanned.lexed_step, Nat.le_succ _, scanned.pending_step⟩

/-- Moving on takes tokens. -/
theorem recover_passes (p : Parser) :
    ∃ ts, p.Passes ts p.recover ∧ ∀ t ∈ ts, t.kind ≠ .eof := by
  unfold recover
  generalize p.size = n
  induction n generalizing p with
  | zero => exact ⟨[], rfl, List.forall_mem_nil _⟩
  | succ n ih =>
    unfold skipToFunction
    split
    · exact ⟨[], rfl, List.forall_mem_nil _⟩
    · next goesOn =>
      obtain ⟨ts, pass, notEnd⟩ := ih p.step
      exact ⟨p.current :: ts, ⟨rfl, pass⟩,
        List.forall_mem_cons.mpr ⟨fun here => goesOn (Or.inl here), notEnd⟩⟩

theorem Verdict.failed {α : Type} {v : Verdict α} {p q : Parser} {d : Diagnostic}
    (h : v.result p = .error (.failed d) q) :
    q = p ∧ ((∃ w, v = .stuck w ∧ d = ⟨p.current.pos, w.cause p.current.text⟩)
      ∨ ∃ t, v = .overflow t ∧ d = ⟨t.pos, .literalOutOfRange t.literal⟩) := by
  cases v with
  | tree a => cases h
  | stuck w =>
    cases h
    exact ⟨rfl, Or.inl ⟨w, rfl, rfl⟩⟩
  | overflow t =>
    cases h
    exact ⟨rfl, Or.inr ⟨t, rfl, rfl⟩⟩

theorem Wanted.cause_isLexical (w : Wanted) (found : String) :
    (w.cause found).isLexical = false := by
  cases w <;> rfl

/-- The diagnostic is about the token: it is not what is wanted in its place, or it is an integer
that is out of range. -/
inductive FaultAt (t : Token) : Diagnostic → Prop where
  | unsuited (w : Wanted) : FaultAt t ⟨t.pos, w.cause t.text⟩
  | overflow (integer : t.kind = .integer) : FaultAt t ⟨t.pos, .literalOutOfRange t.literal⟩

theorem FaultAt.pos_eq {t : Token} {d : Diagnostic} (fault : FaultAt t d) : d.pos = t.pos := by
  cases fault <;> rfl

theorem FaultAt.isLexical {t : Token} {d : Diagnostic} (fault : FaultAt t d) :
    d.cause.isLexical = false := by
  cases fault with
  | unsuited w => exact w.cause_isLexical _
  | overflow => rfl

/-- A verdict that is no tree is a fault at a token ahead. -/
theorem Verdict.faultAt {α : Type} {v : Verdict α} {p q r : Parser} {ts : List Token}
    {d : Diagnostic} {post : List Token → α → Parser → Prop} {starts : List Token → Prop}
    (front : p.ahead = ts ++ q.ahead) (holds : v.Holds post starts ts q)
    (failed : v.result q = .error (.failed d) r) : ∃ t ∈ p.ahead, FaultAt t d := by
  rw [front]
  obtain ⟨_, ⟨w, rfl, rfl⟩ | ⟨t, rfl, rfl⟩⟩ := Verdict.failed failed
  · exact ⟨q.current, List.mem_append_right _ List.mem_cons_self, .unsuited w⟩
  · obtain ⟨integer, us, rfl, _⟩ := holds
    exact ⟨t, by simp, .overflow integer⟩

/-- The tokens ahead at which a fault can stand: none stands at a `let` that begins a function. -/
def suspects (p : Parser) : List Token :=
  if p.current.kind = .keyword .letKw then p.ahead.tail else p.ahead

theorem suspects_suffix (p : Parser) : p.suspects <:+ p.ahead := by
  unfold suspects
  split
  · exact List.tail_suffix _
  · exact List.suffix_refl _

/-- Tokens that were taken are no longer suspect, and a `let` was not before. -/
theorem Passes.suspects_suffix {p q : Parser} {ts : List Token} (pass : p.Passes ts q)
    (scanned : p.Scanned) (notEnd : ∀ t ∈ ts, t.kind ≠ .eof) : q.suspects <:+ p.suspects := by
  cases ts with
  | nil =>
    obtain rfl : q = p := pass
    exact List.suffix_refl _
  | cons t ts =>
    have rest : q.ahead <:+ p.ahead.tail := by
      rw [pass.ahead_eq scanned notEnd]
      exact List.suffix_append ts _
    refine q.suspects_suffix.trans (rest.trans ?_)
    unfold suspects
    split
    · exact List.suffix_refl _
    · exact List.tail_suffix _

/-- Behind tokens that were taken stand suspects, and so they do in front of anything but a
`let`. -/
theorem suspects_of_ahead {p : Parser} {ts us : List Token} (front : p.ahead = ts ++ us)
    (first : ts = [] → p.current.kind ≠ .keyword .letKw) : ∃ before, p.suspects = before ++ us := by
  unfold suspects
  split
  · next letKw =>
    cases ts with
    | nil => exact absurd letKw (first rfl)
    | cons t ts => exact ⟨ts, congrArg List.tail front⟩
  · exact ⟨ts, front⟩

/-- A fault stands at a suspect, not behind what is read next. -/
theorem function_failed {n : Nat} {p q : Parser} {d : Diagnostic} (ready : Ready n p)
    (stopped : function n p = .error (.failed d) q) :
    ∃ ts, p.Passes ts q ∧ (∀ t ∈ ts, t.kind ≠ .eof) ∧
      ∃ before t after, p.suspects = before ++ t :: after ∧ FaultAt t d
        ∧ q.ahead <:+ t :: after := by
  obtain ⟨ts, v, p', run⟩ := exists_functionRun ready.lexed ready.small
  have front := run.pass.ahead_eq ready.scanned run.notEnd
  have holds := run.holds
  obtain ⟨rfl, ⟨w, rfl, rfl⟩ | ⟨t, rfl, rfl⟩⟩ := Verdict.failed (run.result.symm.trans stopped)
  · obtain ⟨before, split⟩ := suspects_of_ahead front fun nothing => (run.nothing nothing).1
    exact ⟨ts, run.pass, run.notEnd, before, q.current, _, split, .unsuited w,
      List.suffix_refl _⟩
  · obtain ⟨integer, us, rfl, _⟩ := holds
    rw [List.append_assoc] at front
    obtain ⟨before, split⟩ := suspects_of_ahead front fun nothing letKw => by
      -- the literal would be the `let` itself
      subst nothing
      rw [run.pass.1, integer] at letKw
      cases letKw
    exact ⟨us ++ [t], run.pass, run.notEnd, before, t, q.ahead, split, .overflow integer,
      List.suffix_cons _ _⟩

theorem skipToFunction_of_atBorder (n : Nat) {p : Parser} (border : p.AtBorder) :
    skipToFunction n p = p := by
  cases n with
  | zero => rfl
  | succ n => exact if_pos border

theorem skipToFunction_atBorder {n : Nat} {p : Parser} (enough : p.size ≤ n) :
    (skipToFunction n p).AtBorder := by
  induction n generalizing p with
  | zero =>
    show p.AtBorder
    refine Or.inl (Classical.byContradiction fun notEnd => ?_)
    have shorter := size_step_lt notEnd
    omega
  | succ n ih =>
    unfold skipToFunction
    split
    · next border => exact border
    · next goesOn =>
      have shorter := size_step_lt fun atEnd => goesOn (Or.inl atEnd)
      exact ih (by omega)

/-- Moving on ends at a border. -/
theorem recover_atBorder (p : Parser) : p.recover.AtBorder :=
  skipToFunction_atBorder (Nat.le_refl _)

theorem Ready.note {n : Nat} {p : Parser} (ready : Ready n p) (d : Diagnostic) :
    Ready n (p.note d) :=
  ⟨⟨ready.scanned.tokens, ready.scanned.faults⟩, ready.lexed, ready.small, ready.settled⟩

theorem faults_note {p : Parser} {d : Diagnostic} (syntactic : d.cause.isLexical = false) :
    (p.note d).faults = d :: p.faults :=
  List.filter_cons_of_pos (by rw [syntactic]; rfl)

theorem told_note_perm (p : Parser) (d : Diagnostic) : (p.note d).told.Perm (d :: p.told) := by
  rw [told, note, List.reverse_cons, List.append_assoc]
  exact List.perm_middle

/-- A round goes on to what is ahead then. Its fault stands at a suspect, and unless the text ends
there, what is suspect afterwards stands behind the fault. -/
theorem Round.spec {n : Nat} {p q : Parser} {fs : List Function} {ds : List Diagnostic}
    (ready : Ready n p) (round : Round n p fs ds q) :
    Ready n q ∧ q.suspects <:+ p.suspects ∧ q.faults = ds.reverse ++ p.faults
      ∧ q.told.Perm (ds ++ p.told) ∧ (ds.Pairwise fun d e => d.pos.Before e.pos)
      ∧ ∀ d ∈ ds, ∃ before t after, p.suspects = before ++ t :: after ∧ FaultAt t d
          ∧ (q.current.kind ≠ .eof → q.suspects <:+ after) := by
  cases round with
  | read result =>
    obtain ⟨ts, pass, notEnd, _⟩ := (yields_function n p ready.lexed).of_ok result
    exact ⟨ready.passes pass, pass.suspects_suffix ready.scanned notEnd,
      pass.faults_eq ready.scanned, .of_eq pass.told_eq, .nil, List.forall_mem_nil _⟩
  | @skipped d q result =>
    obtain ⟨ts, pass, notEnd, before, t, after, front, fault, behind⟩ :=
      function_failed ready result
    obtain ⟨us, skip, notEnd'⟩ := (q.note d).recover_passes
    have ready' := (ready.passes pass).note d
    have rest : (q.note d).recover.ahead <:+ t :: after :=
      List.IsSuffix.trans ⟨us, (skip.ahead_eq ready'.scanned notEnd').symm⟩ behind
    refine ⟨ready'.passes skip, (skip.suspects_suffix ready'.scanned notEnd').trans
      (pass.suspects_suffix ready.scanned notEnd), ?_, ?_, List.pairwise_singleton _ _,
      List.forall_mem_singleton.mpr ⟨before, t, after, front, fault, fun goesOn => ?_⟩⟩
    · rw [skip.faults_eq ready'.scanned, faults_note fault.isLexical, pass.faults_eq ready.scanned]
      rfl
    · rw [skip.told_eq, ← pass.told_eq]
      exact told_note_perm q d
    · -- the parser has moved on to a `let`, which is not suspect
      have letKw := ((q.note d).recover_atBorder.resolve_left goesOn).1
      rw [suspects, if_pos letKw]
      rcases List.suffix_cons_iff.mp rest with same | later
      · rw [same]
        exact List.suffix_refl _
      · exact (List.tail_suffix _).trans later

/-- What the rounds note are their faults, each at a token, and the lexical faults of the text. -/
theorem Rounds.notes {n : Nat} {p q : Parser} {fs : List Function} {ds : List Diagnostic}
    (rounds : Rounds n p fs ds q) (ready : Ready n p) :
    q.faults = ds.reverse ++ p.faults ∧ q.noted.reverse.Perm (ds ++ p.told)
      ∧ ∀ d ∈ ds, ∃ t ∈ p.suspects, FaultAt t d := by
  induction rounds with
  | @last p fs ds q round atEnd =>
    obtain ⟨ready', _, noted, told, _, places⟩ := round.spec ready
    have all : q.told = q.noted.reverse := by
      rw [Parser.told, ready'.settled atEnd]
      exact List.append_nil _
    refine ⟨noted, all ▸ told, fun d mem => ?_⟩
    obtain ⟨before, t, after, front, fault, _⟩ := places d mem
    exact ⟨t, by simp [front], fault⟩
  | @more p fs ds q gs es r round notEnd rest ih =>
    obtain ⟨ready', suffix, noted, told, _, places⟩ := round.spec ready
    obtain ⟨noted', told', places'⟩ := ih ready'
    refine ⟨by rw [noted', noted, List.reverse_append, List.append_assoc], ?_, fun d mem => ?_⟩
    · refine told'.trans ((told.append_left es).trans ?_)
      rw [← List.append_assoc]
      exact List.perm_append_comm.append_right _
    · rcases List.mem_append.mp mem with mem | mem
      · obtain ⟨before, t, after, front, fault, _⟩ := places d mem
        exact ⟨t, by simp [front], fault⟩
      · obtain ⟨t, memt, fault⟩ := places' d mem
        exact ⟨t, suffix.subset memt, fault⟩

/-- Where the tokens are listed by place, so are the faults, and no two stand at one place. -/
theorem Rounds.strict {n : Nat} {p q : Parser} {fs : List Function} {ds : List Diagnostic}
    (rounds : Rounds n p fs ds q) (ready : Ready n p)
    (sorted : p.suspects.Pairwise fun t u => t.pos.Before u.pos) :
    ds.Pairwise fun d e => d.pos.Before e.pos := by
  induction rounds with
  | last round _ =>
    obtain ⟨_, _, _, _, order, _⟩ := round.spec ready
    exact order
  | more round notEnd rest ih =>
    obtain ⟨ready', suffix, _, _, order, places⟩ := round.spec ready
    refine List.pairwise_append.mpr
      ⟨order, ih ready' (sorted.sublist suffix.sublist), fun d memd e meme => ?_⟩
    -- the later fault stands at a token that was suspect behind the earlier one
    obtain ⟨before, t, after, front, fault, behind⟩ := places d memd
    obtain ⟨u, memu, fault'⟩ := (rest.notes ready').2.2 e meme
    rw [front] at sorted
    obtain ⟨first, _⟩ := List.pairwise_cons.mp (List.pairwise_append.mp sorted).2.1
    rw [fault.pos_eq, fault'.pos_eq]
    exact first u ((behind notEnd).subset memu)

/-! ## Programs -/

/-- A parse of a program goes through all rounds and then reports what was noted. -/
theorem exists_rounds_parseProgram (p : Parser) :
    ∃ fs ds q, Rounds (p.step.size + 1) p.step fs ds q
      ∧ p.parseProgram.1 = (q.conclude ⟨fs⟩).1 := by
  obtain ⟨fs, q, read⟩ := p.exists_functions
  obtain ⟨ds, rounds⟩ := exists_rounds read
  exact ⟨fs, ds, q, rounds, congrArg Prod.fst (parseProgram_of_ok read)⟩

/-- The faults that a parse of a program reports are those of its rounds, and in their order too
where the tokens are listed by place. -/
theorem rounds_of_parseProgram {p : Parser} (scanned : p.Scanned) (fresh : p.faults = []) :
    ∃ fs ds q, Rounds (p.step.size + 1) p.step fs ds q
      ∧ (syntaxErrors p.parseProgram.1).Perm ds
      ∧ (p.step.ahead.Pairwise (fun t u => t.pos.Before u.pos) →
          syntaxErrors p.parseProgram.1 = ds)
      ∧ ∀ program, p.parseProgram.1 = .ok program → program.functions = fs := by
  obtain ⟨fs, ds, q, rounds, parsed⟩ := p.exists_rounds_parseProgram
  have errors : syntaxErrors p.parseProgram.1 = Diagnostic.inOrder ds := by
    rw [parsed, syntaxErrors_conclude, (rounds.notes scanned.ready).1, faults_step scanned, fresh,
      List.append_nil, List.reverse_reverse]
  refine ⟨fs, ds, q, rounds, ?_, fun sorted => ?_, fun program read => ?_⟩
  · rw [errors]
    exact Diagnostic.inOrder_perm ds
  · have order := rounds.strict scanned.ready (sorted.sublist p.step.suspects_suffix.sublist)
    rw [errors, Diagnostic.inOrder_of_pairwise (order.imp fun before => before.notAfter)]
  · rw [parsed] at read
    rw [← (conclude_eq_ok_iff.mp read).2]

/-! ## Source texts -/

theorem scanned_ofSource (source : String) : (ofSource source).Scanned :=
  ⟨fun _ => Cursor.lexed_of_mem_results, fun _ => Cursor.isLexical_of_mem_results⟩

/-- The first step has all tokens of the text ahead. -/
theorem ahead_ofSource (source : String) :
    (ofSource source).step.ahead = Lexical.tokensToEnd source :=
  ahead_step (scanned_ofSource source)

theorem pairwise_ofSource {source : String} (short : source.length < UInt32.size - 1) :
    (ofSource source).step.ahead.Pairwise fun t u => t.pos.Before u.pos := by
  rw [ahead_ofSource]
  exact Cursor.tokensToEnd_pairwise short

end Parser

end LoopLang
