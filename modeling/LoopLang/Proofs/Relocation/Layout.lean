import LoopLang.Proofs.Grammar.Reports
import LoopLang.Proofs.Printing.Words
import LoopLang.Proofs.Relocation.Evaluation
import LoopLang.Proofs.Relocation.Lines

set_option autoImplicit false

/-! # Layout does not change the meaning

Blanks, line breaks and comments between the words of a text decide only where the words stand. So
two texts of the same words, without lexical faults, become the same when all places are forgotten:
the parser reads both as it reads their words, and so does evaluation go on. Only the order of a
report is made by places. In texts of fewer than `2 ^ 32 - 1` characters what is noted without
lexical faults is in this order already, and the texts differ by a relocation, diagnostics in their
order included. -/

namespace LoopLang

variable {f : Position → Position}

/-- The parse at other places. -/
def Program.relocateParse (f : Position → Position) :
    Except (List Diagnostic) Program → Except (List Diagnostic) Program
  | .ok p => .ok (p.relocate f)
  | .error ds => .error (ds.map (Diagnostic.relocate f))

/-- The end of a run at other places. -/
def relocateInterpreted (f : Position → Position) :
    Except (Halt Failure) Int64 → Except (Halt Failure) Int64
  | .ok v => .ok v
  | .error halt => .error (halt.map (Failure.relocate f))

theorem relocateInterpreted_mapError (x : Outcome Int64) :
    (Outcome.relocate f id x).mapError (Halt.map .runtime) =
      relocateInterpreted f (x.mapError (Halt.map .runtime)) := by
  cases x with
  | ok v => rfl
  | error halt => cases halt <;> rfl

/-! ## Places forgotten -/

/-- No place at all, in place of any. -/
def Position.forget (_ : Position) : Position := .nowhere

/-- Two parses differ in places only, and in the order of the diagnostics. -/
inductive Program.ParsedAlike : Except (List Diagnostic) Program →
    Except (List Diagnostic) Program → Prop where
  | ok {p p'} (same : p.relocate .forget = p'.relocate .forget) : ParsedAlike (.ok p) (.ok p')
  | error {ds ds'} (same : (ds.map (Diagnostic.relocate .forget)).Perm
      (ds'.map (Diagnostic.relocate .forget))) : ParsedAlike (.error ds) (.error ds')

/-- Two runs end with the same value or the same error, but for places and the order of
diagnostics. -/
inductive InterpretedAlike : Except (Halt Failure) Int64 → Except (Halt Failure) Int64 → Prop where
  | parse {ds ds'} (same : (ds.map (Diagnostic.relocate .forget)).Perm
      (ds'.map (Diagnostic.relocate .forget))) :
      InterpretedAlike (.error (.error (.parse ds))) (.error (.error (.parse ds')))
  | run {r r'} (same : relocateInterpreted .forget r = relocateInterpreted .forget r') :
      InterpretedAlike r r'

/-! ## The same words -/

/-- Tokens that stand at different places become any others of the same words by a relocation. -/
theorem exists_relocation {ts us : List Token} (same : ts.map Token.word = us.map Token.word)
    (apart : (ts.map Token.pos).Nodup) : ∃ f, ts.map (Token.relocate f) = us := by
  induction ts generalizing us with
  | nil =>
    rw [List.map_nil, eq_comm, List.map_eq_nil_iff] at same
    exact ⟨id, same.symm⟩
  | cons t ts ih =>
    obtain ⟨u, us, rfl, word, words⟩ := List.map_eq_cons_iff.mp same.symm
    obtain ⟨fresh, apart⟩ := List.nodup_cons.mp apart
    obtain ⟨f, rest⟩ := ih words.symm apart
    refine ⟨fun p => if p = t.pos then u.pos else f p, ?_⟩
    have first : t.relocate (fun p => if p = t.pos then u.pos else f p) = u := by
      obtain ⟨kind, literal⟩ := Printing.Word.mk.inj word
      simp [Token.relocate, ← kind, ← literal]
    have others : ts.map (Token.relocate fun p => if p = t.pos then u.pos else f p) =
        ts.map (Token.relocate f) := by
      refine List.map_congr_left fun v mem => ?_
      have apart' : v.pos ≠ t.pos := fun here => fresh (here ▸ List.mem_map_of_mem mem)
      simp [Token.relocate, apart']
    rw [List.map_cons, first, others, rest]

namespace Parser

/-- At other places, a text without lexical faults is read as its tokens at these places, once the
parser has taken its first step. -/
theorem step_ofSource_relocate {s : String} (clean : Lexical.faultsOf s = []) {ts : List Token}
    {endPos : Position}
    (tokens : (Lexical.tokensToEnd s).map (Token.relocate f) = ts ++ [.endOfText endPos]) :
    (ofResults (ts.map .ok) endPos).step = (ofSource s).step.relocate f := by
  rw [Lexical.tokensToEnd, List.map_append] at tokens
  obtain ⟨tokens, atEnd⟩ := List.append_inj' tokens rfl
  have place : f (Cursor.ofSource s).endPos = endPos :=
    congrArg Token.pos (List.singleton_inj.mp atEnd)
  have results : ts.map .ok = (Cursor.ofSource s).results.map (relocateResult f) := by
    rw [Lexical.results_of_clean clean, List.map_map]
    show ts.map Except.ok = _
    rw [← tokens, List.map_map]
    rfl
  -- the token that is looked at before the first step is dropped by it
  rw [← step_relocate]
  unfold step
  simp only [ofSource, ofCursor, ofResults, relocate, results, place]
  rfl

/-- With all places forgotten, such a text is read as its tokens without places. -/
theorem step_ofSource_forget {s : String} (clean : Lexical.faultsOf s = []) :
    (ofResults (((Lexical.tokensOf s).map (Token.relocate .forget)).map .ok) .nowhere).step =
      (ofSource s).step.relocate .forget :=
  step_ofSource_relocate clean List.map_append

theorem ofSource_of_clean {s : String} (clean : Lexical.faultsOf s = []) :
    ofSource s = ofResults ((Lexical.tokensOf s).map .ok) (Cursor.ofSource s).endPos :=
  congrArg (ofResults · (Cursor.ofSource s).endPos) (Lexical.results_of_clean clean)

/-- Without lexical faults, the diagnostics of a short text are noted in the order of the text. -/
theorem report_of_clean {source : String} (clean : Lexical.faultsOf source = [])
    (short : source.length < UInt32.size - 1) {q : Parser} {fs : List Function}
    (read : functions ((ofSource source).step.size + 1) ((ofSource source).step.size + 1)
      (ofSource source).step = .ok fs q) :
    q.report = q.noted.reverse := by
  obtain ⟨ds, rounds⟩ := exists_rounds read
  obtain ⟨faults, noted, places, order⟩ := rounds.spec_ofSource
  rw [clean, List.append_nil] at noted
  -- all that is noted are the faults of the rounds
  have syntactic : ∀ d ∈ q.noted, (!d.cause.isLexical) = true := by
    intro d mem
    obtain ⟨_, _, fault⟩ := places d (noted.mem_iff.mp (List.mem_reverse.mpr mem))
    rw [fault.isLexical]
    rfl
  have all : q.noted = ds.reverse := by
    rw [← List.filter_eq_self.mpr syntactic]
    exact faults
  rw [report, all, List.reverse_reverse,
    Diagnostic.inOrder_of_pairwise ((order short).imp fun before => before.notAfter)]

theorem conclude_relocate {q : Parser} {program : Program} (here : q.report = q.noted.reverse)
    (there : (q.relocate f).report = (q.relocate f).noted.reverse) :
    ((q.relocate f).conclude (program.relocate f)).1 =
      Program.relocateParse f (q.conclude program).1 := by
  unfold conclude
  rw [here, there]
  cases noted : q.noted with
  | nil => simp [relocate, noted, Program.relocateParse]
  | cons d ds => simp [relocate, noted, Program.relocateParse]

/-- Without places, what is noted decides alone what a parse comes to. -/
theorem conclude_alike {q q' : Parser} {program program' : Program}
    (noted : q.noted.map (Diagnostic.relocate .forget) =
      q'.noted.map (Diagnostic.relocate .forget))
    (trees : program.relocate .forget = program'.relocate .forget) :
    Program.ParsedAlike (q.conclude program).1 (q'.conclude program').1 := by
  have perm : (q.report.map (Diagnostic.relocate .forget)).Perm
      (q'.report.map (Diagnostic.relocate .forget)) := by
    have here := (Diagnostic.inOrder_perm q.noted.reverse).map (Diagnostic.relocate .forget)
    have there := (Diagnostic.inOrder_perm q'.noted.reverse).map (Diagnostic.relocate .forget)
    rw [List.map_reverse, noted, ← List.map_reverse] at here
    exact here.trans there.symm
  have empty : q.noted.isEmpty = q'.noted.isEmpty := by
    rw [← List.isEmpty_map (f := Diagnostic.relocate .forget), noted, List.isEmpty_map]
  unfold conclude
  rw [empty]
  split
  · exact .ok trees
  · exact .error perm

end Parser

/-! ## The same meaning -/

section Words

variable {s s' : String} (clean : Lexical.faultsOf s = []) (clean' : Lexical.faultsOf s' = [])
  (same : (Lexical.tokensOf s).map Token.word = (Lexical.tokensOf s').map Token.word)
include clean clean' same

/-- With all places forgotten, texts of the same words are parsed as the same text. -/
theorem Program.parsedAlike_of_words : ParsedAlike (Program.parse s) (Program.parse s') := by
  have forgotten : (Lexical.tokensOf s).map (Token.relocate .forget) =
      (Lexical.tokensOf s').map (Token.relocate .forget) := by
    have words := congrArg (List.map fun w : Printing.Word =>
      (⟨w.kind, w.literal, .nowhere⟩ : Token)) same
    rwa [List.map_map, List.map_map] at words
  have first := Parser.step_ofSource_forget clean
  have first' := Parser.step_ofSource_forget clean'
  rw [← forgotten] at first'
  obtain ⟨fs, q, here, there⟩ := Parser.exists_functions_relocate first
  obtain ⟨fs', q', here', there'⟩ := Parser.exists_functions_relocate first'
  obtain ⟨trees, noted⟩ := EStateM.Result.ok.inj (there.symm.trans there')
  rw [Program.parse, Program.parse, Parser.parseProgram_of_ok here,
    Parser.parseProgram_of_ok here']
  exact Parser.conclude_alike (congrArg Parser.noted noted) (congrArg Program.mk trees)

/-- And they are run as the same text. -/
theorem interpretedAlike_of_words (fuel : Nat) (args : List Int64) :
    InterpretedAlike (interpret fuel s args) (interpret fuel s' args) := by
  have alike := Program.parsedAlike_of_words clean clean' same
  unfold interpret
  generalize Program.parse s = x at *
  generalize Program.parse s' = x' at *
  cases alike with
  | error perm => exact .parse perm
  | @ok p p' trees =>
    have outcomes : Outcome.relocate .forget id (p.evaluate fuel args) =
        Outcome.relocate .forget id (p'.evaluate fuel args) := by
      rw [← p.evaluate_relocate, trees, p'.evaluate_relocate]
    refine .run ?_
    rw [← relocateInterpreted_mapError, outcomes, relocateInterpreted_mapError]

/-- Of short texts the one becomes the other by a relocation, in all that is made of it. -/
theorem exists_relocation_of_words (short : s.length < UInt32.size - 1)
    (short' : s'.length < UInt32.size - 1) :
    ∃ f : Position → Position,
      (Lexical.tokensToEnd s).map (Token.relocate f) = Lexical.tokensToEnd s'
      ∧ Program.parse s' = Program.relocateParse f (Program.parse s)
      ∧ ∀ fuel args,
          interpret fuel s' args = relocateInterpreted f (interpret fuel s args) := by
  have words : (Lexical.tokensToEnd s).map Token.word =
      (Lexical.tokensToEnd s').map Token.word := by
    rw [Lexical.tokensToEnd, Lexical.tokensToEnd, List.map_append, List.map_append, same]
    rfl
  have apart : ((Lexical.tokensToEnd s).map Token.pos).Nodup :=
    List.pairwise_map.mpr ((Cursor.tokensToEnd_pairwise short).imp fun before => before.ne)
  obtain ⟨f, tokens⟩ := exists_relocation words apart
  have parsed : Program.parse s' = Program.relocateParse f (Program.parse s) := by
    have first := Parser.step_ofSource_relocate clean tokens
    rw [← Parser.ofSource_of_clean clean'] at first
    obtain ⟨fs, q, here, there⟩ := Parser.exists_functions_relocate first
    rw [Program.parse, Program.parse, Parser.parseProgram_of_ok here,
      Parser.parseProgram_of_ok there]
    exact Parser.conclude_relocate (Parser.report_of_clean clean short here)
      (Parser.report_of_clean clean' short' there)
  refine ⟨f, tokens, parsed, fun fuel args => ?_⟩
  unfold interpret
  rw [parsed]
  cases Program.parse s with
  | error ds => rfl
  | ok program =>
    show ((program.relocate f).evaluate fuel args).mapError (Halt.map .runtime) =
      relocateInterpreted f ((program.evaluate fuel args).mapError (Halt.map .runtime))
    rw [program.evaluate_relocate, relocateInterpreted_mapError]

end Words

/-- **Layout does not change the meaning.** If two texts without lexical faults have the same
kinds and literals of tokens in the same order, then the parses of both are the same but for places,
the tree or the diagnostics, and so is what interpreting them comes to with any arguments and any
fuel, a value or an error. If both texts have fewer than `2 ^ 32 - 1` characters, then some
relocation takes the tokens of the one to those of the other, and it takes everything else along:
the parse of the one, the tree or the diagnostics in their order, to the parse of the other, and
what interpreting the one comes to, to what interpreting the other comes to. -/
theorem same_words_same_meaning {s s' : String} (clean : Lexical.faultsOf s = [])
    (clean' : Lexical.faultsOf s' = [])
    (same : (Lexical.tokensOf s).map Token.word = (Lexical.tokensOf s').map Token.word) :
    Program.ParsedAlike (Program.parse s) (Program.parse s')
    ∧ (∀ fuel args, InterpretedAlike (interpret fuel s args) (interpret fuel s' args))
    ∧ (s.length < UInt32.size - 1 → s'.length < UInt32.size - 1 →
        ∃ f : Position → Position,
          (Lexical.tokensToEnd s).map (Token.relocate f) = Lexical.tokensToEnd s'
          ∧ Program.parse s' = Program.relocateParse f (Program.parse s)
          ∧ ∀ fuel args,
              interpret fuel s' args = relocateInterpreted f (interpret fuel s args)) :=
  ⟨Program.parsedAlike_of_words clean clean' same, interpretedAlike_of_words clean clean' same,
    exists_relocation_of_words clean clean' same⟩

/-- A comment and a line break in front of a word that is not defined. -/
theorem same_words_same_meaning_comment :
    Lexical.faultsOf "let main x = x + y end" = []
      ∧ Lexical.faultsOf "let main x = x + # y\ny end" = []
      ∧ "let main x = x + y end".length < UInt32.size - 1
      ∧ "let main x = x + # y\ny end".length < UInt32.size - 1
      ∧ ∃ f : Position → Position, ∀ fuel args,
          interpret fuel "let main x = x + # y\ny end" args =
            relocateInterpreted f (interpret fuel "let main x = x + y end" args) := by
  have clean : Lexical.faultsOf "let main x = x + y end" = [] := by decide +kernel
  have clean' : Lexical.faultsOf "let main x = x + # y\ny end" = [] := by decide +kernel
  have short : "let main x = x + y end".length < UInt32.size - 1 := by decide
  have short' : "let main x = x + # y\ny end".length < UInt32.size - 1 := by decide
  obtain ⟨_, _, relocates⟩ := same_words_same_meaning clean clean' (by decide +kernel)
  obtain ⟨f, _, _, same⟩ := relocates short short'
  exact ⟨clean, clean', short, short', f, same⟩

/-- Where the lines come round, the same diagnostics may be reported in another order. -/
theorem diagnostics_in_other_order :
    Lexical.faultsOf "end let )" = []
      ∧ Lexical.faultsOf (Lexical.farBelow "      end" "let )") = []
      ∧ (Lexical.tokensOf "end let )").map Token.word =
          (Lexical.tokensOf (Lexical.farBelow "      end" "let )")).map Token.word
      ∧ ∃ ds ds', Program.parse "end let )" = .error ds
        ∧ Program.parse (Lexical.farBelow "      end" "let )") = .error ds'
        ∧ ds.map (Diagnostic.relocate .forget) ≠ ds'.map (Diagnostic.relocate .forget) := by
  have oneLine : '\n' ∉ "      end".toList := by decide
  rw [Lexical.faultsOf, Lexical.faultsOf, Lexical.tokensOf, Lexical.tokensOf,
    (Cursor.results_farBelow oneLine).1, Program.parse, Program.parse,
    Parser.ofSource_farBelow oneLine]
  exact ⟨by decide +kernel, by decide +kernel, by decide +kernel, _, _, rfl, rfl, by decide +kernel⟩

end LoopLang
