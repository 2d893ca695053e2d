import LoopLang.Proofs.Grammar.Rounds

set_option autoImplicit false

/-! # What a failed parse reports

A parse notes lexical faults one token ahead of the faults of the grammar, so they are not noted in
the order of the text. All the same, a report has every lexical fault of the text and the faults of
all rounds, each once, and lists them by place. If the text has fewer than `2 ^ 32 - 1` characters,
no two stand at one place, because a lexeme is either a token or a fault, and because a round behind
a fault begins with a `let` that is not blamed again. -/

namespace LoopLang

/-! ## Order -/

theorem Position.before_of_ne {p q : Position} (h : p.notAfter q = true) (ne : p ≠ q) :
    p.Before q := by
  rw [before_iff]
  rcases notAfter_iff.mp h with above | ⟨line, column⟩
  · exact Or.inl above
  · refine Or.inr ⟨line, Nat.lt_of_le_of_ne column fun same => ne ?_⟩
    cases p
    cases q
    cases UInt32.toNat_inj.mp line
    cases UInt32.toNat_inj.mp same
    rfl

/-- Diagnostics at different places are reported in strict order, in whatever order they are
noted. -/
theorem Diagnostic.inOrder_pairwise_before {ds : List Diagnostic}
    (apart : ds.Pairwise fun d e => d.pos ≠ e.pos) :
    (inOrder ds).Pairwise fun d e => d.pos.Before e.pos := by
  have apart' : (inOrder ds).Pairwise fun d e => d.pos ≠ e.pos :=
    (inOrder_perm ds).symm.pairwise apart fun ne => ne.symm
  exact (inOrder_pairwise ds).imp₂ (fun _ _ before ne => Position.before_of_ne before ne) apart'

/-- Two lists of the same diagnostics in strict order are the same list. -/
theorem Diagnostic.eq_of_perm {ds es : List Diagnostic} (perm : ds.Perm es)
    (sorted : ds.Pairwise fun d e => d.pos.Before e.pos)
    (sorted' : es.Pairwise fun d e => d.pos.Before e.pos) : ds = es := by
  refine perm.eq_of_pairwise (fun d e _ _ before after => ?_) sorted sorted'
  exact absurd rfl (before.trans_notAfter after.notAfter).ne

/-! ## Reports of programs -/

namespace Parser

/-- The rounds of a whole text note the faults of the grammar, each at a token, and besides these
the lexical faults of the text. In a short text they note them in the order of their places. -/
theorem Rounds.spec_ofSource {source : String} {q : Parser} {fs : List Function}
    {ds : List Diagnostic}
    (rounds : Rounds ((ofSource source).step.size + 1) (ofSource source).step fs ds q) :
    q.faults = ds.reverse ∧ q.noted.reverse.Perm (ds ++ Lexical.faultsOf source)
      ∧ (∀ d ∈ ds, ∃ t ∈ Lexical.tokensToEnd source, FaultAt t d)
      ∧ (source.length < UInt32.size - 1 → ds.Pairwise fun d e => d.pos.Before e.pos) := by
  have scanned := scanned_ofSource source
  have suffix := (ofSource source).step.suspects_suffix
  obtain ⟨faults, noted, places⟩ := rounds.notes scanned.ready
  rw [faults_step scanned] at faults
  rw [told_step] at noted
  refine ⟨faults.trans (List.append_nil _), noted, fun d mem => ?_, fun short => ?_⟩
  · obtain ⟨t, memt, fault⟩ := places d mem
    exact ⟨t, ahead_ofSource source ▸ suffix.subset memt, fault⟩
  · exact rounds.strict scanned.ready ((pairwise_ofSource short).sublist suffix.sublist)

/-- What a parse of a program notes are some faults of the grammar, each at a token, and the lexical
faults of the text. -/
theorem exists_noted (source : String) :
    ∃ fs faults q, Program.parse source = (conclude q ⟨fs⟩).1
      ∧ q.noted.reverse.Perm (faults ++ Lexical.faultsOf source)
      ∧ (∀ d ∈ faults, ∃ t ∈ Lexical.tokensToEnd source, FaultAt t d)
      ∧ (source.length < UInt32.size - 1 → faults.Pairwise fun d e => d.pos.Before e.pos) := by
  obtain ⟨fs, faults, q, rounds, parsed⟩ := (ofSource source).exists_rounds_parseProgram
  obtain ⟨_, noted, places, order⟩ := rounds.spec_ofSource
  exact ⟨fs, faults, q, parsed, noted, places, order⟩

section Report

variable {q : Parser} {source : String} {faults : List Diagnostic}
  (noted : q.noted.reverse.Perm (faults ++ Lexical.faultsOf source))
  (places : ∀ d ∈ faults, ∃ t ∈ Lexical.tokensToEnd source, FaultAt t d)
include noted places

/-- All lexical faults of the text are reported, and everything else stands at a token. -/
theorem report_spec :
    (q.report.filter fun d => d.cause.isLexical).Perm (Lexical.faultsOf source)
      ∧ ∀ d ∈ q.report, d.cause.isLexical = false →
          ∃ t ∈ Lexical.tokensToEnd source, d.pos = t.pos := by
  have lexical : ∀ d ∈ Lexical.faultsOf source, d.cause.isLexical = true := fun d mem =>
    Cursor.isLexical_of_mem_results (Lexical.mem_faults.mp mem)
  have perm : q.report.Perm (faults ++ Lexical.faultsOf source) :=
    (Diagnostic.inOrder_perm _).trans noted
  refine ⟨?_, fun d mem syntactic => ?_⟩
  · have none : (faults.filter fun d => d.cause.isLexical) = [] :=
      List.filter_eq_nil_iff.mpr fun d mem => by
        obtain ⟨_, _, fault⟩ := places d mem
        simp [fault.isLexical]
    have kept := perm.filter fun d => d.cause.isLexical
    rwa [List.filter_append, none, List.filter_eq_self.mpr lexical] at kept
  · rcases List.mem_append.mp (perm.mem_iff.mp mem) with mem | mem
    · obtain ⟨t, memt, fault⟩ := places d mem
      exact ⟨t, memt, fault.pos_eq⟩
    · rw [lexical d mem] at syntactic
      cases syntactic

/-- What is noted at different places is reported in the order of the text. -/
theorem report_pairwise (short : source.length < UInt32.size - 1)
    (order : faults.Pairwise fun d e => d.pos.Before e.pos) :
    q.report.Pairwise fun d e => d.pos.Before e.pos := by
  have apart : (faults ++ Lexical.faultsOf source).Pairwise fun d e => d.pos ≠ e.pos := by
    refine List.pairwise_append.mpr ⟨order.imp fun before => before.ne,
      (Cursor.faultsOf_pairwise short).imp fun before => before.ne, fun d memd e meme => ?_⟩
    obtain ⟨t, memt, fault⟩ := places d memd
    exact fault.pos_eq ▸ (Cursor.pos_ne_of_mem_faultsOf short meme memt).symm
  exact Diagnostic.inOrder_pairwise_before (noted.symm.pairwise apart fun ne => ne.symm)

end Report

theorem mem_report {q : Parser} {d : Diagnostic} : d ∈ q.report ↔ d ∈ q.noted :=
  (Diagnostic.inOrder_perm _).mem_iff.trans List.mem_reverse

/-- What is reported instead of a tree is all that was noted, and that is something. -/
theorem of_conclude_eq_error {α : Type} {q : Parser} {tree : α} {ds : List Diagnostic}
    (failed : (q.conclude tree).1 = .error ds) : ds = q.report ∧ ds ≠ [] := by
  unfold conclude at failed
  split at failed
  · cases failed
  · next dirty =>
    cases failed
    obtain ⟨d, mem⟩ := List.exists_mem_of_ne_nil _ fun none => dirty (List.isEmpty_iff.mpr none)
    exact ⟨rfl, List.ne_nil_of_mem (mem_report.mpr mem)⟩

end Parser

/-- **Reports are complete, ordered and without repetition.** What a failed parse of a program
reports is something, tells exactly the lexical faults that scanning tells, and everything else at a
token or at the end of the text. If the text has fewer than `2 ^ 32 - 1` characters, it stands in
the order of the text with no two diagnostics at one place, and tells the lexical faults in the
order of scanning. And where scanning tells a fault, the parse fails. -/
theorem Program.parse_reports_all (source : String) :
    (∀ ds, Program.parse source = .error ds →
      ds ≠ []
      ∧ (ds.filter fun d => d.cause.isLexical).Perm (Lexical.faultsOf source)
      ∧ (∀ d ∈ ds, d.cause.isLexical = false →
          ∃ t ∈ Lexical.tokensToEnd source, d.pos = t.pos)
      ∧ (source.length < UInt32.size - 1 →
          (ds.Pairwise fun d e => d.pos.Before e.pos)
          ∧ (ds.filter fun d => d.cause.isLexical) = Lexical.faultsOf source))
    ∧ (Lexical.faultsOf source ≠ [] → ∃ ds, Program.parse source = .error ds) := by
  obtain ⟨fs, faults, q, parsed, noted, places, order⟩ := Parser.exists_noted source
  rw [parsed]
  cases result : (q.conclude (⟨fs⟩ : Program)).1 with
  | ok program =>
    -- nothing was noted, so there is no lexical fault either
    have clean : q.noted = [] := (Parser.conclude_eq_ok_iff.mp result).1
    rw [clean] at noted
    have none := List.append_eq_nil_iff.mp noted.symm.eq_nil
    exact ⟨nofun, fun faulty => absurd none.2 faulty⟩
  | error ds =>
    obtain ⟨rfl, some⟩ := Parser.of_conclude_eq_error result
    refine ⟨fun es same => ?_, fun _ => ⟨_, rfl⟩⟩
    cases same
    obtain ⟨lexical, atTokens⟩ := Parser.report_spec noted places
    refine ⟨some, lexical, atTokens, fun short => ?_⟩
    have sorted := Parser.report_pairwise noted places short (order short)
    exact ⟨sorted, Diagnostic.eq_of_perm lexical (sorted.filter _) (Cursor.faultsOf_pairwise short)⟩

theorem Program.parse_reports_all_stray :
    "let main x = x $ 1 end let f y = y & 2 end".length < UInt32.size - 1
      ∧ Lexical.faultsOf "let main x = x $ 1 end let f y = y & 2 end" ≠ []
      ∧ ∃ ds, Program.parse "let main x = x $ 1 end let f y = y & 2 end" = .error ds
        ∧ ds ≠ [] ∧ (ds.Pairwise fun d e => d.pos.Before e.pos)
        ∧ (ds.filter fun d => d.cause.isLexical) =
            Lexical.faultsOf "let main x = x $ 1 end let f y = y & 2 end" := by
  have short : "let main x = x $ 1 end let f y = y & 2 end".length < UInt32.size - 1 := by decide
  have faulty : Lexical.faultsOf "let main x = x $ 1 end let f y = y & 2 end" ≠ [] := by
    decide +kernel
  obtain ⟨ds, failed⟩ := (Program.parse_reports_all _).2 faulty
  obtain ⟨some, _, _, inOrder⟩ := (Program.parse_reports_all _).1 ds failed
  exact ⟨short, faulty, ds, failed, some, inOrder short⟩

end LoopLang
