import LoopLang.Proofs.Grammar.Pieces

set_option autoImplicit false

/-! # Recovery is local

The faults that a parse of a program reports are those of its pieces, each piece parsed on its own:
none for a function, and one for anything else. Only a fault that a piece alone has at the end of
the text stands at the `let` of the next piece instead, if there is one. All this is decided by the
kinds of tokens; places only say in which order the faults are reported. -/

namespace LoopLang

/-- The cause, told where a token with this text is found. -/
def Cause.withFound (text : String) : Cause → Cause
  | unexpectedToken _ expected => unexpectedToken text expected
  | expectedIdentifier _ => expectedIdentifier text
  | expectedExpression _ => expectedExpression text
  | cause => cause

/-- A fault that was found at the token `found`, as it is told where the token `next` comes in place
of the end of the text: a fault at the end stands at this token, and any other stays where it is. -/
def Diagnostic.inFrontOf (found next : Token) (d : Diagnostic) : Diagnostic :=
  if found.kind = .eof then ⟨next.pos, d.cause.withFound next.text⟩ else d

namespace Grammar

/-- The faults of these tokens on their own, in a text that ends at `endPos`. -/
def faultsAlone (endPos : Position) (piece : List Token) : List Diagnostic :=
  syntaxErrors (Parser.ofResults (piece.map .ok) endPos).parseProgram.1

/-- Alone, in a text that ends at `endPos`, the piece has the fault `d` and no other. It is found at
the token `t`, which is one of the piece or the end of the text. -/
structure FaultAlone (endPos : Position) (piece : List Token) (t : Token) (d : Diagnostic) :
    Prop where
  among : t ∈ piece ++ [.endOfText endPos]
  fault : Parser.FaultAt t d
  alone : faultsAlone endPos piece = [d]
  anywhere : ∀ e, faultsAlone e piece = [d.inFrontOf t (.endOfText e)]

/-- The faults of pieces that come one behind the other, in a text that ends at `endPos`: those that
they have alone, told in front of the token behind the piece. -/
inductive Faults (endPos : Position) : List (List Token) → List Diagnostic → Prop where
  | nil : Faults endPos [] []
  | clean {piece later ds} (alone : faultsAlone endPos piece = [])
      (more : Faults endPos later ds) : Faults endPos (piece :: later) ds
  | faulty {piece later t d ds} (alone : FaultAlone endPos piece t d)
      (more : Faults endPos later ds) : Faults endPos (piece :: later)
        (d.inFrontOf t (later.flatten.head?.getD (.endOfText endPos)) :: ds)

/-! ## Cutting -/

theorem pieces_ne_nil (ts : List Token) : pieces ts ≠ [] := by
  unfold pieces
  split
  · exact List.cons_ne_nil _ _
  · next nonempty => exact List.splitBy_ne_nil.mpr nonempty

theorem flatten_pieces (ts : List Token) : (pieces ts).flatten = ts := by
  unfold pieces
  split
  · next empty =>
    rw [empty]
    rfl
  · exact List.flatten_splitBy joined ts

theorem isChain_of_mem_pieces {ts piece : List Token} (mem : piece ∈ pieces ts) :
    piece.IsChain fun t u => joined t u := by
  unfold pieces at mem
  split at mem
  · obtain rfl := List.mem_singleton.mp mem
    exact .nil
  · exact List.isChain_of_mem_splitBy mem

theorem isChain_pieces (ts : List Token) :
    (pieces ts).IsChain fun a b => ∃ ha hb, joined (a.getLast ha) (b.head hb) = false := by
  unfold pieces
  split
  · exact .singleton _
  · exact List.isChain_getLast_head_splitBy joined ts

/-- If its report is also what a piece has alone, wherever the text ends, then the report tells the
fault in front of any token. -/
theorem Report.exists_faultAlone {piece : List Token} {report : Token → Diagnostic}
    (h : Report piece report) (lexed : ∀ t ∈ piece, t.kind ≠ .eof ∧ t.Lexed)
    (alone : ∀ e, faultsAlone e piece = [report (.endOfText e)]) (endPos : Position) :
    ∃ t d, FaultAlone endPos piece t d ∧ ∀ b, d.inFrontOf t b = report b := by
  cases h with
  | @inside t d mem fault =>
    have stays : ∀ b, d.inFrontOf t b = d := fun b => if_neg (lexed t mem).1
    exact ⟨t, d, ⟨List.mem_append_left _ mem, fault, alone endPos, fun e =>
      (stays (.endOfText e)).symm ▸ alone e⟩, stays⟩
  | behind w =>
    have moves : ∀ b : Token, Diagnostic.inFrontOf (.endOfText endPos) b
        ⟨endPos, w.cause (Token.endOfText endPos).text⟩ = ⟨b.pos, w.cause b.text⟩ := by
      intro b
      have same : (w.cause (Token.endOfText endPos).text).withFound b.text = w.cause b.text := by
        cases w <;> rfl
      exact (if_pos rfl).trans (congrArg (Diagnostic.mk b.pos) same)
    exact ⟨_, _, ⟨List.mem_append_right _ List.mem_cons_self, .unsuited w, alone endPos, fun e =>
      (moves (.endOfText e)).symm ▸ alone e⟩, moves⟩

end Grammar

namespace Parser

open Grammar (joined Report FaultAlone Faults faultsAlone)

/-! ## Pieces alone -/

section Alone

variable {piece : List Token} (lexed : ∀ t ∈ piece, t.kind ≠ .eof ∧ t.Lexed) (endPos : Position)
include lexed

theorem rounds_alone : ∃ n p q fs ds, Ready n p ∧ p.ahead = piece ++ [.endOfText endPos]
    ∧ Rounds n p fs ds q ∧ (faultsAlone endPos piece).Perm ds := by
  have scanned := scanned_of_tokens lexed endPos
  obtain ⟨fs, ds, q, rounds, perm, _⟩ := rounds_of_parseProgram scanned rfl
  exact ⟨_, _, q, fs, ds, scanned.ready, ahead_of_tokens lexed endPos, rounds, perm⟩

theorem faultsAlone_of_function {f : Function} (function : Grammar.Function piece f) :
    faultsAlone endPos piece = [] := by
  obtain ⟨n, p, q, fs, ds, ready, front, rounds, perm⟩ := rounds_alone lexed endPos
  obtain ⟨gs, rfl, rest⟩ := rounds_of_function function ready front rounds
  obtain ⟨_, rfl⟩ := rest.of_eof rfl
  exact perm.eq_nil

/-- A piece that is no function has one fault alone. -/
theorem faultsAlone_of_report {report : Token → Diagnostic}
    (reports : ∀ {n : Nat} {p q : Parser} {after : List Token} {b : Token} {fs : List Function}
        {ds : List Diagnostic}, Ready n p → p.ahead = piece ++ b :: after →
        Grammar.Closes piece b → Rounds n p fs ds q →
        ∃ gs es, ds = report b :: es ∧ RestAt n b after gs es q) :
    faultsAlone endPos piece = [report (.endOfText endPos)] := by
  obtain ⟨n, p, q, fs, ds, ready, front, rounds, perm⟩ := rounds_alone lexed endPos
  obtain ⟨gs, es, rfl, rest⟩ := reports ready front (Or.inl rfl) rounds
  obtain ⟨_, rfl⟩ := rest.of_eof rfl
  exact List.perm_singleton.mp perm

end Alone

/-- Alone, a piece is a function without faults or has exactly one. -/
theorem faultsAlone_cases {piece : List Token} (chain : piece.IsChain fun t u => joined t u)
    (lexed : ∀ t ∈ piece, t.kind ≠ .eof ∧ t.Lexed) (endPos : Position) :
    ((∃ f, Grammar.Function piece f) ∧ faultsAlone endPos piece = [])
      ∨ ((¬∃ f, Grammar.Function piece f) ∧ ∃ d, faultsAlone endPos piece = [d]) := by
  by_cases good : ∃ f, Grammar.Function piece f
  · obtain ⟨f, function⟩ := good
    exact Or.inl ⟨⟨f, function⟩, faultsAlone_of_function lexed endPos function⟩
  · obtain ⟨report, _, reports⟩ := exists_report chain lexed good
    exact Or.inr ⟨good, _, faultsAlone_of_report lexed endPos reports⟩

/-- In front of the token `b` a piece brings the fault that it has alone. -/
theorem rounds_of_piece {n : Nat} {p q : Parser} {piece after : List Token} {b : Token}
    {fs : List Function} {ds : List Diagnostic} (chain : piece.IsChain fun t u => joined t u)
    (lexed : ∀ t ∈ piece, t.kind ≠ .eof ∧ t.Lexed) (endPos : Position) (ready : Ready n p)
    (front : p.ahead = piece ++ b :: after) (closes : Grammar.Closes piece b)
    (rounds : Rounds n p fs ds q) :
    ∃ gs es, RestAt n b after gs es q
      ∧ ((faultsAlone endPos piece = [] ∧ ds = es)
        ∨ ∃ t d, FaultAlone endPos piece t d ∧ ds = d.inFrontOf t b :: es)
      ∧ (ds = [] → ∃ f, Grammar.Function piece f ∧ fs = f :: gs) := by
  by_cases good : ∃ f, Grammar.Function piece f
  · obtain ⟨f, function⟩ := good
    obtain ⟨gs, rfl, rest⟩ := rounds_of_function function ready front rounds
    exact ⟨gs, ds, rest, Or.inl ⟨faultsAlone_of_function lexed endPos function, rfl⟩,
      fun _ => ⟨f, function, rfl⟩⟩
  · obtain ⟨report, isReport, reports⟩ := exists_report chain lexed good
    obtain ⟨gs, es, rfl, rest⟩ := reports ready front closes rounds
    obtain ⟨t, d, alone, told⟩ := isReport.exists_faultAlone lexed
      (fun e => faultsAlone_of_report lexed e reports) endPos
    exact ⟨gs, es, rest, Or.inr ⟨t, d, alone, by rw [told]⟩, nofun⟩

/-! ## Pieces in a row -/

theorem rounds_of_pieces {pieces : List (List Token)} {endPos : Position} (nonempty : pieces ≠ [])
    (chains : ∀ piece ∈ pieces, piece.IsChain fun t u => joined t u)
    (cuts : pieces.IsChain fun a b => ∃ ha hb, joined (a.getLast ha) (b.head hb) = false)
    (lexed : ∀ t ∈ pieces.flatten, t.kind ≠ .eof ∧ t.Lexed)
    {n : Nat} {p q : Parser} {fs : List Function} {ds : List Diagnostic} (ready : Ready n p)
    (front : p.ahead = pieces.flatten ++ [.endOfText endPos]) (rounds : Rounds n p fs ds q) :
    Faults endPos pieces ds
      ∧ (ds = [] → List.Forall₂ (fun piece f => Grammar.Function piece f) pieces fs) := by
  induction pieces generalizing p fs ds with
  | nil => exact absurd rfl nonempty
  | cons piece later ih =>
    rw [List.flatten_cons] at lexed front
    rw [List.append_assoc] at front
    obtain ⟨chain, chains⟩ := List.forall_mem_cons.mp chains
    have lexed₁ : ∀ t ∈ piece, t.kind ≠ .eof ∧ t.Lexed := fun t mem =>
      lexed t (List.mem_append_left _ mem)
    have lexed₂ : ∀ t ∈ later.flatten, t.kind ≠ .eof ∧ t.Lexed := fun t mem =>
      lexed t (List.mem_append_right _ mem)
    cases later with
    | nil =>
      obtain ⟨gs, es, rest, faults, read⟩ := rounds_of_piece chain lexed₁ endPos ready front
        (Or.inl rfl) rounds
      obtain ⟨rfl, rfl⟩ := rest.of_eof rfl
      constructor
      · rcases faults with ⟨alone, rfl⟩ | ⟨t, d, alone, rfl⟩
        · exact .clean alone .nil
        · exact .faulty alone .nil
      · intro none
        obtain ⟨f, function, rfl⟩ := read none
        exact .cons function .nil
    | cons next later =>
      obtain ⟨⟨piece', next', cut⟩, cuts⟩ := List.isChain_cons_cons.mp cuts
      obtain ⟨b, next, rfl⟩ := List.exists_cons_of_ne_nil next'
      obtain ⟨letKw, endKw⟩ := Grammar.joined_eq_false_iff.mp cut
      have closes : Grammar.Closes piece b :=
        Or.inr ⟨letKw, piece.getLast piece', List.getLast?_eq_some_getLast piece', endKw⟩
      have notEnd : b.kind ≠ .eof := (lexed₂ b List.mem_cons_self).1
      obtain ⟨gs, es, rest, faults, read⟩ := rounds_of_piece chain lexed₁ endPos ready front closes
        rounds
      obtain ⟨r, ready', front', rounds'⟩ := rest.of_ne_eof notEnd
      obtain ⟨faults', read'⟩ := ih (List.cons_ne_nil _ _) chains cuts lexed₂ ready' front'
        rounds'
      constructor
      · rcases faults with ⟨alone, rfl⟩ | ⟨t, d, alone, rfl⟩
        · exact .clean alone faults'
        · exact .faulty alone faults'
      · intro none
        obtain ⟨f, function, rfl⟩ := read none
        rcases faults with ⟨_, rfl⟩ | ⟨_, _, _, rfl⟩
        · exact .cons function (read' none)
        · cases none

end Parser

namespace Grammar

/-- **Recovery is local.** A parse of a program reports the faults of its pieces: none for a piece
that is a function, and for any other piece the one fault that it has alone, which stands at the
`let` of the next piece if it stands at the end alone. A program of fewer than `2 ^ 32 - 1`
characters has them reported in the order of the pieces. Without faults, the functions of the
program are those of the pieces. -/
theorem faults_local (source : String) :
    (∃ ds, Faults (Cursor.ofSource source).endPos (pieces (Lexical.tokensOf source)) ds
      ∧ (syntaxErrors (Program.parse source)).Perm ds
      ∧ (source.length < UInt32.size - 1 → syntaxErrors (Program.parse source) = ds))
    ∧ (∀ piece ∈ pieces (Lexical.tokensOf source),
        ((∃ f, Function piece f) ∧ faultsAlone (Cursor.ofSource source).endPos piece = [])
        ∨ ((¬∃ f, Function piece f)
          ∧ ∃ d, faultsAlone (Cursor.ofSource source).endPos piece = [d]))
    ∧ ∀ program, Program.parse source = .ok program →
        List.Forall₂ (fun piece f => Function piece f) (pieces (Lexical.tokensOf source))
          program.functions := by
  have front : (Parser.ofSource source).step.ahead =
      (pieces (Lexical.tokensOf source)).flatten
        ++ [.endOfText (Cursor.ofSource source).endPos] := by
    rw [flatten_pieces]
    exact Parser.ahead_ofSource source
  have lexed : ∀ t ∈ (pieces (Lexical.tokensOf source)).flatten,
      t.kind ≠ .eof ∧ t.Lexed := by
    rw [flatten_pieces]
    exact fun t mem => Cursor.lexed_of_mem_results (Lexical.mem_tokens.mp mem)
  have scanned := Parser.scanned_ofSource source
  obtain ⟨fs, ds, q, rounds, perm, inOrder, read⟩ := Parser.rounds_of_parseProgram scanned rfl
  obtain ⟨faults, functions⟩ := Parser.rounds_of_pieces (pieces_ne_nil _)
    (fun piece mem => isChain_of_mem_pieces mem) (isChain_pieces _) lexed scanned.ready
    front rounds
  refine ⟨⟨ds, faults, perm, fun short => inOrder (Parser.pairwise_ofSource short)⟩,
    fun piece mem => ?_, fun program parsed => ?_⟩
  · have lexed' : ∀ t ∈ piece, t.kind ≠ .eof ∧ t.Lexed := fun t inPiece =>
      lexed t (List.mem_flatten.mpr ⟨piece, mem, inPiece⟩)
    exact Parser.faultsAlone_cases (isChain_of_mem_pieces mem) lexed' _
  · have none : syntaxErrors (Program.parse source) = [] := by
      rw [parsed]
      rfl
    rw [read program parsed]
    rw [← Program.parse, none] at perm
    exact functions perm.symm.eq_nil

/-- The first function lacks its `end`, and the second one its name. -/
theorem faults_local_unfinished :
    "let f x = if x then x else 1 end let let".length < UInt32.size - 1
      ∧ Faults (Cursor.ofSource "let f x = if x then x else 1 end let let").endPos
          (pieces (Lexical.tokensOf "let f x = if x then x else 1 end let let"))
          (syntaxErrors (Program.parse "let f x = if x then x else 1 end let let")) := by
  have short : "let f x = if x then x else 1 end let let".length < UInt32.size - 1 := by decide
  obtain ⟨ds, faults, _, same⟩ := (faults_local "let f x = if x then x else 1 end let let").1
  exact ⟨short, same short ▸ faults⟩

end Grammar

end LoopLang
