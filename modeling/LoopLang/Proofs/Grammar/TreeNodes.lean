import LoopLang.Proofs.Cursor.Places
import LoopLang.Proofs.Grammar.Acceptance
import LoopLang.Proofs.Relocation.Lines
import LoopLang.Proofs.Tree.Nodes

set_option autoImplicit false

/-! # What the nodes of a derived tree hold

In a tree that is derived by some tokens, the nodes hold these tokens in their order, all but the
delimiters, and every node fits its token. Where a primary expression occurs in the tree, the tokens
from its own one on derive it, and no further argument is passed behind it. All this is kept as
tokens and nodes are put one behind the other, so it follows rule by rule. -/

namespace LoopLang

/-- The signs and words that leave no node: brackets, `=`, and the words between the parts of a
function or an expression and at its end. -/
def TokenKind.isDelimiter : TokenKind → Bool
  | symbol .leftParen | symbol .rightParen | symbol .assign => true
  | keyword .andKw | keyword .inKw | keyword .thenKw | keyword .elseKw | keyword .endKw => true
  | _ => false

theorem UnaryOp.stands (op : UnaryOp) : (TokenKind.symbol op.symbol).isDelimiter = false := by
  cases op <;> rfl

theorem BinaryOp.stands (op : BinaryOp) : (TokenKind.symbol op.symbol).isDelimiter = false := by
  cases op <;> rfl

/-- The tokens that are no delimiters. -/
def Token.significant (ts : List Token) : List Token :=
  ts.filter fun t => !t.kind.isDelimiter

/-- The expression is no operation, so it begins with its own token. -/
def Expr.IsPrimary : Expr → Prop
  | .binary _ _ _ _ => False
  | _ => True

namespace Grammar

/-! ## Occurrences -/

/-- Somewhere among the tokens the expression is written, from its own token on, and no argument is
passed behind it. -/
def Occurs (ts : List Token) (e : Expr) : Prop :=
  ∃ before us after, ts = before ++ e.token :: (us ++ after) ∧ Primary (e.token :: us) e
    ∧ ∀ t ∈ after.head?, t.kind ≠ .symbol .leftParen

section Occurrences

variable {ts : List Token} {e : Expr}

theorem occurs_self (h : Primary (e.token :: ts) e) : Occurs (e.token :: ts) e :=
  ⟨[], ts, [], by simp, h, nofun⟩

theorem Occurs.prepend (h : Occurs ts e) (us : List Token) : Occurs (us ++ ts) e := by
  obtain ⟨before, vs, after, rfl, derived, follow⟩ := h
  exact ⟨us ++ before, vs, after, by simp, derived, follow⟩

theorem Occurs.append {us : List Token} (h : Occurs ts e)
    (follow : ∀ t ∈ us.head?, t.kind ≠ .symbol .leftParen) : Occurs (ts ++ us) e := by
  obtain ⟨before, vs, after, rfl, derived, follow'⟩ := h
  refine ⟨before, vs, after ++ us, by simp, derived, ?_⟩
  -- what comes first behind the expression is still the same, unless there was nothing
  cases after with
  | nil => exact follow
  | cons t after => exact follow'

end Occurrences

/-! ## Lists of tokens and nodes -/

/-- The nodes hold the significant tokens in their order and fit them, and the primary expressions
among them occur where their tokens stand. -/
structure Holds (ts : List Token) (ns : List Node) : Prop where
  tokens : ns.map Node.token = Token.significant ts
  fits : ∀ n ∈ ns, n.Fits
  occurs : ∀ e, .expr e ∈ ns → e.IsPrimary → Occurs ts e

section Lists

variable {ts us : List Token} {ns ms : List Node} {t : Token} {kind : TokenKind}

theorem holds_nil : Holds [] [] where
  tokens := rfl
  fits := List.forall_mem_nil _
  occurs _ mem := absurd mem List.not_mem_nil

theorem Holds.append (h : Holds ts ns) (h' : Holds us ms)
    (follow : ∀ t ∈ us.head?, t.kind ≠ .symbol .leftParen) : Holds (ts ++ us) (ns ++ ms) where
  tokens := by
    rw [List.map_append, h.tokens, h'.tokens]
    exact (List.filter_append _ _).symm
  fits n mem := (List.mem_append.mp mem).elim (h.fits n) (h'.fits n)
  occurs e mem primary := by
    rcases List.mem_append.mp mem with mem | mem
    · exact (h.occurs e mem primary).append follow
    · exact (h'.occurs e mem primary).prepend ts

theorem Holds.delimiter (h : Holds ts ns) (here : t.kind = kind)
    (delimits : kind.isDelimiter = true) : Holds (t :: ts) ns where
  tokens := by
    rw [h.tokens, Token.significant, Token.significant,
      List.filter_cons_of_neg (by simp [here, delimits])]
  fits := h.fits
  occurs e mem primary := (h.occurs e mem primary).prepend [t]

/-- A node that holds the token in front of the others. -/
theorem Holds.node (h : Holds ts ns) {n : Node} (mine : n.token = t) (here : t.kind = kind)
    (stands : kind.isDelimiter = false) (fits : n.Fits)
    (occurs : ∀ e, n = .expr e → e.IsPrimary → Occurs (t :: ts) e) :
    Holds (t :: ts) (n :: ns) where
  tokens := by
    rw [List.map_cons, h.tokens, mine, Token.significant, Token.significant,
      List.filter_cons_of_pos (by simp [here, stands])]
  fits := List.forall_mem_cons.mpr ⟨fits, h.fits⟩
  occurs e mem primary := by
    rcases List.mem_cons.mp mem with same | mem
    · exact occurs e same.symm primary
    · exact (h.occurs e mem primary).prepend [t]

theorem Holds.ident (h : Holds ts ns) (name : t.kind = .identifier) :
    Holds (t :: ts) (.ident (ident t) :: ns) :=
  h.node rfl name rfl ⟨name, rfl⟩ nofun

theorem Holds.primary {e : Expr} (h : Holds ts ns) (derived : Primary (t :: ts) e)
    (mine : e.token = t) (here : t.kind = kind) (stands : kind.isDelimiter = false)
    (fits : e.Fits) : Holds (t :: ts) (.expr e :: ns) := by
  subst mine
  refine h.node rfl here stands fits ?_
  rintro _ ⟨⟩ _
  exact occurs_self derived

/-- A delimiter between two parts, which does not pass an argument. -/
theorem Holds.between (h : Holds ts ns) (h' : Holds us ms) (here : t.kind = kind)
    (delimits : kind.isDelimiter = true ∧ kind ≠ .symbol .leftParen) :
    Holds (ts ++ t :: us) (ns ++ ms) := by
  refine h.append (h'.delimiter here delimits.1) ?_
  rintro _ ⟨⟩
  rw [here]
  exact delimits.2

theorem Holds.closed (h : Holds ts ns) (here : t.kind = kind)
    (delimits : kind.isDelimiter = true ∧ kind ≠ .symbol .leftParen) : Holds (ts ++ [t]) ns := by
  have whole := h.between holds_nil here delimits
  rwa [List.append_nil] at whole

end Lists

/-! ## Derivations -/

theorem Number.toInt_eq {t : Token} {v : Int64} (number : Number t v) :
    v.toInt = Decimal.value t.literal.toList := by
  have inRange := number.inRange
  rw [number.value]
  exact Int64.toInt_ofInt_of_le (by omega) (by omega)

theorem Prefixes.symbol {kind : TokenKind} {op : UnaryOp} (h : Prefixes kind op) :
    kind = .symbol op.symbol := by
  cases h <;> rfl

theorem Joins.symbol {k : Nat} {kind : TokenKind} {op : BinaryOp} (h : Joins k kind op) :
    kind = .symbol op.symbol := by
  cases h <;> rfl

theorem Arguments.nonempty {ts : List Token} {es : List Expr} (h : Arguments ts es) : es ≠ [] := by
  cases h <;> exact List.cons_ne_nil _ _

theorem Bindings.nonempty {ts : List Token} {bs : List Binding} (h : Bindings ts bs) : bs ≠ [] := by
  cases h <;> exact List.cons_ne_nil _ _

mutual

theorem Primary.holds {ts : List Token} {e : Expr} (h : Primary ts e) : Holds ts e.nodes := by
  match h with
  | .integer number =>
    exact holds_nil.primary (.integer number) rfl number.kind rfl
      ⟨number.kind, number.nonempty, number.digits, number.toInt_eq⟩
  | .var name => exact holds_nil.primary (.var name) rfl name rfl ⟨name, rfl⟩
  | .call name args =>
    exact args.holds.primary (.call name args) rfl name rfl ⟨name, rfl, args.nonempty⟩
  | .unary sign operand =>
    exact operand.holds.primary (.unary sign operand) rfl sign.symbol (UnaryOp.stands _)
      sign.symbol
  | .group left inner right =>
    exact (inner.holds.closed right (by decide)).delimiter left rfl
  | .cond ifKw test thenKw thenBranch elseKw elseBranch endKw =>
    have branches := thenBranch.holds.between (elseBranch.holds.closed endKw (by decide)) elseKw
      (by decide)
    have parts := test.holds.between branches thenKw (by decide)
    exact parts.primary (.cond ifKw test thenKw thenBranch elseKw elseBranch endKw) rfl ifKw rfl
      ifKw
  | .letIn letKw bindings inKw body endKw =>
    have parts := bindings.holds.between (body.holds.closed endKw (by decide)) inKw (by decide)
    exact parts.primary (.letIn letKw bindings inKw body endKw) rfl letKw rfl
      ⟨letKw, bindings.nonempty⟩
  | .loop loopKw bindings inKw body endKw =>
    have parts := bindings.holds.between (body.holds.closed endKw (by decide)) inKw (by decide)
    exact parts.primary (.loop loopKw bindings inKw body endKw) rfl loopKw rfl
      ⟨loopKw, bindings.nonempty⟩
  | .recur recurKw args =>
    exact args.holds.primary (.recur recurKw args) rfl recurKw rfl ⟨recurKw, args.nonempty⟩

theorem Tier.holds {k : Nat} {ts : List Token} {e : Expr} (h : Tier k ts e) :
    Holds ts e.nodes := by
  match h with
  | .primary operand => exact operand.holds
  | .next operand => exact operand.holds
  | .join (t := t) (a := a) (b := b) lhs sign rhs =>
    have right := rhs.holds.node (n := .expr (.binary t _ a b)) rfl sign.symbol
      (BinaryOp.stands _) sign.symbol (by rintro _ ⟨⟩ ⟨⟩)
    refine lhs.holds.append right ?_
    rintro _ ⟨⟩ here
    rw [here] at sign
    cases sign

theorem Arguments.holds {ts : List Token} {es : List Expr} (h : Arguments ts es) :
    Holds ts (Expr.allNodes es) := by
  match h with
  | .last left arg right =>
    have first := (arg.holds.closed right (by decide)).delimiter left rfl
    rwa [Expr.allNodes, Expr.allNodes, List.append_nil]
  | .cons left arg right others =>
    exact (arg.holds.between others.holds right (by decide)).delimiter left rfl

theorem Bindings.holds {ts : List Token} {bs : List Binding} (h : Bindings ts bs) :
    Holds ts (Binding.allNodes bs) := by
  match h with
  | .last name assign value =>
    have first := (value.holds.delimiter assign rfl).ident name
    rwa [Binding.allNodes, Binding.allNodes, List.append_nil]
  | .cons name assign value andKw others =>
    exact ((value.holds.between others.holds andKw (by decide)).delimiter assign rfl).ident name

end

/-! ## Functions -/

theorem holds_params {ps : List Token} (names : ∀ p ∈ ps, p.kind = .identifier) :
    Holds ps ((ps.map ident).map .ident) := by
  induction ps with
  | nil => exact holds_nil
  | cons p ps ih =>
    obtain ⟨name, names⟩ := List.forall_mem_cons.mp names
    exact (ih names).ident name

theorem Function.holds {ts : List Token} {f : LoopLang.Function} (h : Function ts f) :
    Holds ts f.nodes := by
  obtain ⟨letKw, name, params, nonempty, assign, body, endKw⟩ := h
  have parts := (holds_params params).between (body.holds.closed endKw (by decide)) assign
    (by decide)
  refine (parts.ident name).node rfl letKw rfl ⟨letKw, ?_⟩ nofun
  exact fun empty => nonempty (List.map_eq_nil_iff.mp empty)

/-- Functions begin with a `let` and the name of the first of them. -/
theorem Function.exists_front {ts : List Token} {f : LoopLang.Function} (h : Function ts f) :
    ∃ us, ts = f.token :: f.ident.token :: us ∧ f.token.kind = .keyword .letKw
      ∧ f.ident = ident f.ident.token ∧ f.ident.token.kind = .identifier := by
  obtain ⟨letKw, name, params, nonempty, assign, body, endKw⟩ := h
  exact ⟨_, rfl, letKw, rfl, name⟩

theorem Functions.head {ts : List Token} {fs : List LoopLang.Function} (h : Functions ts fs) :
    ∀ t ∈ ts.head?, t.kind = .keyword .letKw := by
  cases h with
  | last function =>
    obtain ⟨us, rfl, letKw, _⟩ := function.exists_front
    rintro _ ⟨⟩
    exact letKw
  | cons function _ =>
    obtain ⟨us, rfl, letKw, _⟩ := function.exists_front
    rintro _ ⟨⟩
    exact letKw

theorem Functions.holds {ts : List Token} {fs : List LoopLang.Function} (h : Functions ts fs) :
    Holds ts (fs.flatMap LoopLang.Function.nodes) := by
  induction h with
  | last function =>
    rw [List.flatMap_cons, List.flatMap_nil, List.append_nil]
    exact function.holds
  | cons function others ih =>
    rw [List.flatMap_cons]
    refine function.holds.append ih fun t mem here => ?_
    rw [others.head t mem] at here
    cases here

theorem Functions.nonempty {ts : List Token} {fs : List LoopLang.Function} (h : Functions ts fs) :
    fs ≠ [] := by
  cases h <;> exact List.cons_ne_nil _ _

/-! ## Parsed texts -/

/-- What is told of the tree of a parse is true of a tree. -/
theorem exists_of_toOption_map {α β : Type} {x : Except (List Diagnostic) α} {g : α → β} {b : β}
    (told : x.toOption.map g = some b) : ∃ a, x = .ok a ∧ g a = b := by
  cases x with
  | error ds => cases told
  | ok a => exact ⟨a, rfl, Option.some.inj told⟩

open Lexical (tokensOf)

/-- The nodes hold the significant tokens of a source text in their order and fit them. If the text
has fewer than `2 ^ 32 - 1` characters, no two nodes share a place. -/
structure KeepsTokens (source : String) (nodes : List Node) : Prop where
  tokens : nodes.map Node.token = Token.significant (tokensOf source)
  distinct : source.length < UInt32.size - 1 → (nodes.map Node.pos).Nodup
  fits : ∀ n ∈ nodes, n.Fits

theorem tokensOf_eq {source : String} {ts : List Token}
    (scanned : (Cursor.ofSource source).results = ts.map .ok) : tokensOf source = ts := by
  rw [tokensOf, scanned, Lexical.tokens_map_ok]

/-- The tokens of a short source text stand at places of their own. -/
theorem nodup_tokensOf {source : String} (short : source.length < UInt32.size - 1) :
    ((tokensOf source).map Token.pos).Nodup := by
  have sorted := (List.pairwise_append.mp (Cursor.tokensToEnd_pairwise short)).1
  exact List.pairwise_map.mpr (sorted.imp Position.Before.ne)

theorem Holds.keepsTokens {source : String} {nodes : List Node}
    (h : Holds (tokensOf source) nodes) : KeepsTokens source nodes := by
  refine ⟨h.tokens, fun short => ?_, h.fits⟩
  have places : nodes.map Node.pos = (Token.significant (tokensOf source)).map Token.pos := by
    rw [← h.tokens, List.map_map]
    rfl
  rw [places]
  exact (nodup_tokensOf short).sublist (List.filter_sublist.map _)

/-- What the nodes of a parsed program hold. -/
theorem holds_of_parse {source : String} {p : LoopLang.Program}
    (parsed : Program.parse source = .ok p) : Holds (tokensOf source) p.nodes := by
  obtain ⟨ts, scanned, derived⟩ := parse_program_iff.mp parsed
  rw [tokensOf_eq scanned]
  exact Functions.holds derived

/-- **No token is lost.** The nodes of a parsed tree hold exactly the tokens of the source text, but
for the delimiters, in their order; so no two of them share a place, if the text has fewer than
`2 ^ 32 - 1` characters. Each node holds the token that it is written with, and nothing that may not
be empty is. -/
theorem parse_keeps_tokens (source : String) :
    (∀ p, Program.parse source = .ok p → KeepsTokens source p.nodes ∧ p.functions ≠ [])
    ∧ ∀ e, Expr.parse source = .ok e → KeepsTokens source e.nodes := by
  refine ⟨fun p parsed => ?_, fun e parsed => ?_⟩
  · obtain ⟨ts, _, derived⟩ := parse_program_iff.mp parsed
    exact ⟨(holds_of_parse parsed).keepsTokens, Functions.nonempty derived⟩
  · obtain ⟨ts, scanned, derived⟩ := parse_expression_iff.mp parsed
    rw [← tokensOf_eq scanned] at derived
    exact (Tier.holds derived).keepsTokens

theorem parse_keeps_tokens_loop :
    ∃ p, Program.parse "let f n = loop i = -n and a = (1) in recur (a)(i * f(2)) end end" = .ok p
      ∧ KeepsTokens "let f n = loop i = -n and a = (1) in recur (a)(i * f(2)) end end" p.nodes
      ∧ p.functions ≠ [] ∧ (p.nodes.map Node.pos).Nodup := by
  have one : ((Program.parse
      "let f n = loop i = -n and a = (1) in recur (a)(i * f(2)) end end").toOption.map fun p =>
      p.functions.length) = some 1 := by decide +kernel
  obtain ⟨p, parsed, _⟩ := exists_of_toOption_map one
  obtain ⟨kept, nonempty⟩ := (parse_keeps_tokens
    "let f n = loop i = -n and a = (1) in recur (a)(i * f(2)) end end").1 p parsed
  exact ⟨p, parsed, kept, nonempty, kept.distinct (by decide)⟩

/-- Where the lines come round, two nodes may share a place: here the operands of a sum. -/
theorem nodes_share_place :
    ∃ e, Expr.parse (Lexical.farBelow "1 +" "1") = .ok e ∧ ¬(e.nodes.map Node.pos).Nodup := by
  have places : ((Expr.parse (Lexical.farBelow "1 +" "1")).toOption.map fun e =>
      e.nodes.map Node.pos) = some [⟨1, 1⟩, ⟨1, 3⟩, ⟨1, 1⟩] := by
    rw [Expr.parse, Parser.ofSource_farBelow (by decide)]
    decide +kernel
  obtain ⟨e, parsed, here⟩ := exists_of_toOption_map places
  refine ⟨e, parsed, ?_⟩
  rw [here]
  decide

end Grammar

end LoopLang
