import LoopLang.Proofs.Cursor.Scanning
import LoopLang.Proofs.Evaluation.StaticSoundness
import LoopLang.Proofs.Grammar.Acceptance
import LoopLang.Proofs.Printing.Words
import Mathlib.Logic.Basic

set_option autoImplicit false

/-! # What is written is read back

The words of a text with blanks between them are scanned as just these words. Tokens that are
written like the words of a tree derive this tree again, with themselves in it as its tokens: an
operand in parentheses is a primary expression, and one without them is of a tier that its place
admits. So a tree that is printed and parsed again is the same up to its tokens, with whatever
parentheses it was written. -/

namespace LoopLang

open Printing Lexical

/-! ## Scanning -/

theorem Lexical.layout_blanks {after gap : List Char} (blanks : ∀ c ∈ gap, Blank c) :
    Layout after gap := by
  induction gap with
  | nil => exact .nil
  | cons c gap ih =>
    obtain ⟨blank, blanks⟩ := List.forall_mem_cons.mp blanks
    exact .blank blank (ih blanks)

/-- Words with blanks between them are scanned as tokens that are written in this way. -/
theorem Printing.Spaced.exists_scan {ws : List Word} {text before : List Char}
    (spaced : Spaced ws text) (spelled : ∀ w ∈ ws, w.Spelled) :
    ∃ ts : List Token, ts.map Token.word = ws ∧ Scan before text (ts.map .ok) := by
  induction spaced generalizing before with
  | nil blanks => exact ⟨[], rfl, .done (layout_blanks blanks)⟩
  | @cons gap w ws rest blanks apart more ih =>
    obtain ⟨fits, spelled⟩ := List.forall_mem_cons.mp spelled
    obtain ⟨ts, same, scan⟩ : ∃ ts : List Token, ts.map Token.word = ws
        ∧ Scan (before ++ gap ++ w.literal.toList) rest (ts.map .ok) := ih spelled
    have read : ReadAs (.behind (before ++ gap)) rest w.literal.toList
        (.ok ⟨w.kind, String.ofList w.literal.toList, .behind (before ++ gap)⟩) :=
      .token fits fun c mem => not_extends_blank (apart c mem)
    rw [String.ofList_toList] at read
    refine ⟨⟨w.kind, w.literal, .behind (before ++ gap)⟩ :: ts, ?_, ?_⟩
    · rw [List.map_cons, same]
      rfl
    · exact .next (layout_blanks blanks) read scan

/-! ## Numbers -/

/-- A number without a sign is written as a run of digits that denotes it. -/
theorem Decimal.text_of_nonneg {v : Int64} (nonneg : 0 ≤ v) :
    (text v).toList ≠ [] ∧ (text v).toList.all Char.isDigit = true
      ∧ (value (text v).toList : Int) = v.toInt := by
  obtain ⟨n, same⟩ := Int.eq_ofNat_of_zero_le (Int64.le_iff_toInt_le.mp nonneg)
  have written : text v = n.repr := by
    rw [text, same]
    rfl
  have read := natural?_repr n
  rw [← written, natural?] at read
  split at read
  · next digits =>
    rw [same, ← Option.some.inj read]
    exact ⟨digits.1, digits.2, rfl⟩
  · cases read

theorem Grammar.number_of_word {t : Token} {v : Int64} (nonneg : 0 ≤ v)
    (here : t.word = .integer v) : Number t v := by
  obtain ⟨kind, literal⟩ := Word.mk.inj here
  obtain ⟨nonempty, digits, value⟩ := Decimal.text_of_nonneg nonneg
  rw [← literal] at nonempty digits value
  refine ⟨kind, nonempty, digits, ?_, ?_⟩
  · have := v.toInt_le
    have most : Int64.maxValue.toInt = 9223372036854775807 := rfl
    omega
  · rw [value, Int64.ofInt_toInt]

/-! ## Words that can be scanned -/

namespace Printing

/-- All the words can be read as tokens of their kinds. -/
def AllSpelled (ws : List Word) : Prop := ∀ w ∈ ws, w.Spelled

section Spelled

variable {w : Word} {ws vs : List Word}

@[simp] theorem Word.spelled_keyword (k : Keyword) : (Word.keyword k).Spelled := rfl

@[simp] theorem Word.spelled_symbol (s : Symbol) : (Word.symbol s).Spelled := rfl

@[simp] theorem Word.spelled_name {text : String} : (Word.name text).Spelled ↔ IsName text :=
  Iff.rfl

theorem Word.spelled_integer {v : Int64} (nonneg : 0 ≤ v) : (Word.integer v).Spelled := by
  obtain ⟨nonempty, digits, _⟩ := Decimal.text_of_nonneg nonneg
  exact ⟨nonempty, fun c mem => isDigit_iff.mp (List.all_eq_true.mp digits c mem)⟩

@[simp] theorem allSpelled_nil : AllSpelled [] := List.forall_mem_nil _

@[simp] theorem allSpelled_cons : AllSpelled (w :: ws) ↔ w.Spelled ∧ AllSpelled ws :=
  List.forall_mem_cons

@[simp] theorem allSpelled_append : AllSpelled (ws ++ vs) ↔ AllSpelled ws ∧ AllSpelled vs :=
  List.forall_mem_append

@[simp] theorem allSpelled_parens : AllSpelled (parens ws) ↔ AllSpelled ws := by
  simp [parens]

@[simp] theorem allSpelled_wrap {needed : Bool} : AllSpelled (wrap needed ws) ↔ AllSpelled ws := by
  cases needed <;> simp [wrap]

end Spelled

end Printing

mutual

theorem Expr.Written.allSpelled {e : Expr} {ws : List Word} (h : e.Written ws)
    (fine : e.Writable) : AllSpelled ws := by
  match h with
  | .parens inner => simp [inner.allSpelled fine]
  | .integer =>
    have nonneg := (List.forall_mem_cons.mp fine).1
    simp [Word.spelled_integer nonneg]
  | .var =>
    have name : IsName _ := (List.forall_mem_cons.mp fine).1
    simpa using name
  | .call args =>
    obtain ⟨⟨name, _⟩, parts⟩ := List.forall_mem_cons.mp fine
    simp [name, args.allSpelled parts]
  | .cond test thenBranch elseBranch =>
    obtain ⟨_, first, second, third⟩ := Expr.forall_nodes_cond.mp fine
    simp [test.allSpelled first, thenBranch.allSpelled second, elseBranch.allSpelled third]
  | .unary operand =>
    have part := (List.forall_mem_cons.mp fine).2
    simp [operand.allSpelled part]
  | .binary lhs rhs =>
    obtain ⟨first, _, last⟩ := Expr.forall_nodes_binary.mp fine
    simp [lhs.allSpelled first, rhs.allSpelled last]
  | .letIn bindings body =>
    obtain ⟨_, first, last⟩ := Expr.forall_nodes_letIn.mp fine
    simp [bindings.allSpelled first, body.allSpelled last]
  | .loop bindings body =>
    obtain ⟨_, first, last⟩ := Expr.forall_nodes_loop.mp fine
    simp [bindings.allSpelled first, body.allSpelled last]
  | .recur args =>
    have parts := (List.forall_mem_cons.mp fine).2
    simp [args.allSpelled parts]

theorem Expr.ArgsWritten.allSpelled {es : List Expr} {ws : List Word} (h : Expr.ArgsWritten es ws)
    (fine : ∀ n ∈ Expr.allNodes es, n.HasWords) : AllSpelled ws := by
  match h with
  | .last arg => simp [arg.allSpelled (List.forall_mem_append.mp fine).1]
  | .cons arg others =>
    obtain ⟨first, last⟩ := List.forall_mem_append.mp fine
    simp [arg.allSpelled first, others.allSpelled last]

theorem Binding.AllWritten.allSpelled {bs : List Binding} {ws : List Word}
    (h : Binding.AllWritten bs ws) (fine : ∀ n ∈ Binding.allNodes bs, n.HasWords) :
    AllSpelled ws := by
  match h with
  | .last value =>
    obtain ⟨name, first, _⟩ := Binding.forall_allNodes_cons.mp fine
    have named : IsName _ := name
    simp [named, value.allSpelled first]
  | .cons value others =>
    obtain ⟨name, first, last⟩ := Binding.forall_allNodes_cons.mp fine
    have named : IsName _ := name
    simp [named, value.allSpelled first, others.allSpelled last]

end

theorem Function.AllWritten.allSpelled {fs : List Function} {ws : List Word}
    (h : Function.AllWritten fs ws) (fine : ∀ n ∈ fs.flatMap Function.nodes, n.HasWords) :
    AllSpelled ws := by
  have function : ∀ {f : Function} {ws : List Word}, f.body.Written ws →
      (∀ n ∈ f.nodes, n.HasWords) → AllSpelled (f.wordsWith ws) := by
    intro f ws body fine
    have named : IsName f.name := fine (.ident f.ident) (by simp [Function.nodes])
    have params : AllSpelled (f.params.map fun i => .name i.name) := by
      refine List.forall_mem_map.mpr fun i mem => ?_
      exact fine (.ident i) (by simp [Function.nodes, mem])
    have inner := body.allSpelled fun n mem => fine n (by simp [Function.nodes, mem])
    simp [Function.wordsWith, named, params, inner]
  induction h with
  | last body =>
    rw [List.flatMap_cons] at fine
    exact function body (List.forall_mem_append.mp fine).1
  | cons body _ ih =>
    rw [List.flatMap_cons] at fine
    obtain ⟨first, last⟩ := List.forall_mem_append.mp fine
    simp [function body first, ih last]

/-! ## Derivations -/

namespace Grammar

section Words

variable {ts : List Token} {w : Word} {ws vs : List Word}

/-- The tokens that are written as these words begin with one for the first word. -/
theorem exists_front (same : ts.map Token.word = w :: ws) :
    ∃ t us, ts = t :: us ∧ t.word = w ∧ us.map Token.word = ws :=
  List.map_eq_cons_iff.mp same

/-- The tokens that are written as these words are split by the one for the word in their midst. -/
theorem exists_split (same : ts.map Token.word = ws ++ w :: vs) :
    ∃ us t rs, ts = us ++ t :: rs ∧ us.map Token.word = ws ∧ t.word = w
      ∧ rs.map Token.word = vs := by
  obtain ⟨us, rest, rfl, first, last⟩ := List.map_eq_append_iff.mp same
  obtain ⟨t, rs, rfl, here, behind⟩ := exists_front last
  exact ⟨us, t, rs, rfl, first, here, behind⟩

theorem exists_enclosed {l r : Word} (same : ts.map Token.word = l :: (ws ++ [r])) :
    ∃ t us u, ts = t :: (us ++ [u]) ∧ t.word = l ∧ us.map Token.word = ws ∧ u.word = r := by
  obtain ⟨t, rest, rfl, left, same⟩ := exists_front same
  obtain ⟨us, u, rs, rfl, inner, right, nothing⟩ := exists_split same
  obtain rfl := List.map_eq_nil_iff.mp nothing
  exact ⟨t, us, u, rfl, left, inner, right⟩

/-- The tokens of a block, which has two parts. -/
theorem exists_block {l i r : Word} (same : ts.map Token.word = l :: (vs ++ i :: (ws ++ [r]))) :
    ∃ t us u rs v, ts = t :: (us ++ u :: (rs ++ [v])) ∧ t.word = l ∧ us.map Token.word = vs
      ∧ u.word = i ∧ rs.map Token.word = ws ∧ v.word = r := by
  obtain ⟨t, rest, rfl, left, same⟩ := exists_front same
  obtain ⟨us, u, rest, rfl, first, middle, same⟩ := exists_split same
  obtain ⟨rs, v, _, rfl, last, right, nothing⟩ := exists_split same
  obtain rfl := List.map_eq_nil_iff.mp nothing
  exact ⟨t, us, u, rs, v, rfl, left, first, middle, last, right⟩

theorem kind_of_word {t : Token} (here : t.word = w) : t.kind = w.kind := congrArg Word.kind here

theorem literal_of_word {t : Token} (here : t.word = w) : t.literal = w.literal :=
  congrArg Word.literal here

end Words

theorem prefixes_symbol (op : UnaryOp) : Prefixes (.symbol op.symbol) op := by
  cases op <;> constructor

theorem joins_symbol (op : BinaryOp) : Joins op.precedence (.symbol op.symbol) op := by
  cases op <;> constructor

/-- The tokens derive the one expression, which is the other one up to tokens, in every tier that
the other one may stand in without parentheses. -/
structure Rereads (ts : List Token) (e e' : Expr) : Prop where
  tier : ∀ k ≤ 5, e.looserThan k = false → Tier k ts e'
  bare : e'.bare = e.bare

section Rereads

variable {ts us : List Token} {ws : List Word} {e e' : Expr} {k : Nat}

/-- No operation is looser than the first tier. -/
theorem Rereads.expression (h : Rereads ts e e') : Tier 1 ts e' := by
  refine h.tier 1 (by decide) ?_
  cases e with
  | binary _ op _ _ => simp [Expr.looserThan, Nat.not_lt.mpr op.precedence_pos]
  | _ => rfl

theorem Rereads.of_primary (derived : Primary ts e') (bare : e'.bare = e.bare) :
    Rereads ts e e' where
  tier _ le _ := (Tier.primary derived).mono le
  bare := bare

theorem Rereads.parens (inner : ∀ us, us.map Token.word = ws → ∃ e', Rereads us e e')
    (same : ts.map Token.word = parens ws) : ∃ e', Rereads ts e e' := by
  obtain ⟨l, us, r, rfl, left, inside, right⟩ := exists_enclosed same
  obtain ⟨e', reads⟩ := inner us inside
  have group : Primary _ e' :=
    .group (kind_of_word left) reads.expression (kind_of_word right)
  exact ⟨e', .of_primary group reads.bare⟩

/-- An operand is of the tier that its place asks for, in parentheses if it is looser. -/
theorem Rereads.wrap (inner : ∀ us, us.map Token.word = ws → ∃ e', Rereads us e e') (le : k ≤ 5)
    (same : ts.map Token.word = wrap (e.looserThan k) ws) :
    ∃ e', Tier k ts e' ∧ e'.bare = e.bare := by
  cases looser : e.looserThan k with
  | true =>
    rw [looser] at same
    obtain ⟨l, us, r, rfl, left, inside, right⟩ := exists_enclosed same
    obtain ⟨e', reads⟩ := inner us inside
    have group := Primary.group (kind_of_word left) reads.expression (kind_of_word right)
    exact ⟨e', (Tier.primary group).mono le, reads.bare⟩
  | false =>
    rw [looser] at same
    obtain ⟨e', reads⟩ := inner ts same
    exact ⟨e', reads.tier k le looser, reads.bare⟩

theorem ident_bare {t : Token} {i : Ident} (here : t.word = .name i.name) :
    (ident t).bare = i.bare :=
  congrArg (Ident.mk .none) (literal_of_word here)

end Rereads

mutual

/-- Tokens that are written like an expression derive it, up to its tokens. -/
theorem rereads_of_written {e : Expr} {ws : List Word} (h : e.Written ws) (fine : e.Writable)
    {ts : List Token} (same : ts.map Token.word = ws) : ∃ e', Rereads ts e e' := by
  match h with
  | .parens inner =>
    exact Rereads.parens (fun us inside => rereads_of_written inner fine inside) same
  | .integer =>
    have nonneg := (List.forall_mem_cons.mp fine).1
    obtain ⟨t, _, rfl, here, nothing⟩ := exists_front same
    obtain rfl := List.map_eq_nil_iff.mp nothing
    exact ⟨_, .of_primary (.integer (number_of_word nonneg here)) rfl⟩
  | .var =>
    obtain ⟨t, _, rfl, here, nothing⟩ := exists_front same
    obtain rfl := List.map_eq_nil_iff.mp nothing
    obtain rfl := literal_of_word here
    exact ⟨_, .of_primary (.var (kind_of_word here)) rfl⟩
  | .call args =>
    obtain ⟨t, us, rfl, here, same⟩ := exists_front same
    obtain ⟨es, args, bare⟩ := arguments_of_written args (List.forall_mem_cons.mp fine).2 same
    obtain rfl := literal_of_word here
    refine ⟨_, .of_primary (.call (kind_of_word here) args) ?_⟩
    rw [Expr.bare, Expr.bare, bare]
  | .cond test thenBranch elseBranch =>
    obtain ⟨_, first, second, third⟩ := Expr.forall_nodes_cond.mp fine
    obtain ⟨i, _, rfl, ifKw, same⟩ := exists_front same
    obtain ⟨cs, t, _, rfl, inTest, thenKw, same⟩ := exists_split same
    obtain ⟨as, l, _, rfl, inThen, elseKw, same⟩ := exists_split same
    obtain ⟨bs, r, _, rfl, inElse, endKw, nothing⟩ := exists_split same
    obtain rfl := List.map_eq_nil_iff.mp nothing
    obtain ⟨c, test⟩ := rereads_of_written test first inTest
    obtain ⟨a, thenBranch⟩ := rereads_of_written thenBranch second inThen
    obtain ⟨b, elseBranch⟩ := rereads_of_written elseBranch third inElse
    refine ⟨_, .of_primary (.cond (kind_of_word ifKw) test.expression (kind_of_word thenKw)
      thenBranch.expression (kind_of_word elseKw) elseBranch.expression (kind_of_word endKw)) ?_⟩
    rw [Expr.bare, Expr.bare, test.bare, thenBranch.bare, elseBranch.bare]
  | @Expr.Written.unary t op e ws operand =>
    have part := (List.forall_mem_cons.mp fine).2
    obtain ⟨t, us, rfl, sign, same⟩ := exists_front same
    obtain ⟨a, operand, bare⟩ := Rereads.wrap (fun us => rereads_of_written operand part)
      (Nat.le_refl 5) same
    have sign : Prefixes t.kind op := kind_of_word sign ▸ prefixes_symbol op
    refine ⟨_, .of_primary (.unary sign (operand.toPrimary (Nat.le_refl 5))) ?_⟩
    rw [Expr.bare, Expr.bare, bare]
  | @Expr.Written.binary t op a b as bs lhs rhs =>
    obtain ⟨first, _, last⟩ := Expr.forall_nodes_binary.mp fine
    obtain ⟨us, t, vs, rfl, left, sign, right⟩ := exists_split same
    have sign : Joins op.precedence t.kind op := kind_of_word sign ▸ joins_symbol op
    obtain ⟨a, lhs, bare⟩ := Rereads.wrap (fun us => rereads_of_written lhs first)
      (Nat.le_of_lt sign.lt) left
    obtain ⟨b, rhs, bare'⟩ := Rereads.wrap (fun us => rereads_of_written rhs last) sign.lt right
    refine ⟨.binary t op a b, fun k _ tight => ?_, ?_⟩
    · have least : k ≤ op.precedence := by simpa [Expr.looserThan] using tight
      exact (Tier.join lhs sign rhs).mono least
    · rw [Expr.bare, Expr.bare, bare, bare']
  | .letIn bindings body =>
    obtain ⟨_, first, last⟩ := Expr.forall_nodes_letIn.mp fine
    obtain ⟨l, us, i, vs, r, rfl, letKw, inBindings, inKw, inBody, endKw⟩ := exists_block same
    obtain ⟨bs, bindings, bare⟩ := bindings_of_written bindings first inBindings
    obtain ⟨e, body⟩ := rereads_of_written body last inBody
    refine ⟨_, .of_primary (.letIn (kind_of_word letKw) bindings (kind_of_word inKw)
      body.expression (kind_of_word endKw)) ?_⟩
    rw [Expr.bare, Expr.bare, bare, body.bare]
  | .loop bindings body =>
    obtain ⟨_, first, last⟩ := Expr.forall_nodes_loop.mp fine
    obtain ⟨l, us, i, vs, r, rfl, loopKw, inBindings, inKw, inBody, endKw⟩ := exists_block same
    obtain ⟨bs, bindings, bare⟩ := bindings_of_written bindings first inBindings
    obtain ⟨e, body⟩ := rereads_of_written body last inBody
    refine ⟨_, .of_primary (.loop (kind_of_word loopKw) bindings (kind_of_word inKw)
      body.expression (kind_of_word endKw)) ?_⟩
    rw [Expr.bare, Expr.bare, bare, body.bare]
  | .recur args =>
    obtain ⟨t, us, rfl, here, same⟩ := exists_front same
    obtain ⟨es, args, bare⟩ := arguments_of_written args (List.forall_mem_cons.mp fine).2 same
    refine ⟨_, .of_primary (.recur (kind_of_word here) args) ?_⟩
    rw [Expr.bare, Expr.bare, bare]

theorem arguments_of_written {es : List Expr} {ws : List Word} (h : Expr.ArgsWritten es ws)
    (fine : ∀ n ∈ Expr.allNodes es, n.HasWords) {ts : List Token}
    (same : ts.map Token.word = ws) :
    ∃ es', Arguments ts es' ∧ Expr.allBare es' = Expr.allBare es := by
  match h with
  | .last arg =>
    obtain ⟨first, _⟩ := List.forall_mem_append.mp fine
    obtain ⟨l, us, r, rfl, left, inside, right⟩ := exists_enclosed same
    obtain ⟨e, arg⟩ := rereads_of_written arg first inside
    refine ⟨[e], .last (kind_of_word left) arg.expression (kind_of_word right), ?_⟩
    simp [Expr.allBare, arg.bare]
  | .cons arg others =>
    obtain ⟨first, last⟩ := List.forall_mem_append.mp fine
    obtain ⟨ls, vs, rfl, enclosed, behind⟩ := List.map_eq_append_iff.mp same
    obtain ⟨l, us, r, rfl, left, inside, right⟩ := exists_enclosed enclosed
    obtain ⟨e, arg⟩ := rereads_of_written arg first inside
    obtain ⟨es, others, bare⟩ := arguments_of_written others last behind
    refine ⟨e :: es, ?_, ?_⟩
    · simpa using Arguments.cons (kind_of_word left) arg.expression (kind_of_word right) others
    · rw [Expr.allBare, Expr.allBare, arg.bare, bare]

theorem bindings_of_written {bs : List Binding} {ws : List Word} (h : Binding.AllWritten bs ws)
    (fine : ∀ n ∈ Binding.allNodes bs, n.HasWords) {ts : List Token}
    (same : ts.map Token.word = ws) :
    ∃ bs', Bindings ts bs' ∧ Binding.allBare bs' = Binding.allBare bs := by
  match h with
  | .last value =>
    obtain ⟨_, first, _⟩ := Binding.forall_allNodes_cons.mp fine
    obtain ⟨t, _, rfl, name, same⟩ := exists_front same
    obtain ⟨s, us, rfl, assign, same⟩ := exists_front same
    obtain ⟨e, value⟩ := rereads_of_written value first same
    refine ⟨_, .last (kind_of_word name) (kind_of_word assign) value.expression, ?_⟩
    simp [Binding.allBare, value.bare, ident_bare name]
  | .cons value others =>
    obtain ⟨_, first, last⟩ := Binding.forall_allNodes_cons.mp fine
    obtain ⟨t, _, rfl, name, same⟩ := exists_front same
    obtain ⟨s, us, rfl, assign, same⟩ := exists_front same
    obtain ⟨us, a, vs, rfl, inValue, andKw, behind⟩ := exists_split same
    obtain ⟨e, value⟩ := rereads_of_written value first inValue
    obtain ⟨bs, others, bare⟩ := bindings_of_written others last behind
    refine ⟨_, .cons (kind_of_word name) (kind_of_word assign) value.expression
      (kind_of_word andKw) others, ?_⟩
    rw [Binding.allBare, Binding.allBare, value.bare, bare, ident_bare name]

end

theorem params_of_written {is : List Ident} {ts : List Token}
    (same : ts.map Token.word = is.map fun i => .name i.name) :
    (∀ t ∈ ts, t.kind = .identifier) ∧ (ts.map ident).map Ident.bare = is.map Ident.bare := by
  induction is generalizing ts with
  | nil =>
    obtain rfl := List.map_eq_nil_iff.mp same
    simp
  | cons i is ih =>
    obtain ⟨t, us, rfl, name, others⟩ := exists_front same
    obtain ⟨names, bare⟩ := ih others
    refine ⟨List.forall_mem_cons.mpr ⟨kind_of_word name, names⟩, ?_⟩
    rw [List.map_cons, List.map_cons, List.map_cons, bare, ident_bare name]

theorem function_of_written {f : LoopLang.Function} {ws : List Word} (body : f.body.Written ws)
    (fine : ∀ n ∈ f.nodes, n.HasWords) {ts : List Token}
    (same : ts.map Token.word = f.wordsWith ws) : ∃ g, Function ts g ∧ g.bare = f.bare := by
  obtain ⟨l, _, rfl, letKw, same⟩ := exists_front same
  obtain ⟨t, _, rfl, name, same⟩ := exists_front same
  obtain ⟨ps, s, _, rfl, inParams, assign, same⟩ := exists_split same
  obtain ⟨us, r, _, rfl, inBody, endKw, nothing⟩ := exists_split same
  obtain rfl := List.map_eq_nil_iff.mp nothing
  obtain ⟨names, bare⟩ := params_of_written inParams
  have nonempty : ps ≠ [] := by
    rintro rfl
    exact fine (.function f) (by simp [Function.nodes]) (List.map_eq_nil_iff.mp inParams.symm)
  obtain ⟨e, reads⟩ :=
    rereads_of_written body (fun n mem => fine n (by simp [Function.nodes, mem])) inBody
  refine ⟨_, .mk (kind_of_word letKw) (kind_of_word name) names nonempty (kind_of_word assign)
    reads.expression (kind_of_word endKw), ?_⟩
  simp only [Function.bare, bare, reads.bare]
  rw [ident_bare (i := f.ident) name]

theorem functions_of_written {fs : List LoopLang.Function} {ws : List Word}
    (h : Function.AllWritten fs ws) (fine : ∀ n ∈ fs.flatMap Function.nodes, n.HasWords)
    {ts : List Token} (same : ts.map Token.word = ws) :
    ∃ gs, Functions ts gs ∧ gs.map Function.bare = fs.map Function.bare := by
  induction h generalizing ts with
  | last body =>
    rw [List.flatMap_cons] at fine
    obtain ⟨g, function, bare⟩ := function_of_written body (List.forall_mem_append.mp fine).1 same
    exact ⟨[g], .last function, congrArg ([·]) bare⟩
  | cons body _ ih =>
    rw [List.flatMap_cons] at fine
    obtain ⟨first, last⟩ := List.forall_mem_append.mp fine
    obtain ⟨us, vs, rfl, here, behind⟩ := List.map_eq_append_iff.mp same
    obtain ⟨g, function, bare⟩ := function_of_written body first here
    obtain ⟨gs, others, bare'⟩ := ih last behind
    exact ⟨g :: gs, .cons function others, congrArg₂ List.cons bare bare'⟩

end Grammar

/-! ## Parsing what is written -/

/-- Words with blanks between them are the tokens of the text. -/
theorem Printing.Spaced.exists_tokens {source : String} {ws : List Word}
    (spaced : Spaced ws source.toList) (spelled : AllSpelled ws) :
    ∃ ts : List Token, ts.map Token.word = ws
      ∧ (Cursor.ofSource source).results = ts.map .ok := by
  obtain ⟨ts, same, scan⟩ := @Spaced.exists_scan ws source.toList [] spaced spelled
  exact ⟨ts, same, scan.results_eq⟩

/-- Every text of these words, with blanks between them, parses to the program, up to its tokens. -/
def Program.ReadsBack (p : Program) (ws : List Word) : Prop :=
  ∀ source : String, Spaced ws source.toList →
    ∃ q, Program.parse source = .ok q ∧ q.bare = p.bare

/-- Every text of these words, with blanks between them, parses to the expression, up to its
tokens. -/
def Expr.ReadsBack (e : Expr) (ws : List Word) : Prop :=
  ∀ source : String, Spaced ws source.toList →
    ∃ e', Expr.parse source = .ok e' ∧ e'.bare = e.bare

theorem Program.readsBack_of_written {p : Program} (fine : p.Writable) {ws : List Word}
    (written : p.Written ws) : p.ReadsBack ws := by
  intro source spaced
  obtain ⟨ts, same, scanned⟩ := spaced.exists_tokens (Function.AllWritten.allSpelled written fine.2)
  obtain ⟨gs, derived, bare⟩ := Grammar.functions_of_written written fine.2 same
  exact ⟨⟨gs⟩, Grammar.parse_program_iff.mpr ⟨ts, scanned, derived⟩, congrArg Program.mk bare⟩

theorem Expr.readsBack_of_written {e : Expr} (fine : e.Writable) {ws : List Word}
    (written : e.Written ws) : e.ReadsBack ws := by
  intro source spaced
  obtain ⟨ts, same, scanned⟩ := spaced.exists_tokens (written.allSpelled fine)
  obtain ⟨e', reads⟩ := Grammar.rereads_of_written written fine same
  exact ⟨e', Grammar.parse_expression_iff.mpr ⟨ts, scanned, reads.expression⟩, reads.bare⟩

/-- **What is printed is parsed as the same tree.** A tree whose numbers have no sign, whose names
are names and whose lists are not empty, written with parentheses only where they are needed or with
any further ones, is what the text parses to, but for the tokens. -/
theorem parse_written :
    (∀ p : Program, p.Writable →
      p.ReadsBack p.words ∧ ∀ ws, p.Written ws → p.ReadsBack ws)
    ∧ ∀ e : Expr, e.Writable →
      e.ReadsBack e.words ∧ ∀ ws, e.Written ws → e.ReadsBack ws :=
  ⟨fun _ fine => ⟨Program.readsBack_of_written fine (Program.written_words fine),
      fun _ => Program.readsBack_of_written fine⟩,
    fun _ fine => ⟨Expr.readsBack_of_written fine (Expr.written_words fine),
      fun _ => Expr.readsBack_of_written fine⟩⟩

/-- The expression `-(1 + n) * (n * 2)`, without the tokens of its source. -/
def Expr.grouped : Expr :=
  let n : Expr := .var .none "n"
  .binary .none .mul (.unary .none .neg (.binary .none .add (.integer .none 1) n))
    (.binary .none .mul n (.integer .none 2))

theorem parse_written_sum :
    Program.sum.Writable ∧ Expr.grouped.Writable
      ∧ Expr.grouped.print = "- ( 1 + n ) * ( n * 2 ) "
      ∧ (∃ q, Program.parse Program.sum.print = .ok q ∧ q.bare = Program.sum.bare)
      ∧ (∃ e, Expr.parse Expr.grouped.print = .ok e ∧ e.bare = Expr.grouped.bare)
      ∧ Expr.grouped.ReadsBack (parens Expr.grouped.words) := by
  have program : Program.sum.Writable := by decide
  have expression : Expr.grouped.Writable := by decide
  have further := Expr.Written.parens (Expr.written_words expression)
  exact ⟨program, expression, by decide +kernel,
    (parse_written.1 _ program).1 _ (Program.spaced_print _),
    (parse_written.2 _ expression).1 _ (Expr.spaced_print _),
    (parse_written.2 _ expression).2 _ further⟩

end LoopLang
