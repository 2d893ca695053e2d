import LoopLang.Expr.Prefix
import LoopLang.Proofs.Printing.Words

set_option autoImplicit false

/-! # The prefix text tells the tree

The prefix text of an expression begins with its front, which goes up to the first blank or closing
parenthesis and tells of what form the expression is. What stands behind the front is made of the
texts of its parts, and no part ends where another one could go on: behind every text stands a blank
or a closing parenthesis, and neither is part of a name, a number or an operator. So two
expressions have one text only if they are the same tree, but for the tokens. -/

namespace LoopLang

open Printing Lexical

/-! ## Pieces of text -/

namespace Printing

/-- Nothing, or something that begins with a blank or a closing parenthesis. -/
def AtGap (rest : List Char) : Prop := ∀ c ∈ rest.head?, c = ' ' ∨ c = ')'

/-- A piece without blanks and closing parentheses. -/
def Solid (piece : List Char) : Prop := ∀ c ∈ piece, c ≠ ' ' ∧ c ≠ ')'

instance : DecidablePred Solid := fun piece =>
  List.decidableBAll (fun c => c ≠ ' ' ∧ c ≠ ')') piece

@[simp] theorem atGap_blank (rest : List Char) : AtGap (' ' :: rest) := by simp [AtGap]

@[simp] theorem atGap_closing (rest : List Char) : AtGap (')' :: rest) := by simp [AtGap]

/-- A solid piece goes up to the first gap, so a text begins with one of them only. -/
theorem Solid.unique {a b r s : List Char} (solid : Solid a) (solid' : Solid b) (gap : AtGap r)
    (gap' : AtGap s) (same : a ++ r = b ++ s) : a = b ∧ r = s := by
  have front : ∀ {a r : List Char}, Solid a → AtGap r →
      (a ++ r).takeWhile (fun c => c != ' ' && c != ')') = a := by
    intro a r solid gap
    refine takeWhile_append_of_head? (fun c mem => by simpa using solid c mem) fun c mem => ?_
    rcases gap c mem with rfl | rfl <;> decide
  obtain rfl : a = b := by rw [← front solid gap, same, front solid' gap']
  exact ⟨rfl, List.append_cancel_left same⟩

theorem solid_of_word {text : List Char} (word : Lexical.Word text) : Solid text := by
  obtain ⟨c, cs, rfl, letter, parts⟩ := word
  have apart : ∀ d, Letter d ∨ Digit d → d ≠ ' ' ∧ d ≠ ')' := by
    intro d part
    refine ⟨?_, ?_⟩
    · rintro rfl
      exact absurd part (by unfold Letter Digit; decide)
    · rintro rfl
      exact absurd part (by unfold Letter Digit; decide)
  exact List.forall_mem_cons.mpr ⟨apart c (Or.inl letter), fun d mem => apart d (parts d mem)⟩

/-- Texts with blanks between them, in front of a closing parenthesis. -/
def listing (texts : List String) (rest : List Char) : List Char :=
  (" ".intercalate texts).toList ++ ')' :: rest

/-- The texts behind the first one of a list. -/
def others (texts : List String) (rest : List Char) : List Char :=
  match texts with
  | [] => ')' :: rest
  | text :: texts => ' ' :: (text.toList ++ others texts rest)

theorem listing_nil (rest : List Char) : listing [] rest = ')' :: rest := by
  simp [listing]

theorem listing_cons (text : String) (texts : List String) (rest : List Char) :
    listing (text :: texts) rest = text.toList ++ others texts rest := by
  induction texts generalizing text with
  | nil => simp [listing, others]
  | cons next texts ih =>
    rw [others, ← ih, listing, listing, String.intercalate_cons_cons]
    simp

theorem atGap_others (texts : List String) (rest : List Char) : AtGap (others texts rest) := by
  cases texts with
  | nil => exact atGap_closing rest
  | cons text texts => exact atGap_blank _

/-! ## Texts that end by themselves -/

section Distinct

variable {α β : Type} {text : α → String} {bare : α → β} {fine : α → Prop}

/-- Where the text of `a` stands in front of a gap, it is the text of nothing but what is like
`a`. -/
def Distinct (text : α → String) (bare : α → β) (fine : α → Prop) (a : α) : Prop :=
  ∀ (b : α) (r s : List Char), fine b → AtGap r → AtGap s →
    (text a).toList ++ r = (text b).toList ++ s → bare a = bare b ∧ r = s

theorem Distinct.before_blank {a b : α} (distinct : Distinct text bare fine a) (isFine : fine b)
    {r s : List Char} (same : ' ' :: ((text a).toList ++ ' ' :: r) =
      ' ' :: ((text b).toList ++ ' ' :: s)) : bare a = bare b ∧ ' ' :: r = ' ' :: s :=
  distinct b _ _ isFine (atGap_blank r) (atGap_blank s) (List.cons.inj same).2

theorem Distinct.before_closing {a b : α} (distinct : Distinct text bare fine a) (isFine : fine b)
    {r s : List Char} (same : ' ' :: ((text a).toList ++ ')' :: r) =
      ' ' :: ((text b).toList ++ ')' :: s)) : bare a = bare b ∧ r = s := by
  obtain ⟨here, behind⟩ :=
    distinct b _ _ isFine (atGap_closing r) (atGap_closing s) (List.cons.inj same).2
  exact ⟨here, (List.cons.inj behind).2⟩

theorem Distinct.others {as bs : List α} (distinct : ∀ a ∈ as, Distinct text bare fine a)
    (allFine : ∀ b ∈ bs, fine b) {r s : List Char}
    (same : Printing.others (as.map text) r = Printing.others (bs.map text) s) :
    as.map bare = bs.map bare ∧ r = s := by
  induction as generalizing bs with
  | nil =>
    rcases bs with _ | ⟨b, bs⟩
    · exact ⟨rfl, (List.cons.inj same).2⟩
    · simp [Printing.others] at same
  | cons a as ih =>
    rcases bs with _ | ⟨b, bs⟩
    · simp [Printing.others] at same
    · obtain ⟨first, distinct⟩ := List.forall_mem_cons.mp distinct
      obtain ⟨fineFirst, allFine⟩ := List.forall_mem_cons.mp allFine
      obtain ⟨here, rest⟩ := first b _ _ fineFirst (atGap_others _ _) (atGap_others _ _)
        (List.cons.inj same).2
      obtain ⟨there, behind⟩ := ih distinct allFine rest
      exact ⟨by simp [here, there], behind⟩

/-- Lists of such texts are told apart, if no text begins as a closing parenthesis does. -/
theorem Distinct.listing {as bs : List α} (distinct : ∀ a ∈ as, Distinct text bare fine a)
    (allFine : ∀ b ∈ bs, fine b)
    (opens : ∀ a ∈ as ++ bs, ∃ c cs, (text a).toList = c :: cs ∧ c ≠ ')') {r s : List Char}
    (same : Printing.listing (as.map text) r = Printing.listing (bs.map text) s) :
    as.map bare = bs.map bare ∧ r = s := by
  rcases as with _ | ⟨a, as⟩ <;> rcases bs with _ | ⟨b, bs⟩
  · simp only [List.map_nil, listing_nil] at same
    exact ⟨rfl, (List.cons.inj same).2⟩
  · obtain ⟨c, cs, front, open'⟩ := opens b (by simp)
    simp only [List.map_nil, List.map_cons, listing_nil, listing_cons, front] at same
    exact absurd (List.cons.inj same).1.symm open'
  · obtain ⟨c, cs, front, open'⟩ := opens a (by simp)
    simp only [List.map_nil, List.map_cons, listing_nil, listing_cons, front] at same
    exact absurd (List.cons.inj same).1 open'
  · refine Distinct.others distinct allFine ?_
    simp only [List.map_cons, listing_cons] at same
    simp only [List.map_cons, Printing.others, same]

end Distinct

end Printing

/-! ## Fronts -/

/-- What stands behind the parenthesis that a node opens: a word for its sort, or its operator. -/
inductive Root where
  | call | cond | letIn | loop | recur
  | unary (op : UnaryOp)
  | binary (op : BinaryOp)
deriving DecidableEq

namespace Root

/-- How a root is written. -/
def word : Root → String
  | call => "call"
  | cond => "if"
  | letIn => "let"
  | loop => "loop"
  | recur => "recur"
  | unary op => op.text
  | binary op => op.text

/-- All roots. -/
def all : List Root :=
  [call, cond, letIn, loop, recur, unary .not, unary .neg, binary .and, binary .or, binary .less,
    binary .equal, binary .add, binary .mul]

/-- No two roots are written alike. -/
theorem word_injective {r r' : Root} (same : r.word = r'.word) : r = r' := by
  have found : ∀ r : Root, all.find? (fun s => s.word == r.word) = some r := by
    intro r
    rcases r with _ | _ | _ | _ | _ | op | op
    all_goals try rcases op with _ | _ | _ | _ | _ | _
    all_goals rfl
  have both := found r
  rw [same, found r'] at both
  exact (Option.some.inj both).symm

end Root

namespace Expr

/-- The root of a node in parentheses. -/
def root? : Expr → Option Root
  | integer _ _ | var _ _ => none
  | call _ _ _ => some .call
  | cond _ _ _ _ => some .cond
  | unary _ op _ => some (.unary op)
  | binary _ op _ _ => some (.binary op)
  | letIn _ _ _ => some .letIn
  | loop _ _ _ => some .loop
  | recur _ _ => some .recur

/-- Expressions of one form: equal numbers, equal variables, or nodes with the same root. -/
inductive SameForm : Expr → Expr → Prop where
  | integer {t t' v} : SameForm (.integer t v) (.integer t' v)
  | var {t t' name} : SameForm (.var t name) (.var t' name)
  | call {t t' name name' es es'} : SameForm (.call t name es) (.call t' name' es')
  | cond {t t' c c' a a' b b'} : SameForm (.cond t c a b) (.cond t' c' a' b')
  | unary {t t' op a a'} : SameForm (.unary t op a) (.unary t' op a')
  | binary {t t' op a a' b b'} : SameForm (.binary t op a b) (.binary t' op a' b')
  | letIn {t t' bs bs' e e'} : SameForm (.letIn t bs e) (.letIn t' bs' e')
  | loop {t t' bs bs' e e'} : SameForm (.loop t bs e) (.loop t' bs' e')
  | recur {t t' es es'} : SameForm (.recur t es) (.recur t' es')

theorem SameForm.of_root? {e e' : Expr} (node : e.root? ≠ none) (same : e.root? = e'.root?) :
    SameForm e e' := by
  cases e with
  | integer | var => exact absurd rfl node
  | call =>
    cases e' with
    | call => exact .call
    | _ => cases same
  | cond =>
    cases e' with
    | cond => exact .cond
    | _ => cases same
  | unary =>
    cases e' with
    | unary =>
      cases same
      exact .unary
    | _ => cases same
  | binary =>
    cases e' with
    | binary =>
      cases same
      exact .binary
    | _ => cases same
  | letIn =>
    cases e' with
    | letIn => exact .letIn
    | _ => cases same
  | loop =>
    cases e' with
    | loop => exact .loop
    | _ => cases same
  | recur =>
    cases e' with
    | recur => exact .recur
    | _ => cases same

end Expr

/-! ## Names and numbers -/

/-- Where the node is a name, or an expression with one, the name is a word, maybe a keyword. -/
def Node.Named : Node → Prop
  | ident i => Lexical.Word i.name.toList
  | expr (.var _ name) | expr (.call _ name _) => Lexical.Word name.toList
  | _ => True

instance : DecidablePred Node.Named
  | .ident i => inferInstanceAs (Decidable (Lexical.Word i.name.toList))
  | .expr (.var _ name) | .expr (.call _ name _) =>
    inferInstanceAs (Decidable (Lexical.Word name.toList))
  | .function _ | .expr (.integer _ _) | .expr (.cond _ _ _ _) | .expr (.unary _ _ _)
  | .expr (.binary _ _ _ _) | .expr (.letIn _ _ _) | .expr (.loop _ _ _)
  | .expr (.recur _ _) => inferInstanceAs (Decidable True)

/-- All names in the expression are words. -/
def Expr.Named (e : Expr) : Prop := ∀ n ∈ e.nodes, n.Named

/-- All names in the function are words. -/
def Function.Named (f : Function) : Prop := ∀ n ∈ f.nodes, n.Named

instance : DecidablePred Expr.Named := fun e =>
  inferInstanceAs (Decidable (∀ n ∈ e.nodes, n.Named))

instance : DecidablePred Function.Named := fun f =>
  inferInstanceAs (Decidable (∀ n ∈ f.nodes, n.Named))

/-- A number is written as digits, behind a minus sign if it is negative. -/
theorem Decimal.exists_text (v : Int64) : ∃ c cs, (text v).toList = c :: cs
    ∧ (Digit c ∨ c = '-') ∧ ∀ d ∈ cs, Digit d := by
  have digits : ∀ n : Nat, n.repr.toList ≠ [] ∧ ∀ d ∈ n.repr.toList, Digit d := by
    intro n
    have read := natural?_repr n
    unfold natural? at read
    split at read
    · next run => exact ⟨run.1, fun d mem => isDigit_iff.mp (List.all_eq_true.mp run.2 d mem)⟩
    · simp at read
  rw [text, Int.repr_eq_if]
  split
  · obtain ⟨nonempty, run⟩ := digits v.toInt.toNat
    obtain ⟨c, cs, same⟩ := List.exists_cons_of_ne_nil nonempty
    rw [same] at run
    exact ⟨c, cs, same, Or.inl (run c (by simp)), fun d mem => run d (by simp [mem])⟩
  · exact ⟨'-', (-v.toInt).toNat.repr.toList, by simp, Or.inr rfl, (digits _).2⟩

theorem Decimal.text_injective {v w : Int64} (same : text v = text w) : v = w := by
  have read := read?_text v
  rw [same, read?_text w] at read
  exact (Option.some.inj read).symm

namespace Expr

/-- The text of an expression up to its first blank or closing parenthesis. -/
def front (e : Expr) : List Char :=
  match e.root? with
  | some r => '(' :: r.word.toList
  | none => e.text.toList

/-- What stands behind the front, if the text `rest` stands behind the expression. -/
def behind : Expr → List Char → List Char
  | integer _ _, rest | var _ _, rest => rest
  | call _ name args, rest => ' ' :: (name.toList ++ ' ' :: listing (Expr.texts args) rest)
  | cond _ test thenBranch elseBranch, rest =>
    ' ' :: (test.text.toList ++ ' ' :: (thenBranch.text.toList
      ++ ' ' :: (elseBranch.text.toList ++ ')' :: rest)))
  | unary _ _ operand, rest => ' ' :: (operand.text.toList ++ ')' :: rest)
  | binary _ _ lhs rhs, rest =>
    ' ' :: (lhs.text.toList ++ ' ' :: (rhs.text.toList ++ ')' :: rest))
  | letIn _ bindings body, rest | loop _ bindings body, rest =>
    ' ' :: '(' :: listing (Binding.texts bindings) (' ' :: (body.text.toList ++ ')' :: rest))
  | recur _ args, rest => ' ' :: listing (Expr.texts args) rest

theorem text_append (e : Expr) (rest : List Char) :
    e.text.toList ++ rest = e.front ++ e.behind rest := by
  cases e <;> simp [text, front, behind, root?, Root.word, listing]

theorem atGap_behind (e : Expr) {rest : List Char} (gap : AtGap rest) : AtGap (e.behind rest) := by
  cases e with
  | integer | var => exact gap
  | _ => exact atGap_blank _

theorem solid_root (r : Root) : Solid ('(' :: r.word.toList) := by
  rcases r with _ | _ | _ | _ | _ | op | op
  all_goals try rcases op with _ | _ | _ | _ | _ | _
  all_goals decide

/-- What the front of an expression begins with. -/
inductive Opens : Expr → Char → Prop where
  | integer {t v c} (first : Digit c ∨ c = '-') : Opens (.integer t v) c
  | var {t name c} (first : Letter c) : Opens (.var t name) c
  | node {e} (node : e.root? ≠ none) : Opens e '('

theorem exists_front {e : Expr} (named : e.Named) :
    Solid e.front ∧ ∃ c cs, e.front = c :: cs ∧ e.Opens c := by
  have node : ∀ {r}, e.root? = some r →
      Solid e.front ∧ ∃ c cs, e.front = c :: cs ∧ e.Opens c := by
    intro r found
    have front : e.front = '(' :: r.word.toList := by simp [front, found]
    rw [front]
    exact ⟨solid_root r, '(', _, rfl, .node (by simp [found])⟩
  cases e with
  | integer t v =>
    obtain ⟨c, cs, written, first, digits⟩ := Decimal.exists_text v
    have apart : ∀ d, Digit d ∨ d = '-' → d ≠ ' ' ∧ d ≠ ')' := by
      rintro d (digit | rfl)
      · exact (solid_of_word ⟨'_', [d], rfl, by simp [Letter], by simp [digit]⟩) d (by simp)
      · decide
    refine ⟨?_, c, cs, written, .integer first⟩
    intro d mem
    rw [show (integer t v).front = c :: cs from written] at mem
    rcases List.mem_cons.mp mem with rfl | mem
    · exact apart d first
    · exact apart d (Or.inl (digits d mem))
  | var t name =>
    have word : Lexical.Word name.toList := named (.expr (.var t name)) (by simp [nodes])
    obtain ⟨c, cs, written, letter, _⟩ := id word
    exact ⟨solid_of_word word, c, cs, written, .var letter⟩
  | _ => exact node rfl

/-- Expressions with one front are of one form. -/
theorem sameForm_of_front {e e' : Expr} (named : e.Named) (named' : e'.Named)
    (same : e.front = e'.front) : SameForm e e' := by
  obtain ⟨_, c, cs, here, opens⟩ := exists_front named
  obtain ⟨_, c', cs', there, opens'⟩ := exists_front named'
  obtain ⟨rfl, rfl⟩ : c = c' ∧ cs = cs' := by simpa [here, there] using same
  have letterOrNumber : ∀ d, Letter d → ¬(Digit d ∨ d = '-') := by
    rintro d letter (digit | rfl)
    · exact not_digit_of_letter letter digit
    · revert letter
      unfold Letter
      decide
  have paren : ¬Letter '(' ∧ ¬(Digit '(' ∨ '(' = '-') := by
    unfold Letter Digit
    decide
  cases opens with
  | integer first =>
    cases opens' with
    | integer _ =>
      obtain rfl := Decimal.text_injective (String.toList_inj.mp same)
      exact .integer
    | var letter => exact absurd first (letterOrNumber c letter)
    | node _ => exact absurd first paren.2
  | var letter =>
    cases opens' with
    | integer first => exact absurd first (letterOrNumber c letter)
    | var _ =>
      obtain rfl := String.toList_inj.mp same
      exact .var
    | node _ => exact absurd letter paren.1
  | node node =>
    cases opens' with
    | integer first => exact absurd first paren.2
    | var letter => exact absurd letter paren.1
    | node node' =>
      obtain ⟨r, root⟩ := Option.ne_none_iff_exists'.mp node
      obtain ⟨r', root'⟩ := Option.ne_none_iff_exists'.mp node'
      simp only [front, root, root', List.cons.injEq, true_and] at same
      obtain rfl := Root.word_injective (String.toList_inj.mp same)
      exact .of_root? node (root.trans root'.symm)

theorem texts_eq_map (es : List Expr) : Expr.texts es = es.map Expr.text := by
  induction es with
  | nil => rfl
  | cons e es ih => rw [Expr.texts, ih, List.map_cons]

theorem allBare_eq_map (es : List Expr) : Expr.allBare es = es.map Expr.bare := by
  induction es with
  | nil => rfl
  | cons e es ih => rw [Expr.allBare, ih, List.map_cons]

end Expr

namespace Binding

/-- The prefix text of a binding. -/
def text (b : Binding) : String := "(" ++ b.name ++ " " ++ b.value.text ++ ")"

/-- A binding without the tokens that it is written with. -/
def bare (b : Binding) : Binding := ⟨b.ident.bare, b.value.bare⟩

/-- All names in the binding are words. -/
def Named (b : Binding) : Prop := Lexical.Word b.name.toList ∧ b.value.Named

theorem texts_eq_map (bs : List Binding) : Binding.texts bs = bs.map Binding.text := by
  induction bs with
  | nil => rfl
  | cons b bs ih =>
    obtain ⟨ident, value⟩ := b
    rw [Binding.texts, ih, List.map_cons]
    rfl

theorem allBare_eq_map (bs : List Binding) : Binding.allBare bs = bs.map Binding.bare := by
  induction bs with
  | nil => rfl
  | cons b bs ih =>
    obtain ⟨ident, value⟩ := b
    rw [Binding.allBare, ih, List.map_cons]
    rfl

end Binding

/-! ## The tree behind a text -/

theorem Expr.forall_named {es : List Expr} (named : ∀ n ∈ Expr.allNodes es, n.Named) :
    ∀ e ∈ es, e.Named := by
  intro e mem n part
  exact named n (Expr.mem_allNodes.mpr ⟨e, mem, part⟩)

theorem Binding.forall_named {bs : List Binding} (named : ∀ n ∈ Binding.allNodes bs, n.Named) :
    ∀ b ∈ bs, b.Named := by
  intro b mem
  exact ⟨named (.ident b.ident) (Binding.mem_allNodes.mpr ⟨b, mem, Or.inl rfl⟩),
    fun n part => named n (Binding.mem_allNodes.mpr ⟨b, mem, Or.inr part⟩)⟩

/-- Lists of expressions are told apart by their texts. -/
theorem Expr.listing_unique {es es' : List Expr}
    (distinct : ∀ e ∈ es, Distinct Expr.text Expr.bare Expr.Named e)
    (named : ∀ e ∈ es, e.Named) (named' : ∀ e ∈ es', e.Named) {r s : List Char}
    (same : listing (Expr.texts es) r = listing (Expr.texts es') s) :
    Expr.allBare es = Expr.allBare es' ∧ r = s := by
  rw [Expr.texts_eq_map, Expr.texts_eq_map] at same
  rw [Expr.allBare_eq_map, Expr.allBare_eq_map]
  refine Distinct.listing distinct named' (fun e mem => ?_) same
  have fine : e.Named := (List.mem_append.mp mem).elim (named e) (named' e)
  obtain ⟨solid, c, cs, front, _⟩ := Expr.exists_front fine
  have text := e.text_append []
  rw [List.append_nil, front] at text
  exact ⟨c, _, text, (solid c (by simp [front])).2⟩

theorem Binding.listing_unique {bs bs' : List Binding}
    (distinct : ∀ b ∈ bs, Distinct Binding.text Binding.bare Binding.Named b)
    (named' : ∀ b ∈ bs', b.Named) {r s : List Char}
    (same : listing (Binding.texts bs) r = listing (Binding.texts bs') s) :
    Binding.allBare bs = Binding.allBare bs' ∧ r = s := by
  rw [Binding.texts_eq_map, Binding.texts_eq_map] at same
  rw [Binding.allBare_eq_map, Binding.allBare_eq_map]
  refine Distinct.listing distinct named' (fun b _ => ?_) same
  exact ⟨'(', b.name.toList ++ ' ' :: (b.value.text.toList ++ [')']), by simp [Binding.text],
    by decide⟩

/-- In front of a gap, the text of an expression is that of no other one, if what stands behind its
front is that of no other one of its form. -/
theorem Expr.distinct_of_behind {e : Expr} (named : e.Named)
    (parts : ∀ (e' : Expr) (r s : List Char), SameForm e e' → e'.Named →
      e.behind r = e'.behind s → e.bare = e'.bare ∧ r = s) :
    Distinct Expr.text Expr.bare Expr.Named e := by
  intro e' r s named' gap gap' same
  rw [Expr.text_append, Expr.text_append] at same
  obtain ⟨solid, _⟩ := Expr.exists_front named
  obtain ⟨solid', _⟩ := Expr.exists_front named'
  obtain ⟨front, behind⟩ :=
    solid.unique solid' (e.atGap_behind gap) (e'.atGap_behind gap') same
  exact parts e' r s (Expr.sameForm_of_front named named' front) named' behind

mutual

/-- In front of a gap, the text of an expression is that of no other expression. -/
theorem Expr.distinct (e : Expr) (named : e.Named) :
    Distinct Expr.text Expr.bare Expr.Named e := by
  refine Expr.distinct_of_behind named fun e' r s form named' behind => ?_
  match e with
  | .integer _ _ =>
    cases form
    exact ⟨rfl, behind⟩
  | .var _ _ =>
    cases form
    exact ⟨rfl, behind⟩
  | .call _ _ es =>
    cases form
    obtain ⟨word, parts⟩ := List.forall_mem_cons.mp named
    obtain ⟨word', parts'⟩ := List.forall_mem_cons.mp named'
    obtain ⟨names, behind⟩ := (solid_of_word word).unique (solid_of_word word')
      (atGap_blank _) (atGap_blank _) (List.cons.inj behind).2
    obtain ⟨args, rest⟩ := Expr.listing_unique (Expr.all_distinct es parts)
      (Expr.forall_named parts) (Expr.forall_named parts') (List.cons.inj behind).2
    rw [String.toList_inj] at names
    exact ⟨by rw [Expr.bare, Expr.bare, names, args], rest⟩
  | .cond _ c a b =>
    cases form
    obtain ⟨_, first, second, third⟩ := Expr.forall_nodes_cond.mp named
    obtain ⟨_, first', second', third'⟩ := Expr.forall_nodes_cond.mp named'
    obtain ⟨test, behind⟩ := (Expr.distinct c first).before_blank first' behind
    obtain ⟨thenBranch, behind⟩ := (Expr.distinct a second).before_blank second' behind
    obtain ⟨elseBranch, rest⟩ := (Expr.distinct b third).before_closing third' behind
    exact ⟨by rw [Expr.bare, Expr.bare, test, thenBranch, elseBranch], rest⟩
  | .unary _ _ a =>
    cases form
    obtain ⟨_, part⟩ := List.forall_mem_cons.mp named
    obtain ⟨_, part'⟩ := List.forall_mem_cons.mp named'
    obtain ⟨operand, rest⟩ := (Expr.distinct a part).before_closing part' behind
    exact ⟨by rw [Expr.bare, Expr.bare, operand], rest⟩
  | .binary _ _ a b =>
    cases form
    obtain ⟨first, _, last⟩ := Expr.forall_nodes_binary.mp named
    obtain ⟨first', _, last'⟩ := Expr.forall_nodes_binary.mp named'
    obtain ⟨lhs, behind⟩ := (Expr.distinct a first).before_blank first' behind
    obtain ⟨rhs, rest⟩ := (Expr.distinct b last).before_closing last' behind
    exact ⟨by rw [Expr.bare, Expr.bare, lhs, rhs], rest⟩
  | .letIn _ bs a =>
    cases form
    obtain ⟨_, first, last⟩ := Expr.forall_nodes_letIn.mp named
    obtain ⟨_, first', last'⟩ := Expr.forall_nodes_letIn.mp named'
    obtain ⟨bindings, behind⟩ := Binding.listing_unique (Binding.all_distinct bs first)
      (Binding.forall_named first') (List.cons.inj (List.cons.inj behind).2).2
    obtain ⟨body, rest⟩ := (Expr.distinct a last).before_closing last' behind
    exact ⟨by rw [Expr.bare, Expr.bare, bindings, body], rest⟩
  | .loop _ bs a =>
    cases form
    obtain ⟨_, first, last⟩ := Expr.forall_nodes_loop.mp named
    obtain ⟨_, first', last'⟩ := Expr.forall_nodes_loop.mp named'
    obtain ⟨bindings, behind⟩ := Binding.listing_unique (Binding.all_distinct bs first)
      (Binding.forall_named first') (List.cons.inj (List.cons.inj behind).2).2
    obtain ⟨body, rest⟩ := (Expr.distinct a last).before_closing last' behind
    exact ⟨by rw [Expr.bare, Expr.bare, bindings, body], rest⟩
  | .recur _ es =>
    cases form
    obtain ⟨_, parts⟩ := List.forall_mem_cons.mp named
    obtain ⟨_, parts'⟩ := List.forall_mem_cons.mp named'
    obtain ⟨args, rest⟩ := Expr.listing_unique (Expr.all_distinct es parts)
      (Expr.forall_named parts) (Expr.forall_named parts') (List.cons.inj behind).2
    exact ⟨by rw [Expr.bare, Expr.bare, args], rest⟩

theorem Expr.all_distinct (es : List Expr) (named : ∀ n ∈ Expr.allNodes es, n.Named) :
    ∀ e ∈ es, Distinct Expr.text Expr.bare Expr.Named e := by
  match es with
  | [] => simp
  | e :: es =>
    obtain ⟨first, others⟩ := List.forall_mem_append.mp named
    exact List.forall_mem_cons.mpr ⟨Expr.distinct e first, Expr.all_distinct es others⟩

theorem Binding.all_distinct (bs : List Binding) (named : ∀ n ∈ Binding.allNodes bs, n.Named) :
    ∀ b ∈ bs, Distinct Binding.text Binding.bare Binding.Named b := by
  match bs with
  | [] => simp
  | ⟨ident, value⟩ :: bs =>
    obtain ⟨word, part, others⟩ := Binding.forall_allNodes_cons.mp named
    refine List.forall_mem_cons.mpr ⟨?_, Binding.all_distinct bs others⟩
    rintro ⟨ident', value'⟩ r s ⟨word', part'⟩ gap gap' same
    have split : ∀ (i : Ident) (v : Expr) (r : List Char), (Binding.text ⟨i, v⟩).toList ++ r
        = '(' :: (i.name.toList ++ ' ' :: (v.text.toList ++ ')' :: r)) := by
      simp [Binding.text, Binding.name]
    rw [split, split] at same
    obtain ⟨names, behind⟩ := (solid_of_word word).unique (solid_of_word word')
      (atGap_blank _) (atGap_blank _) (List.cons.inj same).2
    obtain ⟨values, rest⟩ := (Expr.distinct value part).before_closing part' behind
    have names : ident.name = ident'.name := String.toList_inj.mp names
    exact ⟨by simp [Binding.bare, Ident.bare, names, values], rest⟩

end

theorem Ident.distinct (i : Ident) (word : Lexical.Word i.name.toList) :
    Distinct Ident.name Ident.bare (fun i => Lexical.Word i.name.toList) i := by
  intro i' r s word' gap gap' same
  obtain ⟨names, rest⟩ := (solid_of_word word).unique (solid_of_word word') gap gap' same
  exact ⟨by rw [Ident.bare, Ident.bare, String.toList_inj.mp names], rest⟩

theorem Ident.listing_unique {is is' : List Ident} (words : ∀ i ∈ is, Lexical.Word i.name.toList)
    (words' : ∀ i ∈ is', Lexical.Word i.name.toList) {r s : List Char}
    (same : listing (is.map Ident.name) r = listing (is'.map Ident.name) s) :
    is.map Ident.bare = is'.map Ident.bare ∧ r = s := by
  refine Distinct.listing (fun i mem => i.distinct (words i mem)) words' (fun i mem => ?_) same
  have word : Lexical.Word i.name.toList := (List.mem_append.mp mem).elim (words i) (words' i)
  obtain ⟨c, cs, written, _⟩ := id word
  exact ⟨c, cs, written, (solid_of_word word c (by simp [written])).2⟩

theorem Function.bare_eq_of_text_eq {f g : Function} (named : f.Named) (named' : g.Named)
    (same : f.text = g.text) : f.bare = g.bare := by
  have parts : ∀ {f : Function}, f.Named → Lexical.Word f.name.toList
      ∧ (∀ i ∈ f.params, Lexical.Word i.name.toList) ∧ f.body.Named := by
    intro f named
    exact ⟨named (.ident f.ident) (by simp [Function.nodes]),
      fun i mem => named (.ident i) (by simp [Function.nodes, mem]),
      fun n mem => named n (by simp [Function.nodes, mem])⟩
  obtain ⟨word, params, body⟩ := parts named
  obtain ⟨word', params', body'⟩ := parts named'
  have split : ∀ f : Function, f.text.toList
      = '(' :: 'f' :: 'u' :: 'n' :: ' ' :: (f.name.toList ++ ' ' :: '(' ::
        listing (f.params.map Ident.name) (' ' :: (f.body.text.toList ++ [')']))) := by
    simp [Function.text, listing]
  rw [← String.toList_inj, split, split] at same
  simp only [List.cons.injEq, true_and] at same
  obtain ⟨names, behind⟩ := (solid_of_word word).unique (solid_of_word word')
    (atGap_blank _) (atGap_blank _) same
  obtain ⟨idents, behind⟩ := Ident.listing_unique params params'
    (List.cons.inj (List.cons.inj behind).2).2
  obtain ⟨bodies, _⟩ := (Expr.distinct f.body body).before_closing body' behind
  have name : f.ident.name = g.ident.name := String.toList_inj.mp names
  simp only [Function.bare, Ident.bare, name, idents, bodies]

/-! ## Texts and tokens -/

mutual

/-- Tokens do not show in the prefix text. -/
theorem Expr.text_bare (e : Expr) : e.bare.text = e.text := by
  match e with
  | .integer _ _ | .var _ _ => rfl
  | .call _ _ es | .recur _ es => rw [Expr.bare, Expr.text, Expr.text, Expr.texts_allBare es]
  | .cond _ c a b =>
    rw [Expr.bare, Expr.text, Expr.text, Expr.text_bare c, Expr.text_bare a, Expr.text_bare b]
  | .unary _ _ a => rw [Expr.bare, Expr.text, Expr.text, Expr.text_bare a]
  | .binary _ _ a b => rw [Expr.bare, Expr.text, Expr.text, Expr.text_bare a, Expr.text_bare b]
  | .letIn _ bs a | .loop _ bs a =>
    rw [Expr.bare, Expr.text, Expr.text, Binding.texts_allBare bs, Expr.text_bare a]

theorem Expr.texts_allBare (es : List Expr) : Expr.texts (Expr.allBare es) = Expr.texts es := by
  match es with
  | [] => rfl
  | e :: es => rw [Expr.allBare, Expr.texts, Expr.texts, Expr.text_bare e, Expr.texts_allBare es]

theorem Binding.texts_allBare (bs : List Binding) :
    Binding.texts (Binding.allBare bs) = Binding.texts bs := by
  match bs with
  | [] => rfl
  | ⟨_, value⟩ :: bs =>
    rw [Binding.allBare, Binding.texts, Binding.texts, Expr.text_bare value,
      Binding.texts_allBare bs]
    rfl

end

theorem Function.text_bare (f : Function) : f.bare.text = f.text := by
  have names : f.params.map (Ident.name ∘ Ident.bare) = f.params.map Ident.name := rfl
  simp only [Function.text, Function.bare, Expr.text_bare, List.map_map, names]
  rfl

/-- **The prefix text loses the tokens and nothing else.** Where all names are words, keywords among
them, two expressions have the same prefix text exactly if they are the same tree up to their
tokens, and so have two functions; the numbers may have signs and the lists may be empty. -/
theorem text_eq_iff_bare_eq :
    (∀ e e' : Expr, e.Named → e'.Named → (e.text = e'.text ↔ e.bare = e'.bare))
    ∧ ∀ f g : Function, f.Named → g.Named → (f.text = g.text ↔ f.bare = g.bare) := by
  refine ⟨fun e e' named named' => ⟨fun same => ?_, fun same => ?_⟩,
    fun f g named named' => ⟨Function.bare_eq_of_text_eq named named', fun same => ?_⟩⟩
  · have gap : AtGap [] := by simp [AtGap]
    exact (Expr.distinct e named e' [] [] named' gap gap (by rw [same])).1
  · rw [← e.text_bare, same, e'.text_bare]
  · rw [← f.text_bare, same, g.text_bare]

/-- A function without parameters whose names are the words that roots are written with, with one
token everywhere. -/
def Function.headed (t : Token) : Function :=
  ⟨t, ⟨t, "fun"⟩, [], .letIn t [⟨⟨t, "let"⟩, .call t "call" []⟩]
    (.unary t .neg (.integer t (-1)))⟩

theorem headed_text_eq :
    let f := Function.headed .none
    let g := Function.headed (.endOfText .start)
    f.Named ∧ g.Named ∧ f.body.Named ∧ g.body.Named
      ∧ f.text = "(fun fun () (let ((let (call call ))) (- -1)))"
      ∧ (f.text = g.text ↔ f.bare = g.bare)
      ∧ (f.body.text = g.body.text ↔ f.body.bare = g.body.bare) := by
  intro f g
  have named : f.Named ∧ g.Named ∧ f.body.Named ∧ g.body.Named := by decide +kernel
  obtain ⟨fst, snd, body, body'⟩ := named
  exact ⟨fst, snd, body, body', by decide +kernel, text_eq_iff_bare_eq.2 f g fst snd,
    text_eq_iff_bare_eq.1 f.body g.body body body'⟩

end LoopLang
