import LoopLang.Proofs.Cursor.Lexemes
import LoopLang.Proofs.Tree.Nodes

set_option autoImplicit false

/-! # How trees are written

A tree is written as words: names, numbers, keywords and symbols. An operand stands in parentheses
only where it would otherwise be grouped in another way: the operators join from the left, so a left
operand needs them if its operator binds looser, a right operand also if it binds as tightly, and
the operand of a sign whenever it is an operation. Any further pairs of parentheses may be put
around any expression of the tree. In a text the words stand with blanks between them. -/

namespace LoopLang

/-! ## Words -/

namespace Printing

/-- A token as it is written, wherever it stands. -/
structure Word where
  kind : TokenKind
  literal : String
deriving DecidableEq, Repr

namespace Word

/-- A keyword. -/
def keyword (k : Keyword) : Word := ⟨.keyword k, k.spelling⟩

/-- A symbol. -/
def symbol (s : Symbol) : Word := ⟨.symbol s, s.spelling⟩

/-- A name. -/
def name (text : String) : Word := ⟨.identifier, text⟩

/-- A number. -/
def integer (v : Int64) : Word := ⟨.integer, Decimal.text v⟩

/-- The word can be read as a token of its kind. -/
def Spelled (w : Word) : Prop := Lexical.Fits w.kind w.literal.toList

end Word

/-- The words of an expression in a pair of parentheses. -/
def parens (ws : List Word) : List Word :=
  .symbol .leftParen :: (ws ++ [.symbol .rightParen])

/-- The words of an expression, in parentheses where it needs them. -/
def wrap (needed : Bool) (ws : List Word) : List Word :=
  if needed then parens ws else ws

end Printing

open Printing

/-- How a token is written. -/
def Token.word (t : Token) : Word := ⟨t.kind, t.literal⟩

/-! ## Trees as words -/

/-- The expression is an operation, of an earlier tier than this one. -/
def Expr.looserThan (k : Nat) : Expr → Bool
  | .binary _ op _ _ => op.precedence < k
  | _ => false

mutual

/-- The words of an expression, with parentheses only where they are needed. -/
def Expr.words : Expr → List Word
  | .integer _ v => [.integer v]
  | .var _ name => [.name name]
  | .call _ name args => .name name :: Expr.argWords args
  | .cond _ test thenBranch elseBranch =>
    .keyword .ifKw :: (test.words ++ .keyword .thenKw :: (thenBranch.words
      ++ .keyword .elseKw :: (elseBranch.words ++ [.keyword .endKw])))
  | .unary _ op operand => .symbol op.symbol :: wrap (operand.looserThan 5) operand.words
  | .binary _ op lhs rhs =>
    wrap (lhs.looserThan op.precedence) lhs.words
      ++ .symbol op.symbol :: wrap (rhs.looserThan (op.precedence + 1)) rhs.words
  | .letIn _ bindings body =>
    .keyword .letKw :: (Binding.allWords bindings ++ .keyword .inKw :: (body.words
      ++ [.keyword .endKw]))
  | .loop _ bindings body =>
    .keyword .loopKw :: (Binding.allWords bindings ++ .keyword .inKw :: (body.words
      ++ [.keyword .endKw]))
  | .recur _ args => .keyword .recurKw :: Expr.argWords args

/-- The words of arguments, each in parentheses of its own. -/
def Expr.argWords : List Expr → List Word
  | [] => []
  | e :: es => parens e.words ++ Expr.argWords es

/-- The words of bindings, joined by `and`. -/
def Binding.allWords : List Binding → List Word
  | [] => []
  | [⟨ident, value⟩] => .name ident.name :: .symbol .assign :: value.words
  | ⟨ident, value⟩ :: b :: bs =>
    .name ident.name :: .symbol .assign :: (value.words
      ++ .keyword .andKw :: Binding.allWords (b :: bs))

end

/-- The words of a function around those of its body. -/
def Function.wordsWith (f : Function) (body : List Word) : List Word :=
  .keyword .letKw :: .name f.name :: (f.params.map (fun i => .name i.name)
    ++ .symbol .assign :: (body ++ [.keyword .endKw]))

/-- The words of a function. -/
def Function.words (f : Function) : List Word := f.wordsWith f.body.words

/-- The words of a program. -/
def Program.words (p : Program) : List Word := p.functions.flatMap Function.words

/-! ## Further parentheses -/

mutual

/-- The words write the expression: with the parentheses that are needed, and with any further pairs
of them around it and the expressions in it. -/
inductive Expr.Written : Expr → List Word → Prop where
  | parens {e ws} (inner : Expr.Written e ws) : Expr.Written e (parens ws)
  | integer {t v} : Expr.Written (.integer t v) [.integer v]
  | var {t name} : Expr.Written (.var t name) [.name name]
  | call {t name es ws} (args : Expr.ArgsWritten es ws) :
      Expr.Written (.call t name es) (.name name :: ws)
  | cond {t c a b cs as bs} (test : Expr.Written c cs) (thenBranch : Expr.Written a as)
      (elseBranch : Expr.Written b bs) :
      Expr.Written (.cond t c a b) (.keyword .ifKw :: (cs ++ .keyword .thenKw :: (as
        ++ .keyword .elseKw :: (bs ++ [.keyword .endKw]))))
  | unary {t op e ws} (operand : Expr.Written e ws) :
      Expr.Written (.unary t op e) (.symbol op.symbol :: wrap (e.looserThan 5) ws)
  | binary {t op a b as bs} (lhs : Expr.Written a as) (rhs : Expr.Written b bs) :
      Expr.Written (.binary t op a b) (wrap (a.looserThan op.precedence) as
        ++ .symbol op.symbol :: wrap (b.looserThan (op.precedence + 1)) bs)
  | letIn {t bs e vs ws} (bindings : Binding.AllWritten bs vs) (body : Expr.Written e ws) :
      Expr.Written (.letIn t bs e) (.keyword .letKw :: (vs ++ .keyword .inKw :: (ws
        ++ [.keyword .endKw])))
  | loop {t bs e vs ws} (bindings : Binding.AllWritten bs vs) (body : Expr.Written e ws) :
      Expr.Written (.loop t bs e) (.keyword .loopKw :: (vs ++ .keyword .inKw :: (ws
        ++ [.keyword .endKw])))
  | recur {t es ws} (args : Expr.ArgsWritten es ws) :
      Expr.Written (.recur t es) (.keyword .recurKw :: ws)

/-- The words write the arguments, each in parentheses of its own. -/
inductive Expr.ArgsWritten : List Expr → List Word → Prop where
  | last {e ws} (arg : Expr.Written e ws) : Expr.ArgsWritten [e] (parens ws)
  | cons {e es ws vs} (arg : Expr.Written e ws) (others : Expr.ArgsWritten es vs) :
      Expr.ArgsWritten (e :: es) (parens ws ++ vs)

/-- The words write the bindings, joined by `and`. -/
inductive Binding.AllWritten : List Binding → List Word → Prop where
  | last {ident e ws} (value : Expr.Written e ws) :
      Binding.AllWritten [⟨ident, e⟩] (.name ident.name :: .symbol .assign :: ws)
  | cons {ident e bs ws vs} (value : Expr.Written e ws) (others : Binding.AllWritten bs vs) :
      Binding.AllWritten (⟨ident, e⟩ :: bs) (.name ident.name :: .symbol .assign :: (ws
        ++ .keyword .andKw :: vs))

end

/-- The words write the functions, one behind the other. -/
inductive Function.AllWritten : List Function → List Word → Prop where
  | last {f ws} (body : f.body.Written ws) : Function.AllWritten [f] (f.wordsWith ws)
  | cons {f fs ws vs} (body : f.body.Written ws) (others : Function.AllWritten fs vs) :
      Function.AllWritten (f :: fs) (f.wordsWith ws ++ vs)

/-- The words write the program. -/
def Program.Written (p : Program) (ws : List Word) : Prop := Function.AllWritten p.functions ws

/-! ## Trees that can be written -/

/-- `[A-Za-z_][A-Za-z0-9_]*`, but no keyword -/
def Printing.IsName (text : String) : Prop := Lexical.Fits .identifier text.toList

theorem Printing.isName_iff {text : String} :
    IsName text ↔ Lexical.Word text.toList ∧ ∀ k ∈ Keyword.all, text.toList ≠ k.spelling.toList :=
  and_congr_right fun _ => ⟨fun apart k _ => apart k, fun apart k => apart k k.mem_all⟩

instance : DecidablePred IsName := fun _ => decidable_of_iff _ Printing.isName_iff.symm

/-- There are words for the expression if there are words for its parts: a number has no sign, a
name is a name, and what cannot be left out is there. -/
def Expr.HasWords : Expr → Prop
  | .integer _ v => 0 ≤ v
  | .var _ name => IsName name
  | .call _ name args => IsName name ∧ args ≠ []
  | .letIn _ bindings _ | .loop _ bindings _ => bindings ≠ []
  | .recur _ args => args ≠ []
  | .cond _ _ _ _ | .unary _ _ _ | .binary _ _ _ _ => True

instance : DecidablePred Expr.HasWords
  | .integer _ v => inferInstanceAs (Decidable (0 ≤ v))
  | .var _ name => inferInstanceAs (Decidable (IsName name))
  | .call _ name args => inferInstanceAs (Decidable (IsName name ∧ args ≠ []))
  | .letIn _ bindings _ | .loop _ bindings _ => inferInstanceAs (Decidable (bindings ≠ []))
  | .recur _ args => inferInstanceAs (Decidable (args ≠ []))
  | .cond _ _ _ _ | .unary _ _ _ | .binary _ _ _ _ => inferInstanceAs (Decidable True)

/-- There are words for the node if there are words for its parts. -/
def Node.HasWords : Node → Prop
  | function f => f.params ≠ []
  | ident i => IsName i.name
  | expr e => e.HasWords

instance : DecidablePred Node.HasWords
  | .function f => inferInstanceAs (Decidable (f.params ≠ []))
  | .ident i => inferInstanceAs (Decidable (IsName i.name))
  | .expr e => inferInstanceAs (Decidable e.HasWords)

/-- There are words for every node of the expression. -/
def Expr.Writable (e : Expr) : Prop := ∀ n ∈ e.nodes, n.HasWords

/-- There are words for every node of the program, and it has a function. -/
def Program.Writable (p : Program) : Prop := p.functions ≠ [] ∧ ∀ n ∈ p.nodes, n.HasWords

instance : DecidablePred Expr.Writable := fun e =>
  inferInstanceAs (Decidable (∀ n ∈ e.nodes, n.HasWords))

instance : DecidablePred Program.Writable := fun p =>
  inferInstanceAs (Decidable (p.functions ≠ [] ∧ ∀ n ∈ p.nodes, n.HasWords))

mutual

/-- The needed parentheses are one way to write an expression. -/
theorem Expr.written_words {e : Expr} (fine : e.Writable) : e.Written e.words := by
  match e with
  | .integer _ _ => exact .integer
  | .var _ _ => exact .var
  | .call _ _ args =>
    obtain ⟨⟨_, nonempty⟩, args⟩ := List.forall_mem_cons.mp fine
    exact .call (Expr.argsWritten_argWords nonempty args)
  | .cond _ test thenBranch elseBranch =>
    obtain ⟨_, test, thenBranch, elseBranch⟩ := Expr.forall_nodes_cond.mp fine
    exact .cond (Expr.written_words test) (Expr.written_words thenBranch)
      (Expr.written_words elseBranch)
  | .unary _ _ operand => exact .unary (Expr.written_words (List.forall_mem_cons.mp fine).2)
  | .binary _ _ lhs rhs =>
    obtain ⟨lhs, _, rhs⟩ := Expr.forall_nodes_binary.mp fine
    exact .binary (Expr.written_words lhs) (Expr.written_words rhs)
  | .letIn _ bindings body =>
    obtain ⟨nonempty, bindings, body⟩ := Expr.forall_nodes_letIn.mp fine
    exact .letIn (Binding.allWritten_allWords nonempty bindings) (Expr.written_words body)
  | .loop _ bindings body =>
    obtain ⟨nonempty, bindings, body⟩ := Expr.forall_nodes_loop.mp fine
    exact .loop (Binding.allWritten_allWords nonempty bindings) (Expr.written_words body)
  | .recur _ args =>
    obtain ⟨nonempty, args⟩ := List.forall_mem_cons.mp fine
    exact .recur (Expr.argsWritten_argWords nonempty args)

theorem Expr.argsWritten_argWords {es : List Expr} (nonempty : es ≠ [])
    (fine : ∀ n ∈ Expr.allNodes es, n.HasWords) : Expr.ArgsWritten es (Expr.argWords es) := by
  match es with
  | [] => exact absurd rfl nonempty
  | [e] =>
    rw [Expr.argWords, Expr.argWords, List.append_nil]
    exact .last (Expr.written_words (List.forall_mem_append.mp fine).1)
  | e :: e' :: es =>
    obtain ⟨arg, others⟩ := List.forall_mem_append.mp fine
    exact .cons (Expr.written_words arg) (Expr.argsWritten_argWords (List.cons_ne_nil _ _) others)

theorem Binding.allWritten_allWords {bs : List Binding} (nonempty : bs ≠ [])
    (fine : ∀ n ∈ Binding.allNodes bs, n.HasWords) :
    Binding.AllWritten bs (Binding.allWords bs) := by
  match bs with
  | [] => exact absurd rfl nonempty
  | [⟨_, value⟩] =>
    obtain ⟨_, value, _⟩ := Binding.forall_allNodes_cons.mp fine
    exact .last (Expr.written_words value)
  | ⟨_, value⟩ :: b :: bs =>
    obtain ⟨_, value, others⟩ := Binding.forall_allNodes_cons.mp fine
    exact .cons (Expr.written_words value)
      (Binding.allWritten_allWords (List.cons_ne_nil _ _) others)

end

theorem Function.allWritten_words {fs : List Function} (nonempty : fs ≠ [])
    (fine : ∀ n ∈ fs.flatMap Function.nodes, n.HasWords) :
    Function.AllWritten fs (fs.flatMap Function.words) := by
  induction fs with
  | nil => exact absurd rfl nonempty
  | cons f fs ih =>
    rw [List.flatMap_cons] at fine ⊢
    obtain ⟨mine, others⟩ := List.forall_mem_append.mp fine
    have body : f.body.Writable := fun n mem => mine n (by simp [Function.nodes, mem])
    cases fs with
    | nil =>
      rw [List.flatMap_nil, List.append_nil]
      exact .last (Expr.written_words body)
    | cons g gs => exact .cons (Expr.written_words body) (ih (List.cons_ne_nil _ _) others)

theorem Program.written_words {p : Program} (fine : p.Writable) : p.Written p.words :=
  Function.allWritten_words fine.1 fine.2

/-! ## Trees without their tokens -/

/-- What stands in a tree where no token is kept. -/
def Token.none : Token := .endOfText .nowhere

/-- A name without the token that it is written with. -/
def Ident.bare (i : Ident) : Ident := ⟨.none, i.name⟩

mutual

/-- An expression without the tokens that it is written with. -/
def Expr.bare : Expr → Expr
  | .integer _ v => .integer .none v
  | .var _ name => .var .none name
  | .call _ name args => .call .none name (Expr.allBare args)
  | .cond _ test thenBranch elseBranch =>
    .cond .none test.bare thenBranch.bare elseBranch.bare
  | .unary _ op operand => .unary .none op operand.bare
  | .binary _ op lhs rhs => .binary .none op lhs.bare rhs.bare
  | .letIn _ bindings body => .letIn .none (Binding.allBare bindings) body.bare
  | .loop _ bindings body => .loop .none (Binding.allBare bindings) body.bare
  | .recur _ args => .recur .none (Expr.allBare args)

/-- Expressions without the tokens that they are written with. -/
def Expr.allBare : List Expr → List Expr
  | [] => []
  | e :: es => e.bare :: Expr.allBare es

/-- Bindings without the tokens that they are written with. -/
def Binding.allBare : List Binding → List Binding
  | [] => []
  | ⟨ident, value⟩ :: bs => ⟨ident.bare, value.bare⟩ :: Binding.allBare bs

end

/-- A function without the tokens that it is written with. -/
def Function.bare (f : Function) : Function :=
  ⟨.none, f.ident.bare, f.params.map Ident.bare, f.body.bare⟩

/-- A program without the tokens that it is written with. -/
def Program.bare (p : Program) : Program := ⟨p.functions.map Function.bare⟩

/-! ## Texts -/

namespace Printing

open Lexical (Blank)

/-- The text is made of these words, with one blank or more between any two of them. -/
inductive Spaced : List Word → List Char → Prop where
  | nil {gap} (blanks : ∀ c ∈ gap, Blank c) : Spaced [] gap
  | cons {gap w ws rest} (blanks : ∀ c ∈ gap, Blank c) (apart : ∀ c ∈ rest.head?, Blank c)
      (more : Spaced ws rest) : Spaced (w :: ws) (gap ++ (w.literal.toList ++ rest))

/-- The words with a space behind each of them. -/
def spacedOut : List Word → List Char
  | [] => []
  | w :: ws => w.literal.toList ++ ' ' :: spacedOut ws

theorem spaced_space_spacedOut (ws : List Word) : Spaced ws (' ' :: spacedOut ws) := by
  have space : ∀ c ∈ [' '], Blank c := List.forall_mem_singleton.mpr (Or.inl rfl)
  induction ws with
  | nil => exact .nil space
  | cons w ws ih => exact .cons space (by simp [Blank]) ih

theorem spaced_spacedOut (ws : List Word) : Spaced ws (spacedOut ws) := by
  cases ws with
  | nil => exact .nil (List.forall_mem_nil _)
  | cons w ws =>
    exact @Spaced.cons [] w ws _ (List.forall_mem_nil _) (by simp [Blank])
      (spaced_space_spacedOut ws)

end Printing

/-- An expression as a text. -/
def Expr.print (e : Expr) : String := String.ofList (spacedOut e.words)

theorem Expr.spaced_print (e : Expr) : Spaced e.words e.print.toList := by
  rw [Expr.print, String.toList_ofList]
  exact spaced_spacedOut _

/-- A program as a text. -/
def Program.print (p : Program) : String := String.ofList (spacedOut p.words)

theorem Program.spaced_print (p : Program) : Spaced p.words p.print.toList := by
  rw [Program.print, String.toList_ofList]
  exact spaced_spacedOut _

end LoopLang
