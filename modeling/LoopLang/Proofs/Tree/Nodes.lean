import LoopLang.Decimal
import LoopLang.Expr

set_option autoImplicit false

/-! # The nodes of a tree

A tree keeps its tokens at its nodes: its functions, the names that it introduces, and its
expressions. They are listed in the order in which their tokens stand in a source text. A node fits
if its token is the one that such a node is written with and none of its lists is empty. -/

namespace LoopLang

/-! ## Nodes -/

/-- A part of a tree that keeps a token. -/
inductive Node where
  | function (f : Function)
  | ident (i : Ident)
  | expr (e : Expr)

namespace Node

/-- The token that is kept at a node. -/
def token : Node → Token
  | function f => f.token
  | ident i => i.token
  | expr e => e.token

/-- The place of a node. -/
def pos (n : Node) : Position := n.token.pos

end Node

mutual

/-- All nodes of an expression, itself among them. -/
def Expr.nodes : Expr → List Node
  | .integer t v => [.expr (.integer t v)]
  | .var t name => [.expr (.var t name)]
  | .call t name args => .expr (.call t name args) :: Expr.allNodes args
  | .cond t test thenBranch elseBranch =>
    .expr (.cond t test thenBranch elseBranch)
      :: (test.nodes ++ (thenBranch.nodes ++ elseBranch.nodes))
  | .unary t op operand => .expr (.unary t op operand) :: operand.nodes
  | .binary t op lhs rhs => lhs.nodes ++ .expr (.binary t op lhs rhs) :: rhs.nodes
  | .letIn t bindings body =>
    .expr (.letIn t bindings body) :: (Binding.allNodes bindings ++ body.nodes)
  | .loop t bindings body =>
    .expr (.loop t bindings body) :: (Binding.allNodes bindings ++ body.nodes)
  | .recur t args => .expr (.recur t args) :: Expr.allNodes args

/-- All nodes of the expressions of a list. -/
def Expr.allNodes : List Expr → List Node
  | [] => []
  | e :: es => e.nodes ++ Expr.allNodes es

/-- All nodes of the bindings of a list: a name, then the nodes of its value. -/
def Binding.allNodes : List Binding → List Node
  | [] => []
  | ⟨ident, value⟩ :: bs => .ident ident :: (value.nodes ++ Binding.allNodes bs)

end

/-- All nodes of a function: itself, its name, its parameters and those of its body. -/
def Function.nodes (f : Function) : List Node :=
  .function f :: .ident f.ident :: (f.params.map .ident ++ f.body.nodes)

/-- All nodes of a program. -/
def Program.nodes (p : Program) : List Node :=
  p.functions.flatMap Function.nodes

theorem Expr.mem_nodes (e : Expr) : .expr e ∈ e.nodes := by
  cases e <;> simp [Expr.nodes]

theorem Expr.mem_allNodes {n : Node} {es : List Expr} :
    n ∈ Expr.allNodes es ↔ ∃ e ∈ es, n ∈ e.nodes := by
  induction es with
  | nil => simp [Expr.allNodes]
  | cons e es ih => simp [Expr.allNodes, ih]

theorem Binding.mem_allNodes {n : Node} {bs : List Binding} :
    n ∈ Binding.allNodes bs ↔ ∃ b ∈ bs, n = .ident b.ident ∨ n ∈ b.value.nodes := by
  induction bs with
  | nil => simp [Binding.allNodes]
  | cons b bs ih =>
    obtain ⟨ident, value⟩ := b
    simp [Binding.allNodes, ih, or_assoc]

theorem Program.mem_nodes {n : Node} {p : Program} :
    n ∈ p.nodes ↔ ∃ f ∈ p.functions, n ∈ f.nodes :=
  List.mem_flatMap

section Parts

variable {P : Node → Prop} {t : Token} {op : BinaryOp} {e a b : Expr} {bs : List Binding}

theorem Expr.forall_nodes_cond : (∀ n ∈ (Expr.cond t e a b).nodes, P n) ↔
    P (.expr (.cond t e a b)) ∧ (∀ n ∈ e.nodes, P n) ∧ (∀ n ∈ a.nodes, P n)
      ∧ ∀ n ∈ b.nodes, P n := by
  simp only [Expr.nodes, List.forall_mem_cons, List.forall_mem_append]

theorem Expr.forall_nodes_binary : (∀ n ∈ (Expr.binary t op a b).nodes, P n) ↔
    (∀ n ∈ a.nodes, P n) ∧ P (.expr (.binary t op a b)) ∧ ∀ n ∈ b.nodes, P n := by
  simp only [Expr.nodes, List.forall_mem_cons, List.forall_mem_append]

theorem Expr.forall_nodes_letIn : (∀ n ∈ (Expr.letIn t bs e).nodes, P n) ↔
    P (.expr (.letIn t bs e)) ∧ (∀ n ∈ Binding.allNodes bs, P n) ∧ ∀ n ∈ e.nodes, P n := by
  simp only [Expr.nodes, List.forall_mem_cons, List.forall_mem_append]

theorem Expr.forall_nodes_loop : (∀ n ∈ (Expr.loop t bs e).nodes, P n) ↔
    P (.expr (.loop t bs e)) ∧ (∀ n ∈ Binding.allNodes bs, P n) ∧ ∀ n ∈ e.nodes, P n := by
  simp only [Expr.nodes, List.forall_mem_cons, List.forall_mem_append]

theorem Binding.forall_allNodes_cons {i : Ident} :
    (∀ n ∈ Binding.allNodes (⟨i, e⟩ :: bs), P n) ↔
      P (.ident i) ∧ (∀ n ∈ e.nodes, P n) ∧ ∀ n ∈ Binding.allNodes bs, P n := by
  simp only [Binding.allNodes, List.forall_mem_cons, List.forall_mem_append]

end Parts

/-! ## Calls -/

/-- If the node is a call, it calls a known function. -/
def Node.CallsKnown (known : String → Prop) : Node → Prop
  | expr (.call _ name _) => known name
  | _ => True

instance {known : String → Prop} [DecidablePred known] : DecidablePred (Node.CallsKnown known)
  | .expr (.call _ name _) => inferInstanceAs (Decidable (known name))
  | .function _ | .ident _ | .expr (.integer _ _) | .expr (.var _ _) | .expr (.cond _ _ _ _)
  | .expr (.unary _ _ _) | .expr (.binary _ _ _ _) | .expr (.letIn _ _ _) | .expr (.loop _ _ _)
  | .expr (.recur _ _) => inferInstanceAs (Decidable True)

/-! ## Tokens that fit -/

/-- How an operator is written. -/
def UnaryOp.symbol : UnaryOp → Symbol
  | not => .bang
  | neg => .minus

/-- How an operator is written. -/
def BinaryOp.symbol : BinaryOp → Symbol
  | and => .andAnd
  | or => .orOr
  | less => .less
  | equal => .equalEqual
  | add => .plus
  | mul => .star

/-- The token of an expression is the one that it is written with, and none of its lists is
empty. -/
def Expr.Fits : Expr → Prop
  | .integer t v =>
    t.kind = .integer ∧ t.literal.toList ≠ [] ∧ t.literal.toList.all Char.isDigit = true
      ∧ v.toInt = Decimal.value t.literal.toList
  | .var t name => t.kind = .identifier ∧ t.literal = name
  | .call t name args => t.kind = .identifier ∧ t.literal = name ∧ args ≠ []
  | .cond t _ _ _ => t.kind = .keyword .ifKw
  | .unary t op _ => t.kind = .symbol op.symbol
  | .binary t op _ _ => t.kind = .symbol op.symbol
  | .letIn t bindings _ => t.kind = .keyword .letKw ∧ bindings ≠ []
  | .loop t bindings _ => t.kind = .keyword .loopKw ∧ bindings ≠ []
  | .recur t args => t.kind = .keyword .recurKw ∧ args ≠ []

/-- The token of a node is the one that it is written with, and none of its lists is empty. -/
def Node.Fits : Node → Prop
  | function f => f.token.kind = .keyword .letKw ∧ f.params ≠ []
  | ident i => i.token.kind = .identifier ∧ i.token.literal = i.name
  | expr e => e.Fits

/-! ## Places -/

/-- Of the nodes of a tree, this one alone has its place. -/
def Node.Alone (nodes : List Node) (n : Node) : Prop :=
  nodes.filter (fun m => m.pos = n.pos) = [n]

/-- Where no two nodes share a place, every node has its place alone. -/
theorem Node.alone_of_nodup {nodes : List Node} (distinct : (nodes.map Node.pos).Nodup) {n : Node}
    (mem : n ∈ nodes) : n.Alone nodes := by
  induction nodes with
  | nil => cases mem
  | cons m ms ih =>
    obtain ⟨first, others⟩ := List.nodup_cons.mp distinct
    unfold Alone
    rcases List.mem_cons.mp mem with rfl | mem
    · have none : ms.filter (fun m => m.pos = n.pos) = [] := by
        refine List.filter_eq_nil_iff.mpr fun m mem same => first ?_
        exact of_decide_eq_true same ▸ List.mem_map_of_mem mem
      simp [none]
    · have other : m.pos ≠ n.pos := fun same => first (same ▸ List.mem_map_of_mem mem)
      rw [List.filter_cons_of_neg (by simpa using other)]
      exact ih others mem

end LoopLang
