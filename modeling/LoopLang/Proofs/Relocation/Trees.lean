import LoopLang.Interpretation
import LoopLang.Proofs.Printing.Words

set_option autoImplicit false

/-! # Other places

Places are data that everything carries along: tokens, the trees made of them, diagnostics and the
errors of a run. `relocate f` puts each of these at other places, the place `p` becoming `f p`, and
leaves everything else as it is. -/

namespace LoopLang

variable (f : Position → Position)

/-! ## Tokens and trees -/

/-- The token at another place. -/
def Token.relocate (t : Token) : Token := { t with pos := f t.pos }

@[simp] theorem Token.relocate_kind (t : Token) : (t.relocate f).kind = t.kind := rfl

@[simp] theorem Token.relocate_literal (t : Token) : (t.relocate f).literal = t.literal := rfl

/-- The name with its token at another place. -/
def Ident.relocate (i : Ident) : Ident := ⟨i.token.relocate f, i.name⟩

mutual

/-- The expression with its tokens at other places. -/
def Expr.relocate : Expr → Expr
  | .integer t v => .integer (t.relocate f) v
  | .var t name => .var (t.relocate f) name
  | .call t name args => .call (t.relocate f) name (Expr.relocateAll args)
  | .cond t test thenBranch elseBranch =>
    .cond (t.relocate f) test.relocate thenBranch.relocate elseBranch.relocate
  | .unary t op operand => .unary (t.relocate f) op operand.relocate
  | .binary t op lhs rhs => .binary (t.relocate f) op lhs.relocate rhs.relocate
  | .letIn t bindings body => .letIn (t.relocate f) (Binding.relocateAll bindings) body.relocate
  | .loop t bindings body => .loop (t.relocate f) (Binding.relocateAll bindings) body.relocate
  | .recur t args => .recur (t.relocate f) (Expr.relocateAll args)

/-- Expressions with their tokens at other places. -/
def Expr.relocateAll : List Expr → List Expr
  | [] => []
  | e :: es => e.relocate :: Expr.relocateAll es

/-- Bindings with their tokens at other places. -/
def Binding.relocateAll : List Binding → List Binding
  | [] => []
  | ⟨ident, value⟩ :: bs => ⟨ident.relocate f, value.relocate⟩ :: Binding.relocateAll bs

end

/-- The binding with its tokens at other places. -/
def Binding.relocate (b : Binding) : Binding := ⟨b.ident.relocate f, b.value.relocate f⟩

@[simp] theorem Binding.relocate_name (b : Binding) : (b.relocate f).name = b.name := rfl

@[simp] theorem Expr.relocateAll_eq_map (es : List Expr) :
    Expr.relocateAll f es = es.map (Expr.relocate f) := by
  induction es with
  | nil => rfl
  | cons e es ih => rw [Expr.relocateAll, ih, List.map_cons]

@[simp] theorem Binding.relocateAll_eq_map (bs : List Binding) :
    Binding.relocateAll f bs = bs.map (Binding.relocate f) := by
  induction bs with
  | nil => rfl
  | cons b bs ih =>
    obtain ⟨ident, value⟩ := b
    rw [Binding.relocateAll, ih, List.map_cons]
    rfl

mutual

/-- Without its tokens, a tree is the same wherever they stand. -/
@[simp] theorem Expr.bare_relocate (e : Expr) : (e.relocate f).bare = e.bare := by
  match e with
  | .integer _ _ => rfl
  | .var _ _ => rfl
  | .call _ _ args => rw [Expr.relocate, Expr.bare, Expr.bare, Expr.allBare_relocate args]
  | .cond _ test thenBranch elseBranch =>
    rw [Expr.relocate, Expr.bare, Expr.bare, test.bare_relocate, thenBranch.bare_relocate,
      elseBranch.bare_relocate]
  | .unary _ _ operand => rw [Expr.relocate, Expr.bare, Expr.bare, operand.bare_relocate]
  | .binary _ _ lhs rhs =>
    rw [Expr.relocate, Expr.bare, Expr.bare, lhs.bare_relocate, rhs.bare_relocate]
  | .letIn _ bindings body =>
    rw [Expr.relocate, Expr.bare, Expr.bare, Binding.allBare_relocate bindings, body.bare_relocate]
  | .loop _ bindings body =>
    rw [Expr.relocate, Expr.bare, Expr.bare, Binding.allBare_relocate bindings, body.bare_relocate]
  | .recur _ args => rw [Expr.relocate, Expr.bare, Expr.bare, Expr.allBare_relocate args]

theorem Expr.allBare_relocate (es : List Expr) :
    Expr.allBare (Expr.relocateAll f es) = Expr.allBare es := by
  match es with
  | [] => rfl
  | e :: es =>
    rw [Expr.relocateAll, Expr.allBare, Expr.allBare, e.bare_relocate, Expr.allBare_relocate es]

theorem Binding.allBare_relocate (bs : List Binding) :
    Binding.allBare (Binding.relocateAll f bs) = Binding.allBare bs := by
  match bs with
  | [] => rfl
  | ⟨ident, value⟩ :: bs =>
    rw [Binding.relocateAll, Binding.allBare, Binding.allBare, value.bare_relocate,
      Binding.allBare_relocate bs]
    rfl

end

/-- The function with its tokens at other places. -/
def Function.relocate (g : Function) : Function :=
  ⟨g.token.relocate f, g.ident.relocate f, g.params.map (Ident.relocate f), g.body.relocate f⟩

@[simp] theorem Function.relocate_name (g : Function) : (g.relocate f).name = g.name := rfl

/-- The program with its tokens at other places. -/
def Program.relocate (p : Program) : Program := ⟨p.functions.map (Function.relocate f)⟩

/-! ## What can go wrong -/

/-- The diagnostic at another place. -/
def Diagnostic.relocate (d : Diagnostic) : Diagnostic := { d with pos := f d.pos }

/-- The ending, with a pending `recur` at another place. -/
def Ending.relocate : Ending → Ending
  | value v => value v
  | pending values pos => pending values (f pos)

/-- The error at another place, if it has one. -/
def RuntimeError.relocate : RuntimeError → RuntimeError
  | unboundVariable name pos => unboundVariable name (f pos)
  | undefinedFunction name pos => undefinedFunction name (f pos)
  | duplicateFunction name pos => duplicateFunction name (f pos)
  | noMain => noMain
  | mainArity expected got => mainArity expected got
  | callArity name expected got pos => callArity name expected got (f pos)
  | recurArity expected got pos => recurArity expected got (f pos)
  | recurIn site pos => recurIn site (f pos)
  | escapedRecur name pos => escapedRecur name (f pos)

/-- The failure with its diagnostics or its error at other places. -/
def Failure.relocate : Failure → Failure
  | parse ds => parse (ds.map (Diagnostic.relocate f))
  | runtime e => runtime (e.relocate f)

end LoopLang
