import LoopLang.Expr.Prefix
import LoopLang.Proofs.Grammar.Completeness

set_option autoImplicit false

/-! # Where an operation splits

Primaries joined by operators make one tree, and one rule tells which: its root is the loosest of
the operators, the rightmost one if several are equally loose, and what stands on either side of the
root makes a tree by the same rule. `Split` is this rule; it knows nothing of thresholds and of the
order in which tokens are taken. The parser never looks for the loosest operator. It climbs: it
folds the operators that bind tighter than a threshold into a left operand as it comes to them, each
with a right operand that is a climb of its own. Both give the same tree. -/

namespace LoopLang

/-- An operator and the operand on its right. -/
structure Joint where
  sign : Token
  op : BinaryOp
  operand : Expr

/-- Whether the operator binds tighter than a threshold. -/
def Joint.above (threshold : Nat) (j : Joint) : Bool := threshold < j.op.precedence

/-! ## The rule -/

/-- The tree of a first operand and the joints behind it. -/
inductive Split : Expr → List Joint → Expr → Prop where
  | operand {e} : Split e [] e
  | root {e left j right a b} (left_le : ∀ i ∈ left, j.op.precedence ≤ i.op.precedence)
      (right_lt : ∀ i ∈ right, j.op.precedence < i.op.precedence) (lhs : Split e left a)
      (rhs : Split j.operand right b) : Split e (left ++ j :: right) (.binary j.sign j.op a b)

/-- No two joints can both be the root. -/
theorem Split.root_unique {left right left' right' : List Joint} {i j : Joint}
    (same : left ++ i :: right = left' ++ j :: right')
    (right_lt : ∀ k ∈ right, i.op.precedence < k.op.precedence)
    (left_le' : ∀ k ∈ left', j.op.precedence ≤ k.op.precedence) : left'.length ≤ left.length := by
  rcases List.append_eq_append_iff.mp same with ⟨between, rfl, behind⟩ | ⟨between, rfl, _⟩
  · cases between with
    | nil => simp
    | cons k between =>
      -- the one root would stand in front of the other, which would be looser and yet not tighter
      obtain ⟨rfl, rfl⟩ := List.cons.inj behind
      have le := left_le' i (by simp)
      have lt := right_lt j (by simp)
      omega
  · simp

/-- The rule gives one tree. -/
theorem Split.unique {e a b : Expr} {js : List Joint} (h : Split e js a) (h' : Split e js b) :
    a = b := by
  induction h generalizing b with
  | operand =>
    generalize none : ([] : List Joint) = js at h'
    cases h' with
    | operand => rfl
    | root => simp at none
  | @root e left j right a₁ a₂ left_le right_lt _ _ ihl ihr =>
    generalize all : left ++ j :: right = js at h'
    cases h' with
    | operand => simp at all
    | root left_le' right_lt' lhs' rhs' =>
      have le := root_unique all right_lt left_le'
      have ge := root_unique all.symm right_lt' left_le
      obtain ⟨rfl, others⟩ := List.append_inj all (Nat.le_antisymm ge le)
      obtain ⟨rfl, rfl⟩ := List.cons.inj others
      rw [ihl lhs', ihr rhs']

/-- A joint with the tighter ones behind it can be folded into the first operand, in front of a
joint that is no tighter. -/
theorem Split.fold {e b t : Expr} {j : Joint} {inner rest : List Joint}
    (inner_lt : ∀ i ∈ inner, j.op.precedence < i.op.precedence) (rhs : Split j.operand inner b)
    (next : ∀ i ∈ rest.head?, i.op.precedence ≤ j.op.precedence)
    (whole : Split (.binary j.sign j.op e b) rest t) : Split e (j :: (inner ++ rest)) t := by
  generalize folded : Expr.binary j.sign j.op e b = lhs at whole
  induction whole with
  | operand =>
    subst folded
    simpa using Split.root (List.forall_mem_nil _) inner_lt .operand rhs
  | @root f left i right a c left_le right_lt lhs' rhs' ihl _ =>
    subst folded
    have next' : ∀ k ∈ left.head?, k.op.precedence ≤ j.op.precedence := fun k mem =>
      next k (by rw [List.head?_append, Option.mem_def.mp mem]; rfl)
    -- the root of the rest stays the root: it is no tighter than the joint that comes next
    have loosest : i.op.precedence ≤ j.op.precedence := by
      cases left with
      | nil => exact next i rfl
      | cons k left => exact Nat.le_trans (left_le k (by simp)) (next' k rfl)
    have left_le' : ∀ k ∈ j :: (inner ++ left), i.op.precedence ≤ k.op.precedence := by
      intro k mem
      rcases List.mem_cons.mp mem with rfl | mem
      · exact loosest
      · rcases List.mem_append.mp mem with mem | mem
        · exact Nat.le_trans loosest (Nat.le_of_lt (inner_lt k mem))
        · exact left_le k mem
    have rearranged : j :: (inner ++ (left ++ i :: right)) =
        (j :: (inner ++ left)) ++ i :: right := by simp
    rw [rearranged]
    exact .root left_le' right_lt (ihl next' rfl) rhs'

/-- Operators and primaries in turn. -/
inductive Grammar.Joints : List Token → List Joint → Prop where
  | nil : Joints [] []
  | cons {t op ts e us js} (sign : BinaryOp.ofTokenKind? t.kind = some op)
      (operand : Grammar.Primary ts e) (others : Joints us js) :
      Joints (t :: (ts ++ us)) (⟨t, op, e⟩ :: js)

namespace Parser

/-! ## Climbing -/

/-- Taking operators and reading a primary behind each leads from the one parser to the other. -/
inductive Joined (n : Nat) : Parser → List Joint → Parser → Prop where
  | nil {p} : Joined n p [] p
  | cons {p q r j js} (sign : p.current = j.sign)
      (op : BinaryOp.ofTokenKind? j.sign.kind = some j.op)
      (operand : primary n p.step = .ok j.operand q) (others : Joined n q js r) :
      Joined n p (j :: js) r

theorem Joined.append {n : Nat} {p q r : Parser} {js ks : List Joint} (first : Joined n p js q)
    (second : Joined n q ks r) : Joined n p (js ++ ks) r := by
  induction first with
  | nil => exact second
  | cons sign op operand _ ih => exact .cons sign op operand (ih second)

/-- A primary brings no tokens back. -/
theorem primary_size_le {n : Nat} {p q : Parser} {e : Expr} (room : p.size < n)
    (read : primary n p = .ok e q) : q.size ≤ p.size := by
  have ends := ends_primary n p room
  rw [read] at ends
  exact Nat.le_of_lt_succ ends

theorem size_step_lt_of_operator {p : Parser} {op : BinaryOp}
    (found : BinaryOp.ofTokenKind? p.current.kind = some op) : p.step.size < p.size := by
  refine size_step_lt fun atEnd => ?_
  rw [atEnd] at found
  cases found

theorem Joined.size_le {n : Nat} {p q : Parser} {js : List Joint} (joined : Joined n p js q)
    (room : p.size < n) : q.size ≤ p.size := by
  induction joined with
  | nil => exact Nat.le_refl _
  | cons sign op operand _ ih =>
    have shorter := size_step_lt_of_operator (sign ▸ op)
    have shorter' := primary_size_le (by omega) operand
    have shorter'' := ih (by omega)
    omega

theorem above_of_mem_takeWhile {t : Nat} {j : Joint} {js : List Joint}
    (mem : j ∈ js.takeWhile (Joint.above t)) : t < j.op.precedence :=
  of_decide_eq_true (List.all_eq_true.mp List.all_takeWhile j mem)

/-- What a looser threshold takes begins with what a tighter one takes. -/
theorem takeWhile_above {s t : Nat} (le : s ≤ t) (js : List Joint) :
    js.takeWhile (Joint.above s) =
        js.takeWhile (Joint.above t) ++ (js.dropWhile (Joint.above t)).takeWhile (Joint.above s)
      ∧ js.dropWhile (Joint.above s) =
        (js.dropWhile (Joint.above t)).dropWhile (Joint.above s) := by
  have front : ∀ j ∈ js.takeWhile (Joint.above t), j.above s = true := fun j mem =>
    decide_eq_true (Nat.lt_of_le_of_lt le (above_of_mem_takeWhile mem))
  have all := List.takeWhile_append_dropWhile (p := Joint.above t) (l := js)
  constructor
  · calc js.takeWhile (Joint.above s)
        = (js.takeWhile (Joint.above t) ++ js.dropWhile (Joint.above t)).takeWhile
            (Joint.above s) := by rw [all]
      _ = _ := List.takeWhile_append_of_pos front
  · calc js.dropWhile (Joint.above s)
        = (js.takeWhile (Joint.above t) ++ js.dropWhile (Joint.above t)).dropWhile
            (Joint.above s) := by rw [all]
      _ = _ := List.dropWhile_append_of_pos front

/-- From a left operand on, the climb takes the joints above the threshold and splits them. -/
theorem climb_splits {m n : Nat} (threshold : Nat) (lhs : Expr) {p q : Parser} {js : List Joint}
    (enough : p.size < m) (room : p.size < n) (joined : Joined m p js q)
    (ends : BinaryOp.ofTokenKind? q.current.kind = none) :
    ∃ e r, climb (primary m) n threshold lhs p = .ok e r
      ∧ Joined m p (js.takeWhile (Joint.above threshold)) r
      ∧ Joined m r (js.dropWhile (Joint.above threshold)) q
      ∧ Split lhs (js.takeWhile (Joint.above threshold)) e := by
  -- both climbs behind an operator have one step fewer, so the induction is on the steps
  induction n generalizing threshold lhs p js with
  | zero => omega
  | succ n ih =>
    cases joined with
    | nil =>
      have stops : q.StopsAt threshold := fun op found => by
        rw [ends] at found
        cases found
      exact ⟨lhs, q, climb_of_stopsAt stops, .nil, .nil, .operand⟩
    | @cons _ q₁ _ j js sign op operand others =>
      have found : BinaryOp.ofTokenKind? p.current.kind = some j.op := sign ▸ op
      by_cases above : threshold < j.op.precedence
      · have shorter := size_step_lt_of_operator found
        have shorter' := primary_size_le (by omega) operand
        -- the right operand is what the operator itself, as the threshold, takes of the others
        obtain ⟨b, r₁, right, taken, left, rhs⟩ :=
          ih j.op.precedence j.operand (by omega) (by omega) others
        have shorter'' := taken.size_le (by omega)
        obtain ⟨e, r, rest, taken', left', whole⟩ :=
          ih threshold (.binary j.sign j.op lhs b) (by omega) (by omega) left
        obtain ⟨takes, drops⟩ := takeWhile_above (Nat.le_of_lt above) js
        have front : (j :: js).takeWhile (Joint.above threshold) =
            j :: js.takeWhile (Joint.above threshold) :=
          List.takeWhile_cons_of_pos (decide_eq_true above)
        have behind : (j :: js).dropWhile (Joint.above threshold) =
            js.dropWhile (Joint.above threshold) :=
          List.dropWhile_cons_of_pos (decide_eq_true above)
        rw [front, behind, takes, drops]
        refine ⟨e, r, ?_, .cons sign op operand (taken.append taken'), left', ?_⟩
        · have operated : operation (primary m) n j.op.precedence p.step = .ok b r₁ :=
            (bind_of_ok operand).trans right
          rw [climb_of_operator found above, bind_of_ok operated, sign, rest]
        · refine .fold (fun i mem => ?_) rhs (fun i mem => ?_) whole
          · exact above_of_mem_takeWhile mem
          · rw [List.head?_takeWhile] at mem
            obtain ⟨first, _⟩ := Option.filter_eq_some_iff.mp mem
            have loose := List.head?_dropWhile_not (Joint.above j.op.precedence) js
            rw [first] at loose
            exact Nat.le_of_not_lt (of_decide_eq_false loose)
      · have stops : p.StopsAt threshold := fun op' found' => by
          obtain rfl := Option.some.inj (found.symm.trans found')
          exact Nat.le_of_not_lt above
        have nothing : (j :: js).takeWhile (Joint.above threshold) = [] :=
          List.takeWhile_cons_of_neg (by simpa [Joint.above] using above)
        have all : (j :: js).dropWhile (Joint.above threshold) = j :: js :=
          List.dropWhile_cons_of_neg (by simpa [Joint.above] using above)
        rw [nothing, all]
        exact ⟨lhs, p, climb_of_stopsAt stops, .nil, .cons sign op operand others, .operand⟩

/-! ## Reading primaries in turn -/

/-- No argument stands where an operator does, or in front of what is no argument. -/
theorem no_argument_of_joints {us : List Token} {js : List Joint} (h : Grammar.Joints us js)
    {p q : Parser} (pass : p.Passes us q) (next : q.current.kind ≠ .symbol .leftParen) :
    p.current.kind ≠ .symbol .leftParen := by
  cases h with
  | nil =>
    obtain rfl : q = p := pass
    exact next
  | cons sign _ _ =>
    intro here
    rw [← pass.1, here] at sign
    cases sign

theorem joined_of_joints {n : Nat} {us : List Token} {js : List Joint} (h : Grammar.Joints us js)
    {p q : Parser} (pass : p.Passes us q) (room : p.size < n)
    (next : q.current.kind ≠ .symbol .leftParen) : Joined n p js q := by
  induction h generalizing p with
  | nil =>
    obtain rfl : q = p := pass
    exact .nil
  | cons sign operand others ih =>
    obtain ⟨rfl, pass⟩ := pass
    obtain ⟨p₁, front, behind⟩ := passes_append.mp pass
    have shorter := size_step_lt_of_operator sign
    have shorter' := front.size_le
    have read := read_primary operand front (n := n) (by omega)
      (no_argument_of_joints others behind next)
    exact .cons rfl sign read (ih behind (by omega))

/-- **An operation splits at the rightmost of its loosest operators.** Where primaries joined by
operators come next, and behind them no operator, an operation over a threshold takes the first
primary and the joints up to the first one that is not above the threshold, stops in front of this
one, and ends with the one tree that the rule gives for what it took. So it is with all that the
grammar calls primaries joined by operators, unless an argument follows that would belong to the
last of them. -/
theorem operation_splits {n : Nat} {p : Parser} (room : p.size < n) (threshold : Nat) :
    (∀ first js p₁ q, primary n p = .ok first p₁ → Joined n p₁ js q →
      BinaryOp.ofTokenKind? q.current.kind = none →
      ∃ e r, operation (primary n) n threshold p = .ok e r
        ∧ Joined n p₁ (js.takeWhile (Joint.above threshold)) r
        ∧ Joined n r (js.dropWhile (Joint.above threshold)) q
        ∧ ∀ t, Split first (js.takeWhile (Joint.above threshold)) t ↔ t = e)
    ∧ ∀ ts us first js q, Grammar.Primary ts first → Grammar.Joints us js →
      p.Passes (ts ++ us) q → q.current.kind ≠ .symbol .leftParen →
      ∃ p₁, primary n p = .ok first p₁ ∧ p.Passes ts p₁ ∧ Joined n p₁ js q := by
  constructor
  · intro first js p₁ q read joined ends
    have shorter := primary_size_le room read
    obtain ⟨e, r, climbed, taken, left, split⟩ :=
      climb_splits (n := n) threshold first (by omega) (by omega) joined ends
    refine ⟨e, r, (bind_of_ok read).trans climbed, taken, left, fun t => ?_⟩
    constructor
    · exact fun split' => split'.unique split
    · rintro rfl
      exact split
  · intro ts us first js q primary joints pass next
    obtain ⟨p₁, front, behind⟩ := passes_append.mp pass
    have shorter := front.size_le
    have next₁ := no_argument_of_joints joints behind next
    exact ⟨p₁, read_primary primary front room next₁, front,
      joined_of_joints joints behind (by omega) next⟩

/-- Over the threshold of comparisons, sums and products are taken, and the last sum is the root. -/
theorem operation_splits_sums :
    (ofSource "1 * 2 + 3 * 4 + 5 < 6").step.size < 12
      ∧ ∃ (first : Expr) (js : List Joint) (p₁ : Parser) (e : Expr) (r : Parser),
        operation (primary 12) 12 2 (ofSource "1 * 2 + 3 * 4 + 5 < 6").step = .ok e r
        ∧ e.text = "(+ (+ (* 1 2) (* 3 4)) 5)" ∧ r.current.text = "<"
        ∧ js.length = 5 ∧ (js.takeWhile (Joint.above 2)).length = 4
        ∧ Joined 12 p₁ (js.takeWhile (Joint.above 2)) r
        ∧ ∀ t, Split first (js.takeWhile (Joint.above 2)) t ↔ t = e := by
  have room : (ofSource "1 * 2 + 3 * 4 + 5 < 6").step.size < 12 := by decide +kernel
  refine ⟨room, ?_⟩
  obtain ⟨e, r, read, taken, _, split⟩ := (operation_splits room 2).1 _ _ _ _ rfl
    (.cons (j := ⟨_, .mul, _⟩) rfl rfl rfl <| .cons (j := ⟨_, .add, _⟩) rfl rfl rfl <|
      .cons (j := ⟨_, .mul, _⟩) rfl rfl rfl <| .cons (j := ⟨_, .add, _⟩) rfl rfl rfl <|
      .cons (j := ⟨_, .less, _⟩) rfl rfl rfl .nil) rfl
  have same : operation (primary 12) 12 2 (ofSource "1 * 2 + 3 * 4 + 5 < 6").step = .ok _ _ := rfl
  cases same.symm.trans read
  exact ⟨_, _, _, _, _, rfl, rfl, rfl, rfl, rfl, taken, split⟩

end Parser

end LoopLang
