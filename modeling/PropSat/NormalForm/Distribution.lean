import PropSat.Formula.Fold
import PropSat.Formula.Spine

/-!
Disjunctions moved below conjunctions. Going bottom-up, the operands of an `or` are conjunctions
already; the `or` becomes the conjunction of all pairs of their conjuncts, so that one pass leaves no
`and` directly below an `or`.
-/

namespace PropSat

theorem Connective.joinAll?_isSome {op : Connective} {fs : List Formula} (some_left : fs ≠ []) :
    (op.joinAll? fs).isSome := by
  cases fs with
  | nil => contradiction
  | cons => rfl

namespace Formula

theorem spine_ne_nil (op : Connective) (f : Formula) : f.spine op ≠ [] := by
  induction f with
  | var | not => simp
  | binary op' left right ihl ihr =>
    by_cases same : op' = op
    · subst same; simp [ihl]
    · simp [spine_binary_of_ne same]

/-- Every disjunction of a formula of the one list with a formula of the other, the first list
outermost. -/
def pairs (lefts rights : List Formula) : List Formula :=
  lefts.flatMap fun l => rights.map (.or l)

theorem pairs_ne_nil {lefts rights : List Formula} (hl : lefts ≠ []) (hr : rights ≠ []) :
    pairs lefts rights ≠ [] := by
  cases lefts <;> cases rights <;> simp_all [pairs]

/-- The pairs in the order they are written: a lone conjunct on the right is paired from the left. -/
def disjuncts (left right : Formula) : List Formula :=
  let lefts := left.spine .and
  let rights := right.spine .and
  if 1 < lefts.length ∧ rights.length = 1 then pairs rights lefts else pairs lefts rights

theorem disjuncts_ne_nil (left right : Formula) : disjuncts left right ≠ [] := by
  have hl := spine_ne_nil .and left
  have hr := spine_ne_nil .and right
  dsimp only [disjuncts]
  split
  · exact pairs_ne_nil hr hl
  · exact pairs_ne_nil hl hr

def disjoin (left right : Formula) : Formula :=
  (Connective.and.joinAll? (disjuncts left right)).get
    (Connective.joinAll?_isSome (disjuncts_ne_nil left right))

def orNode : Node Formula → Formula
  | .binary .or left right => disjoin left right
  | node => node.toFormula

def distributeOr (f : Formula) : Formula := f.fold orNode

@[simp] theorem distributeOr_var (name : String) : (var name).distributeOr = .var name :=
  fold_var orNode name

@[simp] theorem distributeOr_not (arg : Formula) : (not arg).distributeOr = .not arg.distributeOr :=
  fold_not orNode arg

@[simp] theorem distributeOr_or (left right : Formula) :
    (or left right).distributeOr = disjoin left.distributeOr right.distributeOr :=
  fold_binary orNode .or left right

theorem distributeOr_binary_of_ne {op : Connective} (differ : op ≠ .or) (left right : Formula) :
    (binary op left right).distributeOr = .binary op left.distributeOr right.distributeOr := by
  rw [distributeOr, fold_binary]
  cases op with
  | or => contradiction
  | and | implies | iff => rfl

end Formula

end PropSat
