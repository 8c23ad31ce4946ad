import PropSat.Proofs.NormalForm.Equivalence

/-!
The passes with nothing taken for granted. Negations move down on two stacks, of what is still to be read
and of finished formulas, with a mark on what is to be read negated. Wherever a connective, the end of a pass
or a distribution needs formulas that earlier work has to leave, there is no result here if they are missing.
None ever is: each formula entered leaves just its reading on top (`descend?_visit`), and the passes have the
results of the readings and folds they stand for (`toCnf?_eq`).
-/

namespace PropSat

/-- What a connective becomes when the whole is negated. -/
def Connective.dual : Connective → Connective
  | .and => .or
  | .or => .and
  | .implies => .and
  | .iff => .iff

/-- Whether a negation of the whole negates the left operand. The right one always is. -/
def Connective.negatesLeft : Connective → Bool
  | .and | .or => true
  | .implies | .iff => false

namespace Formula

/-- A formula yet to be read, as it stands or negated, or a connective that waits for its operands. -/
inductive Descent where
  | visit (f : Formula) (negated : Bool)
  | join (op : Connective)

def Descent.weight : Descent → Nat
  | .visit f _ => 2 * f.size
  | .join _ => 1

def Descent.total : List Descent → Nat
  | [] => 0
  | task :: work => task.weight + total work

/-- Works off the tasks, newest first; `done` holds the finished formulas, newest first. -/
def descend? : List Descent → List Formula → Option (List Formula)
  | [], done => some done
  | .visit (.var name) negated :: work, done =>
    descend? work ((if negated then .not (.var name) else .var name) :: done)
  | .visit (.not arg) negated :: work, done => descend? (.visit arg (!negated) :: work) done
  | .visit (.binary op left right) negated :: work, done =>
    descend? (.visit left (negated && op.negatesLeft) :: .visit right negated ::
      .join (if negated then op.dual else op) :: work) done
  | .join op :: work, right :: left :: done => descend? work (.binary op left right :: done)
  | .join _ :: _, _ => none
termination_by work => Descent.total work
decreasing_by all_goals simp only [Descent.total, Descent.weight, size]; omega

/-- Negations moved down, if the traversal leaves a formula. -/
def nnf? (f : Formula) : Option Formula := (descend? [.visit f false] []).bind List.head?

def fold? {β : Type} (combine : Node β → β) (f : Formula) : Option β :=
  (f.foldWith? (fun node (_ : Unit) => (combine node, ())) ()).map Prod.fst

/-- A disjunction distributed over the conjuncts of both sides, if there are any. -/
def disjoin? (left right : Formula) : Option Formula := Connective.and.joinAll? (disjuncts left right)

/-- What a distribution makes of a node, if all below it has come to something. -/
def orNode? : Node (Option Formula) → Option Formula
  | .var name => some (.var name)
  | .not arg => arg.map .not
  | .binary .or left right => left.bind fun l => right.bind (disjoin? l)
  | .binary op left right => left.bind fun l => right.map (.binary op l)

def distributeOr? (f : Formula) : Option Formula := (f.fold? orNode?).join

def toCnf? (f : Formula) : Option Formula := do
  let f ← f.fold? iffNode
  let f ← f.fold? impliesNode
  let f ← f.nnf?
  f.distributeOr?

def Readings.of (r : Readings) (negated : Bool) : Formula := if negated then r.negative else r.positive

theorem readings_of_not (arg : Formula) (negated : Bool) :
    (not arg).readings.of negated = arg.readings.of (!negated) := by
  rw [readings_not]
  cases negated <;> rfl

theorem readings_of_binary (op : Connective) (left right : Formula) (negated : Bool) :
    (binary op left right).readings.of negated =
      .binary (if negated then op.dual else op) (left.readings.of (negated && op.negatesLeft))
        (right.readings.of negated) := by
  rw [readings_binary]
  cases negated <;> cases op <;> rfl

/-- Entering a formula leaves its reading on top of the finished formulas and nothing else changed. -/
theorem descend?_visit (f : Formula) (negated : Bool) (work : List Descent) (done : List Formula) :
    descend? (.visit f negated :: work) done = descend? work (f.readings.of negated :: done) := by
  induction f generalizing negated work done with
  | var name =>
    rw [descend?, readings_var]
    rfl
  | not arg ih => rw [descend?, ih, readings_of_not]
  | binary op left right ihl ihr => rw [descend?, ihl, ihr, descend?, readings_of_binary]

theorem nnf?_eq (f : Formula) : f.nnf? = some f.nnf := by
  rw [nnf?, descend?_visit, descend?]
  rfl

theorem fold?_eq {β : Type} (combine : Node β → β) (f : Formula) : f.fold? combine = some (f.fold combine) := by
  rw [fold?, foldWith?_eq, fold, foldWith_eq_walk]
  rfl

theorem distributeOr?_eq (f : Formula) : f.distributeOr? = some f.distributeOr := by
  have each : f.fold orNode? = some (f.fold orNode) := by
    induction f with
    | var name => rw [fold_var, fold_var]; rfl
    | not arg ih => rw [fold_not, fold_not, ih]; rfl
    | binary op left right ihl ihr =>
      rw [fold_binary, fold_binary, ihl, ihr]
      cases op with
      | and | implies | iff => rfl
      | or => exact joinAll?_disjuncts _ _
  rw [distributeOr?, fold?_eq, each]
  rfl

theorem toCnf?_eq (f : Formula) : f.toCnf? = some f.toCnf := by
  simp only [toCnf?, fold?_eq, Option.bind_eq_bind, Option.bind_some, nnf?_eq, distributeOr?_eq]
  rfl

end Formula

end PropSat
