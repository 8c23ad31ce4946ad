import PropSat.Formula.Basic

/-!
Bottom-up traversal of a formula on two explicit stacks, of work still to do and of finished
operands. `walk` is the same traversal as plain recursion: left operand, right operand, node. The
machine never finds an operand missing and ends where the recursion ends (`foldWith?_eq`), so the
total `foldWith` and `fold` need no default.
-/

namespace PropSat

universe u v

/-- One node of a formula with each operand replaced by what it came to. -/
inductive Node (β : Type u) where
  | var (name : String)
  | not (arg : β)
  | binary (op : Connective) (left right : β)

/-- Puts a node together again around its new operands. -/
def Node.toFormula : Node Formula → Formula
  | .var name => .var name
  | .not arg => .not arg
  | .binary op left right => .binary op left right

namespace Formula

/-- A formula yet to be entered, or a connective that waits for its operands. -/
inductive Task where
  | visit (f : Formula)
  | negate
  | join (op : Connective)

def Task.weight : Task → Nat
  | .visit f => 2 * f.size
  | .negate => 1
  | .join _ => 1

def Task.total : List Task → Nat
  | [] => 0
  | task :: work => task.weight + total work

section
variable {β : Type u} {σ : Type v}

/-- Works off the tasks, newest first; `done` holds the finished operands, newest first. Gives none
if a connective finds too few operands. -/
def run? (combine : Node β → σ → β × σ) : List Task → List β → σ → Option (List β × σ)
  | [], done, s => some (done, s)
  | .visit (.var name) :: work, done, s =>
    let r := combine (.var name) s
    run? combine work (r.1 :: done) r.2
  | .visit (.not arg) :: work, done, s =>
    run? combine (.visit arg :: .negate :: work) done s
  | .visit (.binary op left right) :: work, done, s =>
    run? combine (.visit left :: .visit right :: .join op :: work) done s
  | .negate :: work, arg :: done, s =>
    let r := combine (.not arg) s
    run? combine work (r.1 :: done) r.2
  | .join op :: work, right :: left :: done, s =>
    let r := combine (.binary op left right) s
    run? combine work (r.1 :: done) r.2
  | _ :: _, _, _ => none
termination_by work => Task.total work
decreasing_by all_goals simp only [Task.total, Task.weight, size]; omega

def foldWith? (combine : Node β → σ → β × σ) (f : Formula) (s : σ) : Option (β × σ) :=
  match run? combine [.visit f] [] s with
  | some (value :: _, s) => some (value, s)
  | _ => none

/-- Left operand, then right operand, then the node, with one state passed along. -/
def walk (combine : Node β → σ → β × σ) : Formula → σ → β × σ
  | .var name, s => combine (.var name) s
  | .not arg, s =>
    let a := walk combine arg s
    combine (.not a.1) a.2
  | .binary op left right, s =>
    let l := walk combine left s
    let r := walk combine right l.2
    combine (.binary op l.1 r.1) r.2

/-- Entering a formula leaves its value on top of the finished operands and nothing else changed. -/
theorem run?_visit (combine : Node β → σ → β × σ) (f : Formula) (work : List Task)
    (done : List β) (s : σ) :
    run? combine (.visit f :: work) done s =
      run? combine work ((walk combine f s).1 :: done) (walk combine f s).2 := by
  induction f generalizing work done s with
  | var name => rw [run?]; rfl
  | not arg ih => rw [run?, ih, run?]; rfl
  | binary op left right ihl ihr => rw [run?, ihl, ihr, run?]; rfl

theorem foldWith?_eq (combine : Node β → σ → β × σ) (f : Formula) (s : σ) :
    foldWith? combine f s = some (walk combine f s) := by
  rw [foldWith?, run?_visit, run?]

/-- Calls `combine` once on every node, after its operands, which are visited left to right. -/
def foldWith (combine : Node β → σ → β × σ) (f : Formula) (s : σ) : β × σ :=
  (foldWith? combine f s).get (by simp [foldWith?_eq])

theorem foldWith_eq_walk (combine : Node β → σ → β × σ) (f : Formula) (s : σ) :
    foldWith combine f s = walk combine f s := by
  simp [foldWith, foldWith?_eq]

@[simp] theorem foldWith_var (combine : Node β → σ → β × σ) (name : String) (s : σ) :
    foldWith combine (.var name) s = combine (.var name) s := by
  rw [foldWith_eq_walk, walk]

@[simp] theorem foldWith_not (combine : Node β → σ → β × σ) (arg : Formula) (s : σ) :
    foldWith combine (.not arg) s =
      combine (.not (foldWith combine arg s).1) (foldWith combine arg s).2 := by
  simp only [foldWith_eq_walk, walk]

@[simp] theorem foldWith_binary (combine : Node β → σ → β × σ) (op : Connective)
    (left right : Formula) (s : σ) :
    foldWith combine (.binary op left right) s =
      combine (.binary op (foldWith combine left s).1
          (foldWith combine right (foldWith combine left s).2).1)
        (foldWith combine right (foldWith combine left s).2).2 := by
  simp only [foldWith_eq_walk, walk]

def fold (combine : Node β → β) (f : Formula) : β :=
  (f.foldWith (fun node (_ : Unit) => (combine node, ())) ()).1

@[simp] theorem fold_var (combine : Node β → β) (name : String) :
    fold combine (.var name) = combine (.var name) := by
  simp [fold]

@[simp] theorem fold_not (combine : Node β → β) (arg : Formula) :
    fold combine (.not arg) = combine (.not (fold combine arg)) := by
  simp [fold]

@[simp] theorem fold_binary (combine : Node β → β) (op : Connective) (left right : Formula) :
    fold combine (.binary op left right) =
      combine (.binary op (fold combine left) (fold combine right)) := by
  simp [fold]

end

end Formula

end PropSat
