import PropSat.Formula.Basic

/-!
The operands of a formula's topmost run of one connective, left to right.
-/

namespace PropSat.Formula

/-- Walks from the right end, so that each operand found goes in front of those found before. -/
def collect (op : Connective) : List Formula → List Formula → List Formula
  | [], found => found
  | .binary op' left right :: pending, found =>
    if op' = op then collect op (right :: left :: pending) found
    else collect op pending (.binary op' left right :: found)
  | f :: pending, found => collect op pending (f :: found)
termination_by pending => totalSize pending
decreasing_by
  all_goals simp only [totalSize, size]
  all_goals try have := f.size_pos
  all_goals omega

/-- The operands below the topmost `op`s; the formula itself if its root is not `op`. -/
def spine (op : Connective) (f : Formula) : List Formula := collect op [f] []

theorem collect_found (op : Connective) (pending first second : List Formula) :
    collect op pending (first ++ second) = collect op pending first ++ second := by
  fun_induction collect op pending first <;> simp_all [collect]

theorem collect_pending (op : Connective) (first second found : List Formula) :
    collect op (first ++ second) found = collect op second (collect op first found) := by
  fun_induction collect op first found <;> simp_all [collect]

@[simp] theorem spine_binary_self (op : Connective) (left right : Formula) :
    spine op (.binary op left right) = spine op left ++ spine op right := by
  rw [spine, collect, if_pos rfl, ← List.singleton_append, collect_pending, spine, spine,
    ← collect_found, List.nil_append]

theorem spine_binary_of_ne {op op' : Connective} (differ : op' ≠ op) (left right : Formula) :
    spine op (.binary op' left right) = [.binary op' left right] := by
  simp [spine, collect, differ]

@[simp] theorem spine_var (op : Connective) (name : String) :
    spine op (.var name) = [.var name] := by
  simp [spine, collect]

@[simp] theorem spine_not (op : Connective) (arg : Formula) :
    spine op (.not arg) = [.not arg] := by
  simp [spine, collect]

end PropSat.Formula
