import PropSat.Formula.Fold
import PropSat.Proofs.Formula.Subformulas

/-!
What the traversal on two stacks does, call by call. A combining function that writes down what it is called with
shows the order of the calls: one for each node, from the left, each behind the calls for its operands and with the
values that these have come to. Value and state in the end are those of the plain recursion (`foldWith_postorder`).
-/

namespace PropSat

universe u v

/-- The node with its operands left out. -/
def Node.mark {β : Type u} : Node β → Node Unit
  | .var name => .var name
  | .not _ => .not ()
  | .binary op _ _ => .binary op () ()

namespace Formula

/-- The node that a formula has at its root. -/
def root : Formula → Node Unit
  | .var name => .var name
  | .not _ => .not ()
  | .binary op _ _ => .binary op () ()

/-- The formula and all formulas below it from left to right, each connective behind its operands. -/
def postorder : Formula → List Formula
  | .var name => [.var name]
  | .not arg => arg.postorder ++ [.not arg]
  | .binary op left right => left.postorder ++ right.postorder ++ [.binary op left right]

/-- Each node of the formula has its place in this order, and only one. -/
theorem postorder_perm (f : Formula) : f.postorder.Perm f.subformulas := by
  induction f with
  | var name => exact .refl _
  | not arg ih =>
    rw [postorder, subformulas]
    exact List.perm_append_comm.trans (ih.cons _)
  | binary op left right ihl ihr =>
    rw [postorder, subformulas]
    exact List.perm_append_comm.trans ((ihl.append ihr).cons _)

/-- What the combining function is called with. -/
structure Call (β : Type u) (σ : Type v) where
  node : Node β
  state : σ

section
variable {β : Type u} {σ : Type v} (combine : Node β → σ → β × σ)

/-- The calls of the plain recursion. -/
def calls : Formula → σ → List (Call β σ)
  | .var name, s => [⟨.var name, s⟩]
  | .not arg, s =>
    let a := walk combine arg s
    calls arg s ++ [⟨.not a.1, a.2⟩]
  | .binary op left right, s =>
    let l := walk combine left s
    let r := walk combine right l.2
    calls left s ++ calls right l.2 ++ [⟨.binary op l.1 r.1, r.2⟩]

/-- Combines in the same way, and writes down each call behind those made before. -/
def recording (node : Node β) : σ × List (Call β σ) → β × σ × List (Call β σ)
  | (s, made) => ((combine node s).1, (combine node s).2, made ++ [⟨node, s⟩])

theorem walk_recording (f : Formula) (s : σ) (made : List (Call β σ)) :
    walk (recording combine) f (s, made) =
      ((walk combine f s).1, (walk combine f s).2, made ++ calls combine f s) := by
  induction f generalizing s made with
  | var name => rfl
  | not arg ih => simp only [walk, ih, recording, calls, List.append_assoc]
  | binary op left right ihl ihr => simp only [walk, ihl, ihr, recording, calls, List.append_assoc]

/-- Call by call the nodes are those of the formula. -/
theorem marks_calls (f : Formula) (s : σ) :
    (calls combine f s).map (fun call => call.node.mark) = f.postorder.map root := by
  induction f generalizing s with
  | var name => rfl
  | not arg ih =>
    rw [calls, postorder, List.map_append, List.map_append, ih]
    rfl
  | binary op left right ihl ihr =>
    simp only [calls, postorder, List.map_append, ihl, ihr]
    rfl

/-- No connective finds an operand missing, and in the end there is one operand and nothing else: the value of the
plain recursion, which leaves the same state. Written down, the calls are those of the plain recursion, one for each
node of the formula, from left to right and each behind those for its operands. -/
theorem foldWith_postorder (f : Formula) (s : σ) :
    run? combine [.visit f] [] s = some ([(walk combine f s).1], (walk combine f s).2) ∧
      foldWith combine f s = walk combine f s ∧
      foldWith (recording combine) f (s, []) =
        ((walk combine f s).1, (walk combine f s).2, calls combine f s) ∧
      (calls combine f s).map (fun call => call.node.mark) = f.postorder.map root ∧
      f.postorder.Perm f.subformulas := by
  refine ⟨?_, foldWith_eq_walk combine f s, ?_, marks_calls combine f s, f.postorder_perm⟩
  · rw [run?_visit, run?]
  · rw [foldWith_eq_walk, walk_recording, List.nil_append]

end

end Formula

end PropSat
