import PropSat.Proofs.Model
import PropSat.Proofs.NameTable

/-!
What a value rests on. Names that are bound later never take a value back, names that do not occur in the formula
have no part in it, and where every name that occurs is bound the value is the classical one (`eval_of_bindings`).
-/

namespace PropSat

/-- Whatever the other model binds is bound to the same value. -/
def Model.Extends (m' m : Model) : Prop :=
  ∀ (name : String) (value : Bool), m[name]? = some value → m'[name]? = some value

/-- Operands that were open may come to any value: where they were not needed before, they are not needed now. -/
theorem Connective.combine_mono {op : Connective} {left right left' right' : Option Bool} {value : Bool}
    (lefts : ∀ a, left = some a → left' = some a) (rights : ∀ b, right = some b → right' = some b)
    (known : op.combine left right = some value) : op.combine left' right' = some value := by
  cases left with
  | none => cases known
  | some a =>
    rw [lefts a rfl]
    cases decided : op.decidedBy? a with
    | some forced =>
      simp only [combine, decided, Option.bind_some] at known ⊢
      exact known
    | none =>
      cases right with
      | none => simp [combine, decided] at known
      | some b =>
        rw [rights b rfl]
        exact known

namespace Formula

variable {m m' : Model} {f : Formula}

theorem eval_extends (more : m'.Extends m) {value : Bool} (known : f.eval m = some value) :
    f.eval m' = some value := by
  induction f generalizing value with
  | var name =>
    rw [eval_var] at known ⊢
    exact more name value known
  | not arg ih =>
    rw [eval_not, Option.map_eq_some_iff] at known
    obtain ⟨a, known, rfl⟩ := known
    rw [eval_not, ih known]
    rfl
  | binary op left right ihl ihr =>
    rw [eval_binary] at known ⊢
    exact Connective.combine_mono (fun _ => ihl) (fun _ => ihr) known

theorem eval_congr (agree : ∀ name ∈ f.names, m[name]? = m'[name]?) : f.eval m = f.eval m' := by
  induction f with
  | var name =>
    rw [eval_var, eval_var]
    exact agree name (List.mem_singleton.2 rfl)
  | not arg ih => rw [eval_not, eval_not, ih agree]
  | binary op left right ihl ihr =>
    obtain ⟨lefts, rights⟩ := List.forall_mem_append.1 agree
    rw [eval_binary, eval_binary, ihl lefts, ihr rights]

/-- A value stays when more names are bound, depends on nothing but the names of the formula, and is there, and is
the classical one, when these are all bound. -/
theorem eval_of_bindings (f : Formula) :
    (∀ m m' : Model, m'.Extends m → ∀ value, f.eval m = some value → f.eval m' = some value) ∧
      (∀ m m' : Model, (∀ name ∈ f.vars, m[name]? = m'[name]?) → f.eval m = f.eval m') ∧
      ∀ m : Model, (∀ name ∈ f.vars, name ∈ m) → f.eval m = some (f.truth m.value) := by
  simp only [mem_vars]
  exact ⟨fun _ _ more _ => eval_extends more, fun _ _ => eval_congr, fun _ => eval_bound⟩

/-- The right operand of an `if` with a false left one: open, bound along with a name that does not occur, bound. -/
theorem eval_of_bindings_short :
    (Model.ofEntries [("a", false), ("b", true), ("c", true)]).Extends (.ofEntries [("a", false)]) ∧
    (Formula.implies (.var "a") (.var "b")).eval (.ofEntries [("a", false)]) = some true ∧
    (Formula.implies (.var "a") (.var "b")).eval (.ofEntries [("a", false), ("b", true), ("c", true)]) = some true ∧
    (∀ name ∈ (Formula.implies (.var "a") (.var "b")).vars,
      (Model.ofEntries [("a", false), ("b", true), ("c", true)])[name]? =
        (Model.ofEntries [("a", false), ("b", true)])[name]?) ∧
    (Formula.implies (.var "a") (.var "b")).eval (.ofEntries [("a", false), ("b", true), ("c", true)]) =
      (Formula.implies (.var "a") (.var "b")).eval (.ofEntries [("a", false), ("b", true)]) ∧
    (∀ name ∈ (Formula.implies (.var "a") (.var "b")).vars, name ∈ Model.ofEntries [("a", false), ("b", true)]) ∧
    (Formula.implies (.var "a") (.var "b")).eval (.ofEntries [("a", false), ("b", true)]) =
      some ((Formula.implies (.var "a") (.var "b")).truth (Model.ofEntries [("a", false), ("b", true)]).value) := by
  have more : (Model.ofEntries [("a", false), ("b", true), ("c", true)]).Extends (.ofEntries [("a", false)]) := by
    intro name value known
    rw [Model.getElem?_ofEntries (by decide)] at known ⊢
    exact List.mem_cons.2 (.inl (List.mem_singleton.1 known))
  have known : (Formula.implies (.var "a") (.var "b")).eval (.ofEntries [("a", false)]) = some true := by
    rw [eval_binary, eval_var, show (Model.ofEntries [("a", false)])["a"]? = some false from rfl]
    rfl
  have agree : ∀ name ∈ (Formula.implies (.var "a") (.var "b")).vars,
      (Model.ofEntries [("a", false), ("b", true), ("c", true)])[name]? =
        (Model.ofEntries [("a", false), ("b", true)])[name]? := by
    intro name here
    rw [mem_vars] at here
    rcases List.mem_pair.1 here with rfl | rfl <;> rfl
  have bound : ∀ name ∈ (Formula.implies (.var "a") (.var "b")).vars,
      name ∈ Model.ofEntries [("a", false), ("b", true)] := by
    intro name here
    rw [mem_vars] at here
    simpa [names, Model.ofEntries, Std.ExtTreeMap.mem_ofList] using here
  obtain ⟨keeps, depends, total⟩ := eval_of_bindings (Formula.implies (.var "a") (.var "b"))
  exact ⟨more, known, keeps _ _ more _ known, agree, depends _ _ agree, bound, total _ bound⟩

end Formula

end PropSat
