import PropSat.Formula.Evaluation

/-!
The classical reading of a formula, where every name has a value. A model gives the names it leaves open
the value false; that choice never shows where evaluation comes to a value (`truth_of_eval`), and where
no name of the formula is open evaluation always does (`eval_bound`).
-/

namespace PropSat

/-- The value of a name, false where the model leaves it open. -/
def Model.value (m : Model) (name : String) : Bool := m[name]?.getD false

theorem Model.beq_some_true (m : Model) (name : String) : (m[name]? == some true) = m.value name := by
  rw [value]
  cases m[name]? with
  | none => rfl
  | some b => cases b <;> rfl

/-- An operand that was not looked at may have any value. -/
theorem Connective.apply_of_combine {op : Connective} {left right : Option Bool} {a b value : Bool}
    (lefts : ∀ x, left = some x → a = x) (rights : ∀ y, right = some y → b = y)
    (known : op.combine left right = some value) : op.apply a b = value := by
  cases left with
  | none => cases known
  | some x =>
    obtain rfl : a = x := lefts x rfl
    cases right with
    | none =>
      cases decided : op.decidedBy? a with
      | none => simp [combine, decided] at known
      | some forced =>
        obtain rfl : forced = value := by simpa [combine, decided] using known
        exact decidedBy?_eq decided b
    | some y =>
      obtain rfl : b = y := rights y rfl
      rw [combine_some] at known
      exact Option.some.inj known

namespace Formula

def truth (v : String → Bool) : Formula → Bool
  | .var name => v name
  | .not arg => !arg.truth v
  | .binary op left right => op.apply (left.truth v) (right.truth v)

/-- The names in the formula, from left to right and as often as they occur. -/
def names : Formula → List String
  | .var name => [name]
  | .not arg => arg.names
  | .binary _ left right => left.names ++ right.names

theorem truth_congr {v w : String → Bool} {f : Formula} (agree : ∀ name ∈ f.names, v name = w name) :
    f.truth v = f.truth w := by
  induction f with
  | var name => exact agree name (List.mem_singleton.2 rfl)
  | not arg ih => exact congrArg (!·) (ih agree)
  | binary op left right ihl ihr =>
    have lefts := ihl fun name member => agree name (List.mem_append_left _ member)
    have rights := ihr fun name member => agree name (List.mem_append_right _ member)
    rw [truth, truth, lefts, rights]

theorem eval_bound {m : Model} {f : Formula} (bound : ∀ name ∈ f.names, name ∈ m) :
    f.eval m = some (f.truth m.value) := by
  induction f with
  | var name =>
    have here : name ∈ m := bound name (List.mem_singleton.2 rfl)
    rw [eval_var, truth, Model.value, Std.ExtTreeMap.getElem?_eq_some_getElem here]
    rfl
  | not arg ih => rw [eval_not, ih bound]; rfl
  | binary op left right ihl ihr =>
    rw [eval_binary, ihl fun name member => bound name (List.mem_append_left _ member),
      ihr fun name member => bound name (List.mem_append_right _ member), Connective.combine_some]
    rfl

theorem truth_of_eval {m : Model} {f : Formula} {b : Bool} (known : f.eval m = some b) :
    f.truth m.value = b := by
  induction f generalizing b with
  | var name =>
    rw [eval_var] at known
    rw [truth, Model.value, known]
    rfl
  | not arg ih =>
    rw [eval_not, Option.map_eq_some_iff] at known
    obtain ⟨a, known, rfl⟩ := known
    rw [truth, ih known]
  | binary op left right ihl ihr =>
    rw [eval_binary] at known
    exact Connective.apply_of_combine (fun _ => ihl) (fun _ => ihr) known

end Formula

end PropSat
