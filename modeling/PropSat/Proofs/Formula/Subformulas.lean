import PropSat.Formula.Basic

/-!
Every formula that a formula is built from. What is said of any negation or of any `or`, wherever in a formula it
stands, is said of these, and comes down to the root and the operands.
-/

namespace PropSat.Formula

/-- The formula and all formulas below it, each connective in front of its operands. -/
def subformulas : Formula → List Formula
  | .var name => [.var name]
  | .not arg => .not arg :: arg.subformulas
  | .binary op left right => .binary op left right :: (left.subformulas ++ right.subformulas)

/-- The formula and all formulas below it are such. -/
def Everywhere (p : Formula → Prop) (f : Formula) : Prop := ∀ g ∈ f.subformulas, p g

/-- A negation is one of a name. -/
def NegatesName : Formula → Prop
  | .not arg => ∃ name, arg = .var name
  | _ => True

section
variable {p : Formula → Prop} {arg left right : Formula} {op : Connective}

theorem everywhere_var (name : String) : Everywhere p (.var name) ↔ p (.var name) :=
  List.forall_mem_singleton

theorem everywhere_not : Everywhere p (.not arg) ↔ p (.not arg) ∧ arg.Everywhere p :=
  List.forall_mem_cons

theorem everywhere_binary :
    Everywhere p (.binary op left right) ↔
      p (.binary op left right) ∧ left.Everywhere p ∧ right.Everywhere p := by
  rw [Everywhere, subformulas, List.forall_mem_cons, List.forall_mem_append]
  rfl

theorem negatesNames_var (name : String) : Everywhere NegatesName (.var name) :=
  (everywhere_var name).2 trivial

theorem negatesNames_not : Everywhere NegatesName (.not arg) ↔ ∃ name, arg = .var name := by
  rw [everywhere_not]
  constructor
  · intro all
    exact all.1
  · rintro ⟨name, rfl⟩
    exact ⟨⟨name, rfl⟩, negatesNames_var name⟩

theorem negatesNames_binary :
    Everywhere NegatesName (.binary op left right) ↔
      left.Everywhere NegatesName ∧ right.Everywhere NegatesName := by
  rw [everywhere_binary]
  exact and_iff_right trivial

end

end PropSat.Formula
