import PropSat.Formula.Basic

/-!
Equality of formulas, decided on a list of pairs still to be compared.
-/

namespace PropSat.Formula

/-- Compares the pairs in turn; a pair that agrees at its roots is replaced by the pairs of operands. -/
def allSame : List (Formula × Formula) → Bool
  | [] => true
  | (.var a, .var b) :: pending => if a = b then allSame pending else false
  | (.not a, .not b) :: pending => allSame ((a, b) :: pending)
  | (.binary op l r, .binary op' l' r') :: pending =>
    if op = op' then allSame ((l, l') :: (r, r') :: pending) else false
  | _ :: _ => false
termination_by pending => totalSize (pending.map Prod.fst)
decreasing_by all_goals simp only [List.map_cons, totalSize, size]; omega

theorem allSame_iff (pending : List (Formula × Formula)) :
    allSame pending = true ↔ ∀ pair ∈ pending, pair.1 = pair.2 := by
  fun_induction allSame pending with
  | case1 => simp
  | case2 a pending ih => simp [ih]
  | case3 a b pending differ => simp [differ]
  | case4 a b pending ih => simp [ih]
  | case5 l r op l' r' pending ih => simp [ih, and_assoc]
  | case6 op l r op' l' r' pending differ => simp [differ]
  | case7 pair pending noVar noNot noBinary =>
    obtain ⟨a, b⟩ := pair
    have unequal : a ≠ b := by
      rintro rfl
      cases a with
      | var name => exact noVar name name rfl
      | not arg => exact noNot arg arg rfl
      | binary op l r => exact noBinary op l r op l r rfl
    simp [unequal]

def same (a b : Formula) : Bool := allSame [(a, b)]

theorem same_iff {a b : Formula} : same a b = true ↔ a = b := by
  simp [same, allSame_iff]

instance : DecidableEq Formula := fun _ _ => decidable_of_iff _ same_iff

end PropSat.Formula
