import Mathlib.Data.List.TakeWhile
import Std.Data.String.ToNat

/-!
Numbers in names. A numeral consists of digits, so it ends where any other character follows, and it says
which number it is.
-/

namespace PropSat.Text

theorem isDigit_of_mem_toString {n : Nat} {c : Char} (member : c ∈ (toString n).toList) : c.isDigit := by
  rw [Nat.toString_eq_repr, Nat.toList_repr] at member
  exact Nat.isDigit_of_mem_toDigits (by decide) (by decide) member

theorem toString_nat_inj {m n : Nat} : (toString m).toList = (toString n).toList ↔ m = n := by
  rw [Nat.toString_eq_repr, Nat.toString_eq_repr, String.toList_inj, Nat.repr_inj]

/-- Two texts that begin with numerals and go on with the same character, which is no digit, begin with the
same number and go on in the same way. -/
theorem numeral_append_inj {m n : Nat} {c : Char} {first second : List Char} (stop : c.isDigit = false)
    (same : (toString m).toList ++ c :: first = (toString n).toList ++ c :: second) :
    m = n ∧ first = second := by
  have numeral : ∀ (k : Nat) (rest : List Char),
      ((toString k).toList ++ c :: rest).takeWhile Char.isDigit = (toString k).toList := by
    intro k rest
    rw [List.takeWhile_append_of_pos fun d => isDigit_of_mem_toString, List.takeWhile_cons, stop]
    exact List.append_nil _
  have digits := congrArg (List.takeWhile Char.isDigit) same
  rw [numeral, numeral] at digits
  rw [digits, List.append_cancel_left_eq] at same
  exact ⟨toString_nat_inj.1 digits, (List.cons.inj same).2⟩

end PropSat.Text
