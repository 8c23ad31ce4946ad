/-!
A literal is a variable or its negation, kept in one 64-bit word: the variable above, the sign in the
lowest bit. The word is also the literal's place in tables with two rows per variable. A variable that
needs all 64 bits loses its top bit in the packing.
-/

namespace PropSat

structure Literal where
  code : Nat
  fits : code < UInt64.size
  deriving DecidableEq

namespace Literal

def positive (v : Nat) : Literal :=
  ⟨(2 * v.toUInt64).toNat, UInt64.toNat_lt_size _⟩

theorem code_positive (v : Nat) : (positive v).code = 2 * v % UInt64.size := by
  simp [positive, Nat.toUInt64, UInt64.size]

def negative (v : Nat) : Literal :=
  ⟨(positive v).code + 1, by rw [code_positive, UInt64.size]; omega⟩

/-- The literal made false when `v` takes `value`. -/
def falseWhen (v : Nat) (value : Bool) : Literal :=
  if value then negative v else positive v

def var (l : Literal) : Nat := l.code / 2

def isNegative (l : Literal) : Bool := l.code % 2 == 1

def text (l : Literal) : String :=
  if l.isNegative then "!" ++ toString l.var else toString l.var

instance : ToString Literal := ⟨text⟩

instance : Ord Literal := ⟨fun a b => compare a.code b.code⟩

theorem ext {a b : Literal} (same : a.code = b.code) : a = b := by
  cases a; cases b; simp_all

instance : Std.TransOrd Literal :=
  inferInstanceAs (Std.TransCmp (compareOn Literal.code))

instance : Std.LawfulEqOrd Literal where
  eq_of_compare same := ext (Nat.compare_eq_eq.1 same)

theorem var_positive {v : Nat} (small : 2 * v < UInt64.size) : (positive v).var = v := by
  rw [var, code_positive, Nat.mod_eq_of_lt small]; omega

theorem var_negative {v : Nat} (small : 2 * v < UInt64.size) : (negative v).var = v := by
  simp only [var, negative, code_positive, Nat.mod_eq_of_lt small]; omega

/-- A variable too large for the word is taken for a smaller one. -/
theorem var_positive_le (v : Nat) : (positive v).var ≤ v := by
  have wrapped := Nat.mod_le (2 * v) UInt64.size
  rw [var, code_positive]
  omega

theorem var_negative_le (v : Nat) : (negative v).var ≤ v := by
  have wrapped := Nat.mod_le (2 * v) UInt64.size
  have even : 2 * v % UInt64.size % 2 = 0 := by rw [UInt64.size]; omega
  simp only [var, negative, code_positive]
  omega

@[simp] theorem isNegative_positive (v : Nat) : (positive v).isNegative = false := by
  simp only [isNegative, code_positive, UInt64.size, beq_eq_false_iff_ne]; omega

@[simp] theorem isNegative_negative (v : Nat) : (negative v).isNegative = true := by
  simp only [negative, isNegative, code_positive, UInt64.size, beq_iff_eq]; omega

theorem falseWhen_var (l : Literal) : falseWhen l.var l.isNegative = l := by
  apply ext
  have fits := l.fits
  have small : 2 * (l.code / 2) % UInt64.size = 2 * (l.code / 2) := Nat.mod_eq_of_lt (by omega)
  unfold falseWhen
  split
  case isTrue sign =>
    rw [isNegative, beq_iff_eq] at sign
    simp only [negative, code_positive, var, small]
    omega
  case isFalse sign =>
    rw [isNegative, beq_iff_eq] at sign
    simp only [code_positive, var, small]
    omega

theorem code_falseWhen_lt {v n : Nat} (small : v < n) (value : Bool) : (falseWhen v value).code < 2 * n := by
  have bound := Nat.mod_le (2 * v) UInt64.size
  unfold falseWhen
  split
  · simp only [negative, code_positive]; omega
  · simp only [code_positive]; omega

end Literal

end PropSat
