import Mathlib.Algebra.Group.Even
import PropSat.Proofs.Problem.Sudoku.Grid

/-!
Which rows make a puzzle, and what is said of those that do not. Several things can be wrong at once: rows of the
wrong length, values out of range, a side that is no square. The one that is reported is the first in reading order,
and the side is judged last (`ofRows_first_fault`).
-/

namespace PropSat.Sudoku

/-- What is wrong with a row: its length, or else the first of its values that is too large. -/
inductive RowFault (n i : Nat) (cells : Array Nat) : GridError → Prop where
  | notSquare : cells.size ≠ n → RowFault n i cells (.notSquare i cells.size)
  | valueOutOfRange {j v : Nat} : cells.size = n → cells[j]? = some v → n < v →
    (∀ k < j, ∀ w, cells[k]? = some w → w ≤ n) → RowFault n i cells (.valueOutOfRange i j v)

/-- What is wrong with some rows: that there are none, or what is wrong with the first row that does not fit, or
else their number. -/
inductive FirstFault (rows : Array (Array Nat)) : GridError → Prop where
  | empty : rows.size = 0 → FirstFault rows .empty
  | inRow {i : Nat} {cells : Array Nat} {error : GridError} : rows[i]? = some cells →
    (∀ k < i, ∀ earlier, rows[k]? = some earlier → RowFits rows.size earlier) →
    RowFault rows.size i cells error → FirstFault rows error
  | sideNotSquare : rows.size ≠ 0 → (∀ cells ∈ rows, RowFits rows.size cells) → ¬IsSquare rows.size →
    FirstFault rows (.sideNotSquare rows.size)

/-- The search for the side of a box, from 1 on, comes to this number. -/
def Tried (side b : Nat) : Prop := 1 ≤ b ∧ ∀ c, 1 ≤ c → c < b → c * c < side

/-! The side of a box. -/

section
variable {side : Nat}

theorem leastBox_tried (pos : 0 < side) : Tried side (leastBox side) ∧ side ≤ leastBox side * leastBox side := by
  cases found : (List.range' 1 side).find? fun b => side ≤ b * b with
  | none =>
    -- the side itself would have been found
    have last := List.find?_eq_none.1 found side (by rw [List.mem_range'_1]; omega)
    have square : side ≤ side * side := Nat.le_mul_self side
    simp [square] at last
  | some b =>
    obtain rfl : leastBox side = b := by rw [leastBox, found]; rfl
    obtain ⟨large, member, before⟩ := List.find?_range'_eq_some.1 found
    refine ⟨⟨(List.mem_range'_1.1 member).1, ?_⟩, of_decide_eq_true large⟩
    intro c positive smaller
    simpa using before c positive smaller

theorem leastBox_square_iff (pos : 0 < side) : leastBox side * leastBox side = side ↔ IsSquare side := by
  constructor
  · intro square
    exact ⟨leastBox side, square.symm⟩
  · rintro ⟨r, rfl⟩
    obtain ⟨⟨-, before⟩, large⟩ := leastBox_tried pos
    have above : r ≤ leastBox (r * r) := Nat.mul_self_le_mul_self_iff.1 large
    have notBelow : ¬r < leastBox (r * r) := by
      intro below
      exact Nat.lt_irrefl _ (before r (Nat.pos_of_mul_pos_left pos) below)
    rw [Nat.le_antisymm (Nat.not_lt.1 notBelow) above]

/-- No square that is looked at is too large for a word, nor is the last one. -/
theorem Tried.square_lt {b : Nat} (tried : Tried side b) (addressable : 2 * side < UInt64.size) :
    b * b < UInt64.size := by
  rw [UInt64.size] at addressable
  have small : b < 2 ^ 32 := by
    by_contra large
    have before := tried.2 (2 ^ 32 - 1) (by decide) (by omega)
    omega
  calc
    b * b < 2 ^ 32 * 2 ^ 32 := Nat.mul_lt_mul'' small small
    _ = UInt64.size := rfl

end

/-! The rows. -/

/-- The first element that fails stops the run. -/
theorem forM_eq_error {ε α : Type} {f : α → Except ε Unit} {xs : List α} {error : ε} :
    xs.forM f = .error error ↔
      ∃ (i : Nat) (x : α), xs[i]? = some x ∧ (∀ k < i, ∀ y : α, xs[k]? = some y → f y = .ok ()) ∧
        f x = .error error := by
  induction xs with
  | nil => simp [List.forM, pure, Except.pure]
  | cons first rest ih =>
    rw [List.forM]
    cases judged : f first with
    | error other =>
      constructor
      · intro same
        exact ⟨0, first, rfl, fun k below => absurd below (Nat.not_lt_zero k), judged.trans same⟩
      · rintro ⟨i, x, here, before, failed⟩
        cases i with
        | zero =>
          cases here
          exact judged.symm.trans failed
        | succ i =>
          rw [before 0 (Nat.succ_pos i) first rfl] at judged
          cases judged
    | ok _ =>
      change rest.forM f = .error error ↔ _
      rw [ih]
      constructor
      · rintro ⟨i, x, here, before, failed⟩
        refine ⟨i + 1, x, here, ?_, failed⟩
        intro k smaller y there
        cases k with
        | zero =>
          cases there
          exact judged
        | succ k => exact before k (Nat.lt_of_succ_lt_succ smaller) y there
      · rintro ⟨i, x, here, before, failed⟩
        cases i with
        | zero =>
          cases here
          rw [judged] at failed
          cases failed
        | succ i => exact ⟨i, x, here, fun k smaller => before (k + 1) (Nat.succ_lt_succ smaller), failed⟩

theorem find?_zipIdx_eq_some {α : Type} {p : α → Bool} {xs : List α} {x : α} {j : Nat} :
    (xs.zipIdx.find? fun entry => p entry.1) = some (x, j) ↔
      xs[j]? = some x ∧ p x = true ∧ ∀ k < j, ∀ y, xs[k]? = some y → p y = false := by
  rw [List.find?_eq_some_iff_getElem]
  constructor
  · rintro ⟨holds, i, inside, here, before⟩
    rw [List.length_zipIdx] at inside
    rw [List.getElem_zipIdx, Nat.zero_add] at here
    cases here
    refine ⟨List.getElem?_eq_getElem inside, holds, ?_⟩
    intro k smaller y there
    obtain ⟨_, rfl⟩ := List.getElem?_eq_some_iff.1 there
    simpa using before k smaller
  · rintro ⟨here, holds, before⟩
    obtain ⟨inside, rfl⟩ := List.getElem?_eq_some_iff.1 here
    refine ⟨holds, j, by rwa [List.length_zipIdx], by rw [List.getElem_zipIdx, Nat.zero_add], ?_⟩
    intro k smaller
    have earlier := before k smaller xs[k] (List.getElem?_eq_getElem (Nat.lt_trans smaller inside))
    simpa using earlier

section
variable {n i : Nat} {cells : Array Nat} {rows : Array (Array Nat)} {error : GridError}

/-- The cell that is reported is the first that is too large. -/
theorem find?_large_eq_some {j v : Nat} :
    (cells.toList.zipIdx.find? fun (value, _) => n < value) = some (v, j) ↔
      cells[j]? = some v ∧ n < v ∧ ∀ k < j, ∀ w, cells[k]? = some w → w ≤ n := by
  rw [find?_zipIdx_eq_some (p := fun value => decide (n < value))]
  simp

theorem checkRow_eq_error : checkRow n (cells, i) = .error error ↔ RowFault n i cells error := by
  rw [checkRow]
  constructor
  · intro failed
    by_cases length : cells.size = n
    · rw [if_neg (not_not_intro length)] at failed
      split at failed
      case h_1 v j found =>
        cases failed
        obtain ⟨here, large, before⟩ := find?_large_eq_some.1 found
        exact .valueOutOfRange length here large before
      case h_2 => cases failed
    · rw [if_pos length] at failed
      cases failed
      exact .notSquare length
  · rintro (differ | ⟨length, here, large, before⟩)
    · rw [if_pos differ]
    · rw [if_neg (not_not_intro length), find?_large_eq_some.2 ⟨here, large, before⟩]

theorem checkRows_eq_error :
    rows.toList.zipIdx.forM (checkRow n) = .error error ↔
      ∃ (i : Nat) (cells : Array Nat), rows[i]? = some cells ∧
        (∀ k < i, ∀ earlier, rows[k]? = some earlier → RowFits n earlier) ∧ RowFault n i cells error := by
  have numbered {i k : Nat} {cells : Array Nat} :
      rows.toList.zipIdx[i]? = some (cells, k) ↔ rows[i]? = some cells ∧ i = k := by
    simp [List.getElem?_zipIdx]
  rw [forM_eq_error]
  constructor
  · rintro ⟨i, ⟨cells, number⟩, entry, before, failed⟩
    obtain ⟨here, rfl⟩ := numbered.1 entry
    refine ⟨i, cells, here, ?_, checkRow_eq_error.1 failed⟩
    intro k smaller earlier there
    exact checkRow_eq_ok.1 (before k smaller (earlier, k) (numbered.2 ⟨there, rfl⟩))
  · rintro ⟨i, cells, here, before, fault⟩
    refine ⟨i, (cells, i), numbered.2 ⟨here, rfl⟩, ?_, checkRow_eq_error.2 fault⟩
    rintro k smaller ⟨earlier, number⟩ entry
    exact checkRow_eq_ok.2 (before k smaller earlier (numbered.1 entry).1)

end

/-! The puzzle or the fault. -/

section
variable {rows : Array (Array Nat)} {error : GridError}

theorem ofRows_eq_ok_iff {s : Sudoku} :
    ofRows rows = .ok s ↔
      rows.size ≠ 0 ∧ (∀ cells ∈ rows, RowFits rows.size cells) ∧ IsSquare rows.size ∧
        s = ⟨rows, leastBox rows.size⟩ := by
  by_cases noRows : rows.size = 0
  · rw [ofRows_empty noRows]
    exact iff_of_false (fun same => nomatch same) fun fits => fits.1 noRows
  have square := leastBox_square_iff (Nat.pos_of_ne_zero noRows)
  rw [ofRows_eq noRows, and_iff_right noRows, ← checkRows_eq_ok, ← square]
  cases rows.toList.zipIdx.forM (checkRow rows.size) with
  | error _ => simp
  | ok _ => by_cases box : leastBox rows.size * leastBox rows.size = rows.size <;> simp [box, eq_comm]

theorem ofRows_eq_error_iff : ofRows rows = .error error ↔ FirstFault rows error := by
  by_cases noRows : rows.size = 0
  · rw [ofRows_empty noRows]
    constructor
    · rintro ⟨⟩
      exact .empty noRows
    · rintro (_ | ⟨here, -, -⟩ | ⟨someRows, -, -⟩)
      · rfl
      · have inside := (Array.getElem?_eq_some_iff.1 here).1
        omega
      · exact absurd noRows someRows
  have square := leastBox_square_iff (Nat.pos_of_ne_zero noRows)
  rw [ofRows_eq noRows]
  constructor
  · intro failed
    cases checked : rows.toList.zipIdx.forM (checkRow rows.size) with
    | error first =>
      rw [checked] at failed
      cases failed
      obtain ⟨i, cells, here, before, fault⟩ := checkRows_eq_error.1 checked
      exact .inRow here before fault
    | ok _ =>
      simp only [checked] at failed
      split at failed
      case isTrue => cases failed
      case isFalse box =>
        cases failed
        exact .sideNotSquare noRows (checkRows_eq_ok.1 checked) (mt square.2 box)
  · rintro (empty | ⟨here, before, fault⟩ | ⟨-, fits, odd⟩)
    · exact absurd empty noRows
    · rw [checkRows_eq_error.2 ⟨_, _, here, before, fault⟩]
    · simp only [checkRows_eq_ok.2 fits, if_neg (mt square.1 odd)]

end

theorem ofRows_first_fault (rows : Array (Array Nat)) :
    ((∃ s, ofRows rows = .ok s) ↔
        1 ≤ rows.size ∧ (∀ cells ∈ rows, RowFits rows.size cells) ∧ IsSquare rows.size) ∧
      (∀ s, ofRows rows = .ok s → s.cells = rows ∧ s.boxSize * s.boxSize = rows.size) ∧
      (∀ error, ofRows rows = .error error ↔ FirstFault rows error) ∧
      (2 * rows.size < UInt64.size → ∀ b, Tried rows.size b → b * b < UInt64.size) := by
  refine ⟨?_, ?_, fun error => ofRows_eq_error_iff, fun addressable b tried => tried.square_lt addressable⟩
  · simp only [ofRows_eq_ok_iff, Nat.one_le_iff_ne_zero, exists_and_left, exists_eq, and_true]
  · intro s made
    obtain ⟨cells, form⟩ := ofRows_wellFormed made
    exact ⟨cells, form.box⟩

/-- Of three rows, no square, the second is too short and has a value that is too large: what is reported is its
length. -/
theorem ofRows_first_fault_three :
    ofRows #[#[0, 0, 3], #[4], #[0, 5, 0]] = .error (.notSquare 1 1) ∧
      (∃ s, ofRows #[#[0, 0, 0, 1], #[0, 0, 0, 0], #[0, 4, 0, 0], #[0, 0, 0, 0]] = .ok s ∧
        s.boxSize * s.boxSize = 4) ∧
      Tried 4 2 ∧ 2 * 2 < UInt64.size := by
  obtain ⟨-, -, three, -⟩ := ofRows_first_fault #[#[0, 0, 3], #[4], #[0, 5, 0]]
  obtain ⟨makes, four, -, words⟩ := ofRows_first_fault #[#[0, 0, 0, 1], #[0, 0, 0, 0], #[0, 4, 0, 0], #[0, 0, 0, 0]]
  have first : ∀ k < 1, ∀ earlier, #[#[0, 0, 3], #[4], #[0, 5, 0]][k]? = some earlier → RowFits 3 earlier := by
    intro k smaller earlier here
    obtain rfl := Nat.lt_one_iff.1 smaller
    cases here
    decide
  obtain ⟨s, made⟩ := makes.2 ⟨by decide, by decide, 2, rfl⟩
  have tried : Tried 4 2 := by
    refine ⟨by decide, ?_⟩
    intro c positive smaller
    obtain rfl : c = 1 := by omega
    decide
  exact ⟨(three _).2 (.inRow rfl first (.notSquare (by decide))), ⟨s, made, (four s made).2⟩, tried,
    words (by decide) 2 tried⟩

end PropSat.Sudoku
