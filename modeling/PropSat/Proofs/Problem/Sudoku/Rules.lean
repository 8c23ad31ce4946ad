import PropSat.Proofs.Problem.Constraints
import PropSat.Proofs.Problem.Sudoku.Grid

/-!
The rules of the puzzle, cell by cell (`Completes`), against what `isSolved` and `agreesWith` find out
(`completes_iff`).
-/

namespace PropSat.Sudoku

/-- Each value from 1 to `n` is at just one of some places. -/
def HasAll (n : Nat) (g : Sudoku) (inUnit : Nat × Nat → Prop) : Prop :=
  ∀ v ∈ upTo n, ∃! place : Nat × Nat, inUnit place ∧ g.cell place.1 place.2 = .ok v

/-- Every row, every column and every box has each value once, and what the puzzle gives stays. -/
structure Completes (s g : Sudoku) : Prop where
  square : g.Square s.side
  box : g.boxSize = s.boxSize
  rows : ∀ i < s.side, g.HasAll s.side fun place => place.1 = i
  columns : ∀ j < s.side, g.HasAll s.side fun place => place.2 = j
  boxes : ∀ top < s.boxSize, ∀ left < s.boxSize,
    g.HasAll s.side fun place => place.1 / s.boxSize = top ∧ place.2 / s.boxSize = left
  givens : ∀ i j v, s.cell i j = .ok v → v ≠ 0 → g.cell i j = .ok v

variable {s g : Sudoku} {n : Nat}

theorem count_map_eq_one_iff {α : Type} {f : α → Nat} {xs : List α} {v : Nat} (distinct : xs.Nodup) :
    (xs.map f).count v = 1 ↔ ∃! x, x ∈ xs ∧ f x = v := by
  rw [List.count_eq_countP, List.countP_map, Problem.countP_eq_one_iff distinct]
  simp only [Function.comp_apply, beq_iff_eq]

section
variable (boxed : g.Boxed n)

include boxed

theorem hasAll_iff {inUnit : Nat × Nat → Prop} {unit : List (Nat × Nat)}
    (isUnit : unit ∈ units n g.boxSize) (same : ∀ place ∈ places n, place ∈ unit ↔ inUnit place) :
    g.HasAll n inUnit ↔ ∀ v ∈ upTo n, (unit.map g.entry).count v = 1 := by
  apply forall₂_congr
  intro v _
  rw [count_map_eq_one_iff (nodup_unit isUnit)]
  apply existsUnique_congr
  intro place
  rw [boxed.cell_eq_iff]
  constructor
  · rintro ⟨here, inside, entry⟩
    exact ⟨(same place inside).2 here, entry⟩
  · rintro ⟨inUnit, entry⟩
    have inside := unit_subset boxed.pos boxed.box isUnit place inUnit
    exact ⟨(same place inside).1 inUnit, inside, entry⟩

theorem hasAll_row {i : Nat} (small : i < n) :
    g.HasAll n (fun place => place.1 = i) ↔ ∀ v ∈ upTo n, ((row n i).map g.entry).count v = 1 := by
  apply hasAll_iff boxed (mem_units.2 ⟨i, small, .inl rfl⟩)
  intro place inside
  rw [mem_row, and_iff_left (mem_places.1 inside).2]

theorem hasAll_column {j : Nat} (small : j < n) :
    g.HasAll n (fun place => place.2 = j) ↔ ∀ v ∈ upTo n, ((column n j).map g.entry).count v = 1 := by
  apply hasAll_iff boxed (mem_units.2 ⟨j, small, .inr (.inl rfl)⟩)
  intro place inside
  rw [mem_column, and_iff_right (mem_places.1 inside).1]

theorem hasAll_box {k : Nat} (small : k < n) :
    g.HasAll n (fun place => place.1 / g.boxSize = k / g.boxSize ∧ place.2 / g.boxSize = k % g.boxSize) ↔
      ∀ v ∈ upTo n, ((Sudoku.box n g.boxSize k).map g.entry).count v = 1 := by
  apply hasAll_iff boxed (mem_units.2 ⟨k, small, .inr (.inr rfl)⟩)
  intro place _
  exact mem_box boxed.pos boxed.box

theorem isSolved_iff_hasAll :
    g.isSolved = .ok true ↔
      (∀ i < n, g.HasAll n fun place => place.1 = i) ∧
      (∀ j < n, g.HasAll n fun place => place.2 = j) ∧
      ∀ top < g.boxSize, ∀ left < g.boxSize,
        g.HasAll n fun place => place.1 / g.boxSize = top ∧ place.2 / g.boxSize = left := by
  rw [isSolved_iff boxed, units, List.forall_mem_append, List.forall_mem_append, and_assoc]
  simp only [List.forall_mem_map, List.mem_range]
  refine and_congr ?rows (and_congr ?columns ?boxes)
  case rows => exact forall₂_congr fun i small => (hasAll_row boxed small).symm
  case columns => exact forall₂_congr fun j small => (hasAll_column boxed small).symm
  case boxes =>
    constructor
    · intro all top down left across
      obtain ⟨small, row, column⟩ := box_number down across
      rw [boxed.box] at small
      have here := (hasAll_box boxed small).2 (all _ small)
      rwa [row, column] at here
    · intro all k small
      have down : k / g.boxSize < g.boxSize := Nat.div_lt_of_lt_mul (boxed.box.symm ▸ small)
      exact (hasAll_box boxed small).1 (all _ down _ (Nat.mod_lt k boxed.pos))

end

theorem agreesWith_iff_givens (first : s.Square n) (second : g.Square n) :
    s.agreesWith g = true ↔ ∀ i j v, s.cell i j = .ok v → v ≠ 0 → g.cell i j = .ok v := by
  rw [agreesWith_iff first second]
  constructor
  · intro agrees i j v read given
    obtain ⟨inside, rfl⟩ := first.cell_eq_iff.1 read
    exact second.cell_eq_iff.2 ⟨inside, ((agrees _ inside).resolve_left given).symm⟩
  · intro stays place inside
    rw [or_iff_not_imp_left]
    intro given
    have kept := stays place.1 place.2 _ (first.cell_eq inside) given
    exact (second.cell_eq_iff.1 kept).2.symm

/-- A grid of the puzzle's shape completes it when it is found to be solved and to agree with it. -/
theorem completes_iff (form : s.WellFormed s.side) :
    s.Completes g ↔
      g.Square s.side ∧ g.boxSize = s.boxSize ∧ g.isSolved = .ok true ∧ s.agreesWith g = true := by
  constructor
  · rintro ⟨square, box, rows, columns, boxes, givens⟩
    have solved := (isSolved_iff_hasAll (form.of_same square box)).2 ⟨rows, columns, box.symm ▸ boxes⟩
    exact ⟨square, box, solved, (agreesWith_iff_givens form.toSquare square).2 givens⟩
  · rintro ⟨square, box, solved, agrees⟩
    obtain ⟨rows, columns, boxes⟩ := (isSolved_iff_hasAll (form.of_same square box)).1 solved
    exact ⟨square, box, rows, columns, box ▸ boxes, (agreesWith_iff_givens form.toSquare square).1 agrees⟩

end PropSat.Sudoku
