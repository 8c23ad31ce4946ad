import PropSat.Proofs.Problem.Constraints
import PropSat.Proofs.Problem.Sudoku.Grid
import PropSat.Proofs.Text.Numeral

/-!
The formula of a puzzle. No two cells share a name (`nameAt_inj`), and the names of the cells, one cell after
the other, are the variables (`formula_vars`). The formula asks for one value in each cell, for each value
once in every unit, and for the given entries (`truth_formula`).
-/

namespace PropSat.Sudoku

open Formula Problem Text

/-- The name for a value at a place, which is counted from 0. -/
def nameAt (place : Nat × Nat) (v : Nat) : String := cellName (place.1 + 1) (place.2 + 1) v

/-- The names for one cell. -/
def options (n : Nat) (place : Nat × Nat) : List String := (upTo n).map (nameAt place)

/-! Names. -/

theorem toList_cellName (i j v : Nat) :
    (cellName i j v).toList =
      'X' :: ((toString i).toList ++ ',' :: ((toString j).toList ++ '=' :: (toString v).toList)) := by
  have x : (toString "X").toList = ['X'] := rfl
  have comma : (toString ",").toList = [','] := rfl
  have equals : (toString "=").toList = ['='] := rfl
  simp only [cellName, String.toList_append]
  simp [x, comma, equals]

theorem cellName_inj {i j v i' j' v' : Nat} (same : cellName i j v = cellName i' j' v') :
    i = i' ∧ j = j' ∧ v = v' := by
  have chars := congrArg String.toList same
  rw [toList_cellName, toList_cellName] at chars
  obtain ⟨rfl, afterRow⟩ := numeral_append_inj (by decide) (List.cons.inj chars).2
  obtain ⟨rfl, afterColumn⟩ := numeral_append_inj (by decide) afterRow
  exact ⟨rfl, rfl, toString_nat_inj.1 afterColumn⟩

theorem nameAt_inj {place place' : Nat × Nat} {v v' : Nat} :
    nameAt place v = nameAt place' v' ↔ place = place' ∧ v = v' := by
  constructor
  · intro same
    obtain ⟨row, column, value⟩ := cellName_inj same
    exact ⟨Prod.ext (Nat.succ.inj row) (Nat.succ.inj column), value⟩
  · rintro ⟨rfl, rfl⟩
    rfl

variable {s : Sudoku} {n b : Nat}

theorem mem_options {place : Nat × Nat} {name : String} :
    name ∈ options n place ↔ ∃ v ∈ upTo n, nameAt place v = name := List.mem_map

theorem options_nodup (n : Nat) : ((places n).flatMap (options n)).Nodup := by
  rw [List.nodup_flatMap]
  constructor
  · intro place _
    exact (upTo_nodup n).map fun v w same => (nameAt_inj.1 same).2
  · apply places_nodup.imp
    intro place place' differ name first second
    obtain ⟨v, -, rfl⟩ := mem_options.1 first
    obtain ⟨w, -, same⟩ := mem_options.1 second
    exact differ (nameAt_inj.1 same).1.symm

/-! Clauses. -/

theorem map_upTo {α : Type} (f : Nat → α) (n : Nat) :
    (upTo n).map f = (List.range n).map fun k => f (k + 1) := by
  rw [upTo_eq, List.map_map]
  rfl

theorem flatMap_upTo {α : Type} (f : Nat → List α) (n : Nat) :
    (upTo n).flatMap f = (List.range n).flatMap fun k => f (k + 1) := by
  rw [upTo_eq, List.flatMap_map]

theorem cellClauses_eq (n : Nat) :
    cellClauses n = (places n).flatMap fun place => exactlyOne (options n place) := by
  simp only [cellClauses, flatMap_upTo, places, row, List.flatMap_map, List.flatMap_assoc]
  rfl

theorem mem_rowClauses {c : Formula} :
    c ∈ rowClauses n ↔ ∃ i < n, ∃ v ∈ upTo n, c ∈ exactlyOne ((row n i).map (nameAt · v)) := by
  rw [rowClauses, flatMap_upTo]
  simp only [map_upTo, List.mem_flatMap, List.mem_range, List.map_map, row]
  rfl

theorem mem_columnClauses {c : Formula} :
    c ∈ columnClauses n ↔ ∃ j < n, ∃ v ∈ upTo n, c ∈ exactlyOne ((column n j).map (nameAt · v)) := by
  rw [columnClauses, flatMap_upTo]
  simp only [map_upTo, List.mem_flatMap, List.mem_range, List.map_map, column]
  rfl

theorem map_box (k v : Nat) :
    (box n b k).map (nameAt · v) =
      (List.range n).map fun c => cellName (k / b * b + 1 + c / b) (k % b * b + 1 + c % b) v := by
  rw [box, List.map_map]
  apply List.map_congr_left
  intro c _
  simp only [Function.comp_apply, nameAt, Nat.add_right_comm _ _ 1]

theorem mem_boxClauses {c : Formula} (pos : 0 < b) (square : b * b = n) :
    c ∈ boxClauses n b ↔ ∃ k < n, ∃ v ∈ upTo n, c ∈ exactlyOne ((box n b k).map (nameAt · v)) := by
  simp only [boxClauses, List.flatMap_map, List.mem_flatMap, List.mem_range, map_box]
  constructor
  · rintro ⟨top, down, left, across, v, inRange, own⟩
    obtain ⟨small, row, column⟩ := box_number down across
    exact ⟨top * b + left, square ▸ small, v, inRange, by rwa [row, column]⟩
  · rintro ⟨k, small, v, inRange, own⟩
    have down : k / b < b := Nat.div_lt_of_lt_mul (square.symm ▸ small)
    exact ⟨k / b, down, k % b, Nat.mod_lt k pos, v, inRange, own⟩

/-- Every unit is told to have every value once. -/
theorem mem_unitClauses {c : Formula} (pos : 0 < b) (square : b * b = n) :
    c ∈ rowClauses n ++ columnClauses n ++ boxClauses n b ↔
      ∃ unit ∈ units n b, ∃ v ∈ upTo n, c ∈ exactlyOne (unit.map (nameAt · v)) := by
  rw [List.mem_append, List.mem_append, mem_rowClauses, mem_columnClauses, mem_boxClauses pos square]
  simp only [units, List.mem_append, or_and_right, exists_or, List.mem_map, List.mem_range,
    exists_exists_and_eq_and]

theorem mem_givenClauses {c : Formula} (square : s.Square n) :
    c ∈ s.givenClauses ↔
      ∃ place ∈ places n, s.entry place ≠ 0 ∧ c = .var (nameAt place (s.entry place)) := by
  simp only [givenClauses, List.mem_flatMap, List.mem_filterMap, List.mem_zipIdx_iff_getElem?,
    Prod.exists, Array.getElem?_toList]
  constructor
  · rintro ⟨cells, i, inRows, v, j, inRow, own⟩
    have read : s.cell i j = .ok v := cell_eq_ok.2 (Option.bind_eq_some_iff.2 ⟨cells, inRows, inRow⟩)
    obtain ⟨inside, rfl⟩ := square.cell_eq_iff.1 read
    obtain ⟨given, same⟩ := Option.ite_none_left_eq_some.1 own
    exact ⟨i, j, inside, given, (Option.some.inj same).symm⟩
  · rintro ⟨i, j, inside, given, rfl⟩
    obtain ⟨cells, inRows, inRow⟩ := Option.bind_eq_some_iff.1 (cell_eq_ok.1 (square.cell_eq inside))
    exact ⟨cells, i, inRows, s.entry (i, j), j, inRow, if_neg given⟩

/-! The whole formula. -/

theorem formula_eq (side : s.side = n) :
    s.formula = allOf ((places n).flatMap (fun place => exactlyOne (options n place)) ++
      (rowClauses n ++ columnClauses n ++ boxClauses n s.boxSize ++ s.givenClauses)) := by
  simp only [formula, side, cellClauses_eq, List.append_assoc]

theorem truth_cells (n : Nat) (v : String → Bool) :
    (∀ c ∈ (places n).flatMap fun place => exactlyOne (options n place), c.truth v = true) ↔
      ∀ place ∈ places n, (upTo n).countP (fun value => v (nameAt place value)) = 1 := by
  rw [← List.all_eq_true, List.all_flatMap, List.all_eq_true]
  apply forall₂_congr
  intro place _
  rw [all_exactlyOne, options, List.countP_map]
  rfl

section
variable (form : s.WellFormed n)

include form

theorem formula_conjunctive : s.formula.Conjunctive := by
  rw [formula_eq form.side]
  apply conjunctive_allOf
  intro c member
  rw [List.mem_append, List.mem_append, mem_unitClauses form.pos form.box,
    mem_givenClauses form.toSquare] at member
  rcases member with inCells | ⟨unit, -, v, -, own⟩ | ⟨place, -, -, rfl⟩
  · obtain ⟨place, -, own⟩ := List.mem_flatMap.1 inCells
    exact conjunctive_exactlyOne _ c own
  · exact conjunctive_exactlyOne _ c own
  · exact conjunctive_var _

/-- The variables are the names of the first cell, then those of the second, and so on. -/
theorem formula_vars : s.formula.vars = (places n).flatMap (options n) := by
  have some_place : places n ≠ [] := by
    rw [← List.length_pos_iff, length_places]
    exact Nat.mul_pos form.side_pos form.side_pos
  have some_option : ∀ place ∈ places n, options n place ≠ [] := by
    intro place _
    rw [← List.length_pos_iff, options, List.length_map, length_upTo]
    exact form.side_pos
  rw [formula_eq form.side]
  apply vars_allOf some_place some_option (options_nodup n)
  intro c member name inside
  rw [List.mem_append, mem_unitClauses form.pos form.box,
    mem_givenClauses form.toSquare] at member
  have known : ∃ place ∈ places n, ∃ v ∈ upTo n, nameAt place v = name := by
    rcases member with ⟨unit, isUnit, v, inRange, own⟩ | ⟨place, inGrid, given, rfl⟩
    · have some_name : unit.map (nameAt · v) ≠ [] := by
        rw [← List.length_pos_iff, List.length_map, length_unit isUnit]
        exact form.side_pos
      obtain ⟨place, inUnit, same⟩ := List.mem_map.1 (mem_names_exactlyOne some_name own name inside)
      exact ⟨place, unit_subset form.pos form.box isUnit place inUnit, v, inRange, same⟩
    · have small := form.inRange place inGrid
      exact ⟨place, inGrid, s.entry place, mem_upTo.2 ⟨Nat.pos_of_ne_zero given, small⟩,
        (List.mem_singleton.1 inside).symm⟩
  obtain ⟨place, inGrid, v, inRange, rfl⟩ := known
  exact List.mem_flatMap.2 ⟨place, inGrid, mem_options.2 ⟨v, inRange, rfl⟩⟩

theorem length_formula_vars : s.formula.vars.length = n * n * n := by
  have each : ∀ place ∈ places n, (options n place).length = n := by
    intro place _
    rw [options, List.length_map, length_upTo]
  rw [formula_vars form, List.length_flatMap, List.map_congr_left each, List.map_const',
    List.sum_replicate_nat, length_places]

theorem truth_units (v : String → Bool) :
    (∀ c ∈ rowClauses n ++ columnClauses n ++ boxClauses n s.boxSize, c.truth v = true) ↔
      ∀ unit ∈ units n s.boxSize, ∀ value ∈ upTo n,
        unit.countP (fun place => v (nameAt place value)) = 1 := by
  have once : ∀ (unit : List (Nat × Nat)) (value : Nat),
      (exactlyOne (unit.map (nameAt · value))).all (truth v) = true ↔
        unit.countP (fun place => v (nameAt place value)) = 1 := by
    intro unit value
    rw [all_exactlyOne, List.countP_map]
    rfl
  simp only [mem_unitClauses form.pos form.box, ← once, List.all_eq_true]
  constructor
  · intro all unit isUnit value inRange c own
    exact all c ⟨unit, isUnit, value, inRange, own⟩
  · rintro all c ⟨unit, isUnit, value, inRange, own⟩
    exact all unit isUnit value inRange c own

theorem truth_givens (v : String → Bool) :
    (∀ c ∈ s.givenClauses, c.truth v = true) ↔
      ∀ place ∈ places n, s.entry place ≠ 0 → v (nameAt place (s.entry place)) = true := by
  simp only [mem_givenClauses form.toSquare]
  constructor
  · intro all place inGrid given
    exact all _ ⟨place, inGrid, given, rfl⟩
  · rintro all c ⟨place, inGrid, given, rfl⟩
    exact all place inGrid given

theorem truth_formula (v : String → Bool) :
    s.formula.truth v = true ↔
      (∀ place ∈ places n, (upTo n).countP (fun value => v (nameAt place value)) = 1) ∧
      (∀ unit ∈ units n s.boxSize, ∀ value ∈ upTo n,
        unit.countP (fun place => v (nameAt place value)) = 1) ∧
      ∀ place ∈ places n, s.entry place ≠ 0 → v (nameAt place (s.entry place)) = true := by
  rw [formula_eq form.side, truth_allOf, List.all_eq_true, List.forall_mem_append, List.forall_mem_append,
    truth_cells, truth_units form, truth_givens form]

end

end PropSat.Sudoku
