import Mathlib.Data.List.Nodup
import Mathlib.Data.List.Perm.Subperm
import PropSat.Problem.Sudoku

/-!
Square grids, read place by place. A grid is its entries, row by row (`Square.cells_eq`). Rows, columns and
boxes are its units; it is solved when every unit has every value once (`isSolved_iff`), and what it
agrees with is seen from the entries alone (`agreesWith_iff`).
-/

namespace PropSat.Sudoku

/-- All places of a grid, row by row. -/
def places (n : Nat) : List (Nat × Nat) := (List.range n).flatMap (row n)

/-- The rows, the columns and the boxes. -/
def units (n b : Nat) : List (List (Nat × Nat)) :=
  (List.range n).map (row n) ++ (List.range n).map (column n) ++ (List.range n).map (box n b)

/-- The value at a place; 0 outside of the grid. -/
def entry (s : Sudoku) (place : Nat × Nat) : Nat := ((s.cells[place.1]?).bind (·[place.2]?)).getD 0

/-- As many rows as columns. -/
structure Square (n : Nat) (s : Sudoku) : Prop where
  side : s.cells.size = n
  rows : ∀ row ∈ s.cells, row.size = n

/-- A square grid that boxes of its size fill without remainder. -/
structure Boxed (n : Nat) (s : Sudoku) : Prop extends Square n s where
  pos : 0 < s.boxSize
  box : s.boxSize * s.boxSize = n

/-- What `ofRows` makes sure of (`ofRows_wellFormed`). -/
structure WellFormed (n : Nat) (s : Sudoku) : Prop extends Boxed n s where
  inRange : ∀ place ∈ places n, s.entry place ≤ n

/-! Places and units. -/

section
variable {n b i k : Nat} {place : Nat × Nat}

theorem mem_row : place ∈ row n i ↔ place.1 = i ∧ place.2 < n := by
  obtain ⟨p, q⟩ := place
  simp [row, and_comm, eq_comm]

theorem mem_column : place ∈ column n i ↔ place.1 < n ∧ place.2 = i := by
  obtain ⟨p, q⟩ := place
  simp [column, eq_comm]

theorem mem_places : place ∈ places n ↔ place.1 < n ∧ place.2 < n := by
  simp [places, mem_row]

theorem places_nodup : (places n).Nodup := by
  rw [places, List.nodup_flatMap]
  constructor
  · intro i _
    exact List.nodup_range.map fun j j' same => congrArg Prod.snd same
  · apply List.nodup_range.imp
    intro i i' differ place first second
    exact differ ((mem_row.1 first).1.symm.trans (mem_row.1 second).1)

theorem length_places : (places n).length = n * n := by
  simp [places, row]

/-- Boxes are counted along the rows of boxes. -/
theorem box_number {top left : Nat} (down : top < b) (across : left < b) :
    top * b + left < b * b ∧ (top * b + left) / b = top ∧ (top * b + left) % b = left := by
  have pos : 0 < b := Nat.zero_lt_of_lt down
  refine ⟨?_, ?_, ?_⟩
  · calc
      top * b + left < top * b + b := Nat.add_lt_add_left across _
      _ = (top + 1) * b := (Nat.succ_mul top b).symm
      _ ≤ b * b := Nat.mul_le_mul_right b down
  · rw [Nat.mul_comm, Nat.mul_add_div pos, Nat.div_eq_of_lt across, Nat.add_zero]
  · rw [Nat.mul_comm, Nat.mul_add_mod, Nat.mod_eq_of_lt across]

/-- The places of a box have its row and its column of boxes. -/
theorem mem_box (pos : 0 < b) (square : b * b = n) :
    place ∈ box n b k ↔ place.1 / b = k / b ∧ place.2 / b = k % b := by
  obtain ⟨p, q⟩ := place
  subst square
  simp only [box, List.mem_map, List.mem_range, Prod.mk.injEq]
  constructor
  · rintro ⟨c, small, rfl, rfl⟩
    have across : c / b < b := Nat.div_lt_of_lt_mul small
    have along : c % b < b := Nat.mod_lt c pos
    rw [Nat.mul_comm (k / b), Nat.mul_comm (k % b), Nat.mul_add_div pos, Nat.mul_add_div pos,
      Nat.div_eq_of_lt across, Nat.div_eq_of_lt along]
    exact ⟨rfl, rfl⟩
  · rintro ⟨down, right⟩
    obtain ⟨small, row, column⟩ := box_number (Nat.mod_lt p pos) (Nat.mod_lt q pos)
    exact ⟨p % b * b + q % b, small, by rw [row, ← down, Nat.div_add_mod'],
      by rw [column, ← right, Nat.div_add_mod']⟩

theorem mem_units {unit : List (Nat × Nat)} :
    unit ∈ units n b ↔ ∃ k < n, unit = row n k ∨ unit = column n k ∨ unit = box n b k := by
  simp only [units, List.mem_append, List.mem_map, List.mem_range]
  constructor
  · rintro ((⟨k, small, rfl⟩ | ⟨k, small, rfl⟩) | ⟨k, small, rfl⟩)
    · exact ⟨k, small, .inl rfl⟩
    · exact ⟨k, small, .inr (.inl rfl)⟩
    · exact ⟨k, small, .inr (.inr rfl)⟩
  · rintro ⟨k, small, rfl | rfl | rfl⟩
    · exact .inl (.inl ⟨k, small, rfl⟩)
    · exact .inl (.inr ⟨k, small, rfl⟩)
    · exact .inr ⟨k, small, rfl⟩

theorem length_unit {unit : List (Nat × Nat)} (member : unit ∈ units n b) : unit.length = n := by
  obtain ⟨k, -, rfl | rfl | rfl⟩ := mem_units.1 member
  all_goals simp [row, column, box]

theorem nodup_unit {unit : List (Nat × Nat)} (member : unit ∈ units n b) : unit.Nodup := by
  obtain ⟨k, -, rfl | rfl | rfl⟩ := mem_units.1 member
  case inl => exact List.nodup_range.map fun i j same => congrArg Prod.snd same
  case inr.inl => exact List.nodup_range.map fun i j same => congrArg Prod.fst same
  case inr.inr =>
    apply List.nodup_range.map
    intro c d same
    have down : c / b = d / b := Nat.add_left_cancel (congrArg Prod.fst same)
    have right : c % b = d % b := Nat.add_left_cancel (congrArg Prod.snd same)
    rw [← Nat.div_add_mod c b, down, right, Nat.div_add_mod]

theorem unit_subset (pos : 0 < b) (square : b * b = n) {unit : List (Nat × Nat)}
    (member : unit ∈ units n b) : ∀ place ∈ unit, place ∈ places n := by
  intro place inside
  rw [mem_places]
  obtain ⟨k, small, rfl | rfl | rfl⟩ := mem_units.1 member
  case inl =>
    obtain ⟨here, inRow⟩ := mem_row.1 inside
    exact ⟨here ▸ small, inRow⟩
  case inr.inl =>
    obtain ⟨inColumn, here⟩ := mem_column.1 inside
    exact ⟨inColumn, here ▸ small⟩
  case inr.inr =>
    obtain ⟨down, right⟩ := (mem_box pos square).1 inside
    have above : k / b < b := Nat.div_lt_of_lt_mul (square ▸ small)
    have beside : k % b < b := Nat.mod_lt k pos
    rw [← square]
    exact ⟨(Nat.div_lt_iff_lt_mul pos).1 (down ▸ above), (Nat.div_lt_iff_lt_mul pos).1 (right ▸ beside)⟩

end

theorem upTo_eq (n : Nat) : upTo n = (List.range n).map (· + 1) := by
  rw [upTo, List.range'_eq_map_range]
  exact List.map_congr_left fun v _ => Nat.add_comm 1 v

theorem mem_upTo {n v : Nat} : v ∈ upTo n ↔ 1 ≤ v ∧ v ≤ n := by
  rw [upTo, List.mem_range'_1]
  omega

theorem upTo_nodup (n : Nat) : (upTo n).Nodup := List.nodup_range'

theorem length_upTo (n : Nat) : (upTo n).length = n := List.length_range'

/-! The entries of a grid. -/

theorem cell_eq_ok {s : Sudoku} {i j v : Nat} :
    s.cell i j = .ok v ↔ (s.cells[i]?).bind (·[j]?) = some v := by
  rw [cell, bind_eq_ok, Option.bind_eq_some_iff]
  simp only [fetch_eq_ok]

section
variable {s g : Sudoku} {n : Nat} {place : Nat × Nat}

theorem Square.cell_eq (square : s.Square n) (inside : place ∈ places n) :
    s.cell place.1 place.2 = .ok (s.entry place) := by
  obtain ⟨small, short⟩ := mem_places.1 inside
  have inRows : place.1 < s.cells.size := square.side.symm ▸ small
  have inRow : place.2 < s.cells[place.1].size := square.rows _ (Array.getElem_mem inRows) ▸ short
  rw [cell_eq_ok, entry, Array.getElem?_eq_getElem inRows, Option.bind_some,
    Array.getElem?_eq_getElem inRow]
  rfl

theorem Square.cell_eq_iff (square : s.Square n) {i j v : Nat} :
    s.cell i j = .ok v ↔ (i, j) ∈ places n ∧ s.entry (i, j) = v := by
  constructor
  · intro read
    obtain ⟨row, inRows, inRow⟩ := Option.bind_eq_some_iff.1 (cell_eq_ok.1 read)
    obtain ⟨small, rfl⟩ := Array.getElem?_eq_some_iff.1 inRows
    have short := (Array.getElem?_eq_some_iff.1 inRow).1
    rw [square.rows _ (Array.getElem_mem small)] at short
    have inside : (i, j) ∈ places n := mem_places.2 ⟨square.side ▸ small, short⟩
    exact ⟨inside, Except.ok.inj ((square.cell_eq inside).symm.trans read)⟩
  · rintro ⟨inside, rfl⟩
    exact square.cell_eq inside

/-- A grid is what its entries make. -/
theorem Square.cells_eq (square : s.Square n) :
    s.cells.toList.map Array.toList = (List.range n).map fun i => (row n i).map s.entry := by
  have side := square.side
  apply List.ext_getElem
  · simpa using side
  · intro i inRows _
    have small : i < n := by simpa [← side] using inRows
    rw [List.length_map, Array.length_toList] at inRows
    have length : s.cells[i].size = n := square.rows _ (Array.getElem_mem inRows)
    apply List.ext_getElem
    · simpa [row] using length
    · intro j inRow _
      simp only [List.getElem_map, Array.getElem_toList, Array.length_toList] at inRow ⊢
      simp [row, entry, inRows, inRow]

theorem Square.values_eq (square : s.Square n) : s.values = (places n).map s.entry := by
  rw [values, List.flatMap_def, square.cells_eq, places, List.map_flatMap, List.flatMap_def]

/-- Grids with the same entries are the same. -/
theorem Square.ext (first : s.Square n) (second : g.Square n) (box : s.boxSize = g.boxSize)
    (same : ∀ place ∈ places n, s.entry place = g.entry place) : s = g := by
  have rows : s.cells.toList.map Array.toList = g.cells.toList.map Array.toList := by
    rw [first.cells_eq, second.cells_eq]
    apply List.map_congr_left
    intro i small
    apply List.map_congr_left
    intro place inside
    exact same place (List.mem_flatMap.2 ⟨i, small, inside⟩)
  have cells : s.cells = g.cells :=
    Array.toList_inj.1 (List.map_injective_iff.2 (fun _ _ => Array.toList_inj.1) rows)
  obtain ⟨_, _⟩ := s
  obtain ⟨_, _⟩ := g
  obtain rfl := cells
  obtain rfl := box
  rfl

/-- No given is contradicted. -/
theorem agreesWith_iff (first : s.Square n) (second : g.Square n) :
    s.agreesWith g = true ↔ ∀ place ∈ places n, s.entry place = 0 ∨ s.entry place = g.entry place := by
  have side : s.side = g.side := first.side.trans second.side.symm
  rw [agreesWith, first.values_eq, second.values_eq, List.zip_map', List.all_map]
  simp [side]

/-! What `isSolved` looks for. -/

theorem allM_eq_true {ε α : Type} {p : α → Except ε Bool} {xs : List α} :
    xs.allM p = .ok true ↔ ∀ x ∈ xs, p x = .ok true := by
  induction xs with
  | nil => simp [List.allM, pure, Except.pure]
  | cons x rest ih =>
    rw [List.allM, bind_eq_ok, List.forall_mem_cons, ← ih]
    constructor
    · rintro ⟨holds, first, later⟩
      cases holds with
      | false => cases later
      | true => exact ⟨first, later⟩
    · rintro ⟨first, later⟩
      exact ⟨true, first, later⟩

theorem andThen_eq_true {ε : Type} {first second : Except ε Bool} :
    (first >>= fun holds => if !holds then pure false else second) = .ok true ↔
      first = .ok true ∧ second = .ok true := by
  cases first with
  | error _ => simp [bind, Except.bind]
  | ok holds => cases holds <;> simp [bind, Except.bind, pure, Except.pure]

/-- Values are distinct when none is met a second time, nor marked before. -/
theorem allDistinct_eq_true {seen : Array Bool} {values : List Nat} :
    allDistinct seen values = .ok true ↔
      (∀ v ∈ values, v ≠ 0 ∧ seen[v]? = some false) ∧ values.Nodup := by
  induction values generalizing seen with
  | nil => simp [allDistinct]
  | cons value rest ih =>
    rw [allDistinct]
    by_cases zero : value = 0
    · simp [zero]
    rw [if_neg zero, List.forall_mem_cons, List.nodup_cons]
    cases marked : seen[value]? with
    | none =>
      have outside : ¬value < seen.size := by simpa using marked
      simp [fetch, outside, bind, Except.bind]
    | some met =>
      have inside : value < seen.size := (Array.getElem?_eq_some_iff.1 marked).1
      have store_ok : store seen value true = .ok (seen.set value true) := dif_pos inside
      cases met with
      | true => simp [fetch_eq_ok.2 marked, bind, Except.bind, pure, Except.pure]
      | false =>
        simp only [fetch_eq_ok.2 marked, store_ok, bind, Except.bind, Bool.false_eq_true, if_false, ih]
        -- unmarked once the value is marked: unmarked before, and not the value
        have later : ∀ w, (seen.set value true)[w]? = some false ↔ w ≠ value ∧ seen[w]? = some false := by
          intro w
          by_cases same : w = value
          · simp [same, inside]
          · simp [same, Array.getElem?_set_ne inside (Ne.symm same)]
        constructor
        · rintro ⟨unmarked, distinct⟩
          have apart : value ∉ rest := fun again => ((later value).1 (unmarked value again).2).1 rfl
          have before : ∀ w ∈ rest, w ≠ 0 ∧ seen[w]? = some false := fun w member =>
            ⟨(unmarked w member).1, ((later w).1 (unmarked w member).2).2⟩
          exact ⟨⟨⟨zero, trivial⟩, before⟩, apart, distinct⟩
        · rintro ⟨⟨-, unmarked⟩, apart, distinct⟩
          refine ⟨?_, distinct⟩
          intro w member
          have differ : w ≠ value := fun same => apart (same ▸ member)
          exact ⟨(unmarked w member).1, (later w).2 ⟨differ, (unmarked w member).2⟩⟩

/-- So many distinct values in range are all of them, and each of them once. -/
theorem count_eq_one_iff {values : List Nat} (length : values.length = n) :
    ((∀ v ∈ values, v ∈ upTo n) ∧ values.Nodup) ↔ ∀ v ∈ upTo n, values.count v = 1 := by
  have size := length_upTo n
  constructor
  · rintro ⟨inRange, once⟩ v member
    have perm : values.Perm (upTo n) :=
      (List.subperm_of_subset once inRange).perm_of_length_le (by omega)
    rw [perm.count_eq, List.count_eq_one_of_mem (upTo_nodup n) member]
  · intro once
    have present : ∀ v ∈ upTo n, v ∈ values := by
      intro v member
      rw [← List.count_pos_iff, once v member]
      exact Nat.one_pos
    have perm : (upTo n).Perm values :=
      (List.subperm_of_subset (upTo_nodup n) present).perm_of_length_le (by omega)
    exact ⟨fun v member => perm.mem_iff.2 member, perm.nodup_iff.1 (upTo_nodup n)⟩

theorem Boxed.side_pos (boxed : s.Boxed n) : 0 < n := boxed.box ▸ Nat.mul_pos boxed.pos boxed.pos

/-- Grids of one shape are boxed alike. -/
theorem Boxed.of_same (boxed : s.Boxed n) (square : g.Square n) (same : g.boxSize = s.boxSize) :
    g.Boxed n :=
  ⟨square, same ▸ boxed.pos, same ▸ boxed.box⟩

theorem Square.read_eq (square : s.Square n) {unit : List (Nat × Nat)}
    (inside : ∀ place ∈ unit, place ∈ places n) :
    (unit.mapM fun place => s.cell place.1 place.2) = .ok (unit.map s.entry) := by
  induction unit with
  | nil => rfl
  | cons place rest ih =>
    have here := square.cell_eq (inside place List.mem_cons_self)
    have later := ih fun place member => inside place (List.mem_cons_of_mem _ member)
    simp [here, later, bind, Except.bind, pure, Except.pure]

theorem Square.complete_eq_true (square : s.Square n) {unit : List (Nat × Nat)} (length : unit.length = n)
    (inside : ∀ place ∈ unit, place ∈ places n) :
    s.complete unit = .ok true ↔ ∀ v ∈ upTo n, (unit.map s.entry).count v = 1 := by
  have side : s.side = n := square.side
  rw [complete, square.read_eq inside, ← count_eq_one_iff (by rw [List.length_map, length])]
  simp only [bind, Except.bind, allDistinct_eq_true, side]
  apply and_congr_left
  intro _
  apply forall₂_congr
  intro v _
  rw [mem_upTo, Array.getElem?_replicate]
  simp only [Option.ite_none_right_eq_some, and_true]
  omega

/-- A grid is solved when every row, every column and every box has every value once. -/
theorem isSolved_iff (boxed : s.Boxed n) :
    s.isSolved = .ok true ↔
      ∀ unit ∈ units n s.boxSize, ∀ v ∈ upTo n, (unit.map s.entry).count v = 1 := by
  have each : ∀ unit ∈ units n s.boxSize,
      (s.complete unit = .ok true ↔ ∀ v ∈ upTo n, (unit.map s.entry).count v = 1) :=
    fun unit member => boxed.complete_eq_true (length_unit member) (unit_subset boxed.pos boxed.box member)
  have side : s.side = n := boxed.side
  rw [← forall₂_congr each, isSolved, side, andThen_eq_true, andThen_eq_true, allM_eq_true, allM_eq_true,
    allM_eq_true, units, List.forall_mem_append, List.forall_mem_append, and_assoc]
  simp only [List.forall_mem_map]

/-- In a solved grid there is no value out of range. -/
theorem Boxed.entry_mem_upTo (boxed : s.Boxed n) (solved : s.isSolved = .ok true) :
    ∀ place ∈ places n, s.entry place ∈ upTo n := by
  intro place inside
  obtain ⟨small, short⟩ := mem_places.1 inside
  have isUnit : row n place.1 ∈ units n s.boxSize := mem_units.2 ⟨place.1, small, .inl rfl⟩
  have each := (isSolved_iff boxed).1 solved _ isUnit
  have inRow : s.entry place ∈ (row n place.1).map s.entry :=
    List.mem_map_of_mem (mem_row.2 ⟨rfl, short⟩)
  rw [← count_eq_one_iff (by rw [List.length_map, length_unit isUnit])] at each
  exact each.1 _ inRow

end

/-! Rows that make a puzzle. -/

/-- As many cells as there should be, and no value that is too large. -/
def RowFits (n : Nat) (cells : Array Nat) : Prop := cells.size = n ∧ ∀ v ∈ cells, v ≤ n

instance {n : Nat} {cells : Array Nat} : Decidable (RowFits n cells) := inferInstanceAs (Decidable (_ ∧ _))

theorem forM_eq_ok {ε α : Type} {f : α → Except ε Unit} {xs : List α} :
    xs.forM f = .ok () ↔ ∀ x ∈ xs, f x = .ok () := by
  induction xs with
  | nil => simp [List.forM, pure, Except.pure]
  | cons x rest ih =>
    rw [List.forM, bind_eq_ok, List.forall_mem_cons, ← ih]
    exact ⟨fun ⟨_, first, later⟩ => ⟨first, later⟩, fun ⟨first, later⟩ => ⟨(), first, later⟩⟩

section
variable {n i : Nat} {cells : Array Nat} {rows : Array (Array Nat)}

theorem checkRow_eq_ok : checkRow n (cells, i) = .ok () ↔ RowFits n cells := by
  rw [checkRow, RowFits]
  by_cases length : cells.size = n
  · rw [if_neg (not_not_intro length), and_iff_right length]
    split
    case h_1 value column found =>
      have large : n < value := by simpa using List.find?_some found
      have inRow := List.mem_zipIdx_iff_getElem?.1 (List.mem_of_find?_eq_some found)
      have member : value ∈ cells := Array.mem_toList_iff.1 (List.mem_of_getElem? inRow)
      exact iff_of_false (fun same => nomatch same) fun small => Nat.not_le.2 large (small value member)
    case h_2 nowhere =>
      refine iff_of_true rfl ?_
      intro v member
      obtain ⟨column, inRow⟩ := List.mem_iff_getElem?.1 (Array.mem_toList_iff.2 member)
      simpa using List.find?_eq_none.1 nowhere (v, column) (List.mem_zipIdx_iff_getElem?.2 inRow)
  · simp [length]

theorem checkRows_eq_ok :
    rows.toList.zipIdx.forM (checkRow n) = .ok () ↔ ∀ cells ∈ rows, RowFits n cells := by
  rw [forM_eq_ok]
  constructor
  · intro checked cells member
    obtain ⟨i, here⟩ := Array.mem_iff_getElem?.1 member
    rw [← Array.getElem?_toList] at here
    exact checkRow_eq_ok.1 (checked (cells, i) (List.mem_zipIdx_iff_getElem?.2 here))
  · intro fits numbered member
    have here := List.mem_zipIdx_iff_getElem?.1 member
    exact checkRow_eq_ok.2 (fits numbered.1 (Array.mem_toList_iff.1 (List.mem_of_getElem? here)))

theorem ofRows_empty (noRows : rows.size = 0) : ofRows rows = .error .empty := by
  rw [ofRows, if_pos noRows]
  rfl

/-- The rows are judged before their number is. -/
theorem ofRows_eq (someRows : rows.size ≠ 0) :
    ofRows rows = match rows.toList.zipIdx.forM (checkRow rows.size) with
      | .error error => .error error
      | .ok () =>
        if leastBox rows.size * leastBox rows.size = rows.size then .ok ⟨rows, leastBox rows.size⟩
        else .error (.sideNotSquare rows.size) := by
  rw [ofRows, if_neg someRows]
  cases rows.toList.zipIdx.forM (checkRow rows.size) with
  | error error => rfl
  | ok _ =>
    by_cases box : leastBox rows.size * leastBox rows.size = rows.size
    · rw [if_pos box]
      change (if _ then _ else _) = _
      rw [if_neg (not_not_intro box)]
      rfl
    · rw [if_neg box]
      change (if _ then _ else _) = _
      rw [if_pos box]
      rfl

theorem ofRows_wellFormed {s : Sudoku} (made : ofRows rows = .ok s) : s.cells = rows ∧ s.WellFormed rows.size := by
  by_cases noRows : rows.size = 0
  · rw [ofRows_empty noRows] at made
    cases made
  rw [ofRows_eq noRows] at made
  split at made
  case h_1 => cases made
  case h_2 checked =>
    have each := checkRows_eq_ok.1 checked
    split at made
    case isFalse => cases made
    case isTrue box =>
      obtain rfl := Except.ok.inj made
      have square : Square rows.size ⟨rows, leastBox rows.size⟩ :=
        ⟨rfl, fun row member => (each row member).1⟩
      have pos : 0 < leastBox rows.size :=
        Nat.pos_of_mul_pos_right (box.symm ▸ Nat.pos_of_ne_zero noRows)
      refine ⟨rfl, ⟨square, pos, box⟩, ?_⟩
      intro place inside
      obtain ⟨row, here, inRow⟩ := Option.bind_eq_some_iff.1 (cell_eq_ok.1 (square.cell_eq inside))
      exact (each row (Array.mem_of_getElem? here)).2 _ (Array.mem_of_getElem? inRow)

end

end PropSat.Sudoku
