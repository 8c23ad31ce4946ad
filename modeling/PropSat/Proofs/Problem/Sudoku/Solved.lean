import PropSat.Proofs.Problem.Sudoku.Completions

/-!
Grids that come from rows or from a model (`Obtained`), whatever the model is. Every place that `isSolved` looks at
is a place of the grid and every value has a mark, so it always answers (`isSolved_ok`), and the answer is whether
the grid is `Solved` (`isSolved_obtained`). The boxes share the places out among them (`boxes_perm`).
-/

namespace PropSat.Sudoku

/-- A grid made of rows, or one that a model describes in the shape of such a grid. -/
inductive Obtained : Sudoku → Prop where
  | ofRows {rows : Array (Array Nat)} {s : Sudoku} : ofRows rows = .ok s → Obtained s
  | ofModel {s : Sudoku} (m : Model) : Obtained s → Obtained (s.ofModel m)

/-- Each value from 1 on is just once in every row, every column and every box. -/
structure Solved (s : Sudoku) : Prop where
  rows : ∀ i < s.side, s.HasAll s.side fun place => place.1 = i
  columns : ∀ j < s.side, s.HasAll s.side fun place => place.2 = j
  boxes : ∀ top < s.boxSize, ∀ left < s.boxSize,
    s.HasAll s.side fun place => place.1 / s.boxSize = top ∧ place.2 / s.boxSize = left

/-! Grids that are obtained have their values in range. -/

section
variable {s : Sudoku} {m : Model} {place : Nat × Nat}

theorem entry_ofModel_le (inside : place ∈ places s.side) : (s.ofModel m).entry place ≤ s.side := by
  rw [entry_ofModel inside]
  cases found : (upTo s.side).find? fun value => m.value (nameAt place value) with
  | none => exact Nat.zero_le _
  | some value => exact (mem_upTo.1 (List.mem_of_find?_eq_some found)).2

theorem Obtained.wellFormed (obtained : s.Obtained) : s.WellFormed s.side := by
  induction obtained with
  | ofRows made =>
    obtain ⟨rfl, form⟩ := ofRows_wellFormed made
    exact form
  | @ofModel s m _ form =>
    have square := square_ofModel s m
    have side : (s.ofModel m).side = s.side := square.side
    rw [side]
    exact ⟨form.of_same square rfl, fun place inside => entry_ofModel_le inside⟩

end

/-! Nothing that `isSolved` asks for is out of range. -/

theorem allM_ok {ε α : Type} {p : α → Except ε Bool} {xs : List α}
    (each : ∀ x ∈ xs, ∃ holds, p x = .ok holds) : ∃ all, xs.allM p = .ok all := by
  induction xs with
  | nil => exact ⟨true, rfl⟩
  | cons x rest ih =>
    obtain ⟨⟨holds, here⟩, later⟩ := List.forall_mem_cons.1 each
    rw [List.allM, here]
    cases holds with
    | false => exact ⟨false, rfl⟩
    | true => exact ih later

theorem andThen_ok {ε : Type} {first second : Except ε Bool} (one : ∃ holds, first = .ok holds)
    (two : ∃ holds, second = .ok holds) :
    ∃ both, (first >>= fun holds => if !holds then pure false else second) = .ok both := by
  obtain ⟨holds, rfl⟩ := one
  cases holds with
  | false => exact ⟨false, rfl⟩
  | true => exact two

theorem allDistinct_ok {seen : Array Bool} {values : List Nat} (inside : ∀ v ∈ values, v < seen.size) :
    ∃ distinct, allDistinct seen values = .ok distinct := by
  induction values generalizing seen with
  | nil => exact ⟨true, rfl⟩
  | cons value rest ih =>
    obtain ⟨here, later⟩ := List.forall_mem_cons.1 inside
    have fetch_ok : fetch seen value = .ok seen[value] := dif_pos here
    have store_ok : store seen value true = .ok (seen.set value true) := dif_pos here
    rw [allDistinct]
    by_cases zero : value = 0
    · exact ⟨false, if_pos zero⟩
    rw [if_neg zero, fetch_ok, store_ok]
    cases seen[value] with
    | true => exact ⟨false, rfl⟩
    | false => exact ih fun v member => (later v member).trans_eq (Array.size_set here).symm

section
variable {s : Sudoku} {n : Nat}

theorem WellFormed.complete_ok (form : s.WellFormed n) {unit : List (Nat × Nat)}
    (inside : ∀ place ∈ unit, place ∈ places n) : ∃ all, s.complete unit = .ok all := by
  have side : s.side = n := form.side
  rw [complete, form.read_eq inside]
  apply allDistinct_ok
  rw [Array.size_replicate, side, List.forall_mem_map]
  intro place inUnit
  exact Nat.lt_succ_of_le (form.inRange place (inside place inUnit))

theorem isSolved_ok (form : s.WellFormed n) : ∃ solved, s.isSolved = .ok solved := by
  have side : s.side = n := form.side
  have each : ∀ unit ∈ units n s.boxSize, ∃ all, s.complete unit = .ok all := fun unit member =>
    form.complete_ok (unit_subset form.pos form.box member)
  rw [units, List.forall_mem_append, List.forall_mem_append, and_assoc] at each
  simp only [List.forall_mem_map] at each
  obtain ⟨rows, columns, boxes⟩ := each
  rw [isSolved, side]
  exact andThen_ok (allM_ok rows) (andThen_ok (allM_ok columns) (allM_ok boxes))

end

/-! The boxes. -/

/-- Each place is in one box and comes once in it. -/
theorem boxes_perm {n b : Nat} (pos : 0 < b) (square : b * b = n) :
    ((List.range n).flatMap (box n b)).Perm (places n) := by
  have isUnit : ∀ k ∈ List.range n, box n b k ∈ units n b := fun k small =>
    mem_units.2 ⟨k, List.mem_range.1 small, .inr (.inr rfl)⟩
  have once : ((List.range n).flatMap (box n b)).Nodup := by
    rw [List.nodup_flatMap]
    refine ⟨fun k small => nodup_unit (isUnit k small), ?_⟩
    apply List.nodup_range.imp
    intro j k differ place inFirst inSecond
    obtain ⟨down, right⟩ := (mem_box pos square).1 inFirst
    obtain ⟨down', right'⟩ := (mem_box pos square).1 inSecond
    apply differ
    rw [← Nat.div_add_mod j b, ← down, ← right, down', right', Nat.div_add_mod]
  rw [List.perm_ext_iff_of_nodup once places_nodup]
  intro place
  rw [List.mem_flatMap]
  constructor
  · rintro ⟨k, small, inBox⟩
    exact unit_subset pos square (isUnit k small) place inBox
  · intro inside
    rw [mem_places, ← square] at inside
    obtain ⟨small, row, column⟩ := box_number (Nat.div_lt_of_lt_mul inside.1) (Nat.div_lt_of_lt_mul inside.2)
    rw [square] at small
    exact ⟨_, List.mem_range.2 small, (mem_box pos square).2 ⟨row.symm, column.symm⟩⟩

theorem isSolved_iff_solved {s : Sudoku} {n : Nat} (boxed : s.Boxed n) : s.isSolved = .ok true ↔ s.Solved := by
  obtain rfl : s.side = n := boxed.side
  rw [isSolved_iff_hasAll boxed]
  constructor
  · rintro ⟨rows, columns, boxes⟩
    exact ⟨rows, columns, boxes⟩
  · rintro ⟨rows, columns, boxes⟩
    exact ⟨rows, columns, boxes⟩

/-- Of a grid from rows or from any model it is always found out whether it is solved. In the order of the search,
too, the boxes have all places of the grid and none of them twice. -/
theorem isSolved_obtained {s : Sudoku} (obtained : s.Obtained) :
    (∃ solved, s.isSolved = .ok solved ∧ (solved = true ↔ s.Solved)) ∧
      s.boxSize * s.boxSize = s.side ∧
      ((List.range s.side).flatMap (box s.side s.boxSize)).Perm (places s.side) := by
  have form := obtained.wellFormed
  obtain ⟨solved, answer⟩ := isSolved_ok form
  refine ⟨⟨solved, answer, ?_⟩, form.box, boxes_perm form.pos form.box⟩
  rw [← isSolved_iff_solved form.toBoxed, answer, Except.ok.injEq]

/-- Rows that are solved, and the grid that a model which binds no name describes in their shape. -/
theorem isSolved_obtained_4x4 :
    ∃ s : Sudoku, s.Obtained ∧ (s.ofModel ∅).Obtained ∧
      s.isSolved = .ok true ∧ s.Solved ∧ (s.ofModel ∅).isSolved = .ok false ∧ ¬(s.ofModel ∅).Solved ∧
      s.boxSize * s.boxSize = 4 ∧ ((List.range 4).flatMap (box 4 2)).Perm (places 4) := by
  have made : ofRows #[#[1, 2, 3, 4], #[3, 4, 1, 2], #[2, 1, 4, 3], #[4, 3, 2, 1]] =
      .ok ⟨#[#[1, 2, 3, 4], #[3, 4, 1, 2], #[2, 1, 4, 3], #[4, 3, 2, 1]], 2⟩ := by rfl
  have rows := Obtained.ofRows made
  have decoded := rows.ofModel ∅
  obtain ⟨⟨solved, answer, rules⟩, box, boxes⟩ := isSolved_obtained rows
  obtain ⟨⟨open', answer', rules'⟩, -⟩ := isSolved_obtained decoded
  obtain rfl : true = solved := Except.ok.inj answer
  obtain rfl : false = open' := Except.ok.inj answer'
  exact ⟨_, rows, decoded, answer, rules.1 rfl, answer', fun all => Bool.false_ne_true (rules'.2 all), box, boxes⟩

end PropSat.Sudoku
