import PropSat.Proofs.Problem.Choice
import PropSat.Proofs.Problem.Sudoku.Encoding
import PropSat.Proofs.Problem.Sudoku.Rules

/-!
The solutions of a puzzle. A model of its formula says of each cell which value it has (`Describes`), so the
models and the completed grids are one for one. The names come cell by cell and the values of a cell in
ascending order; where two models differ first, the one that comes earlier leaves the smaller value out, and
so the grids come in descending order (`allSolutions_completions`).
-/

namespace PropSat.Sudoku

open Formula

/-- A name is true when the grid has its value at its place. -/
def Describes (n : Nat) (g : Sudoku) (v : String → Bool) : Prop :=
  ∀ place ∈ places n, ∀ value ∈ upTo n, v (nameAt place value) = (g.entry place == value)

variable {s g : Sudoku} {n : Nat} {m : Model} {v : String → Bool}

/-! The grid of a model. -/

theorem square_ofModel (s : Sudoku) (m : Model) : (s.ofModel m).Square s.side where
  side := by simp [ofModel, length_upTo]
  rows := by simp [ofModel, length_upTo]

/-- A cell has the first value that is true there. -/
theorem entry_ofModel {place : Nat × Nat} (inside : place ∈ places s.side) :
    (s.ofModel m).entry place =
      ((upTo s.side).find? fun value => m.value (nameAt place value)).getD 0 := by
  obtain ⟨small, short⟩ := mem_places.1 inside
  simp only [m.beq_some_true, entry, ofModel]
  simp [upTo_eq, small, short, nameAt]

theorem describes_ofModel (single : ∀ place ∈ places s.side,
    (upTo s.side).countP (fun value => m.value (nameAt place value)) = 1) :
    Describes s.side (s.ofModel m) m.value := by
  intro place inside value inRange
  have one := single place inside
  rw [List.countP_eq_length_filter, List.length_eq_one_iff] at one
  obtain ⟨held, only⟩ := one
  have entry : (s.ofModel m).entry place = held := by
    rw [entry_ofModel inside, ← List.head?_filter, only]
    rfl
  have holds : m.value (nameAt place value) = true ↔ value = held := by
    have member : value ∈ [held] ↔ m.value (nameAt place value) = true := by
      rw [← only, List.mem_filter, and_iff_right inRange]
    rw [← member, List.mem_singleton]
  rw [entry, Bool.eq_iff_iff, holds, beq_iff_eq, eq_comm]

theorem Describes.countP_unit (told : Describes n g v) {unit : List (Nat × Nat)}
    (inside : ∀ place ∈ unit, place ∈ places n) {value : Nat} (inRange : value ∈ upTo n) :
    unit.countP (fun place => v (nameAt place value)) = (unit.map g.entry).count value := by
  rw [List.count_eq_countP, List.countP_map]
  apply List.countP_congr
  intro place inUnit
  rw [told place (inside place inUnit) value inRange]
  rfl

theorem Describes.countP_cell (told : Describes n g v) {place : Nat × Nat} (inside : place ∈ places n) :
    (upTo n).countP (fun value => v (nameAt place value)) = (upTo n).count (g.entry place) := by
  rw [List.count_eq_countP]
  apply List.countP_congr
  intro value inRange
  rw [told place inside value inRange, beq_iff_eq, beq_iff_eq, eq_comm]

/-- What the formula asks of a grid is what `isSolved` and `agreesWith` look for. -/
theorem truth_iff_solved (form : s.WellFormed n) (boxed : g.Boxed n) (box : g.boxSize = s.boxSize)
    (told : Describes n g v) :
    s.formula.truth v = true ↔ g.isSolved = .ok true ∧ s.agreesWith g = true := by
  have units : (∀ unit ∈ units n s.boxSize, ∀ value ∈ upTo n,
        unit.countP (fun place => v (nameAt place value)) = 1) ↔ g.isSolved = .ok true := by
    rw [isSolved_iff boxed, box]
    apply forall₂_congr
    intro unit isUnit
    apply forall₂_congr
    intro value inRange
    rw [told.countP_unit (unit_subset form.pos form.box isUnit) inRange]
  have givens : (∀ place ∈ places n, s.entry place ≠ 0 → v (nameAt place (s.entry place)) = true) ↔
      s.agreesWith g = true := by
    rw [agreesWith_iff form.toSquare boxed.toSquare]
    apply forall₂_congr
    intro place inside
    rw [or_iff_not_imp_left]
    apply forall_congr'
    intro given
    have inRange := mem_upTo.2 ⟨Nat.pos_of_ne_zero given, form.inRange place inside⟩
    rw [told place inside _ inRange, beq_iff_eq, eq_comm]
  rw [truth_formula form, units, givens]
  -- a solved grid has some value in each cell, so the cells ask for nothing more
  apply and_iff_right_of_imp
  rintro ⟨solved, -⟩ place inside
  rw [told.countP_cell inside]
  exact List.count_eq_one_of_mem (upTo_nodup n) (boxed.entry_mem_upTo solved place inside)

/-! Models and grids. -/

theorem describes_of_mem_models (form : s.WellFormed s.side) (model : m ∈ s.formula.models) :
    Describes s.side (s.ofModel m) m.value := by
  have holds := truth_of_eval (mem_models.1 model).2
  exact describes_ofModel ((truth_formula form m.value).1 holds).1

theorem completes_ofModel (form : s.WellFormed s.side) (model : m ∈ s.formula.models) :
    s.Completes (s.ofModel m) := by
  have holds := truth_of_eval (mem_models.1 model).2
  have square := square_ofModel s m
  have told := describes_of_mem_models form model
  have right := (truth_iff_solved form (form.of_same square rfl) rfl told).1 holds
  exact (completes_iff form).2 ⟨square, rfl, right⟩

/-- Whether a name is one for a value that the grid has at its place. -/
def holdsIn (n : Nat) (g : Sudoku) (name : String) : Bool :=
  (places n).any fun place => name == nameAt place (g.entry place)

/-- The model that tells of a grid. -/
def toModel (s g : Sudoku) : Model :=
  Model.ofNames s.formula.vars (s.formula.vars.map (g.holdsIn s.side))

theorem describes_holdsIn (n : Nat) (g : Sudoku) : Describes n g (g.holdsIn n) := by
  intro place inside value _
  rw [holdsIn, Bool.eq_iff_iff, List.any_eq_true, beq_iff_eq]
  simp only [beq_iff_eq, nameAt_inj]
  constructor
  · rintro ⟨_, -, rfl, rfl⟩
    rfl
  · rintro rfl
    exact ⟨place, inside, rfl, rfl⟩

theorem describes_toModel (form : s.WellFormed s.side) (g : Sudoku) :
    Describes s.side g (s.toModel g).value := by
  intro place inside value inRange
  have named : nameAt place value ∈ s.formula.vars := by
    rw [formula_vars form]
    exact List.mem_flatMap.2 ⟨place, inside, mem_options.2 ⟨value, inRange, rfl⟩⟩
  rw [toModel, Model.value_ofNames s.formula.vars_nodup _ named]
  exact describes_holdsIn s.side g place inside value inRange

theorem toModel_mem_models (form : s.WellFormed s.side) (completes : s.Completes g) :
    s.toModel g ∈ s.formula.models := by
  obtain ⟨square, box, right⟩ := (completes_iff form).1 completes
  have told := describes_holdsIn s.side g
  exact ofNames_mem_models ((truth_iff_solved form (form.of_same square box) box told).2 right)

theorem ofModel_toModel (form : s.WellFormed s.side) (completes : s.Completes g) :
    s.ofModel (s.toModel g) = g := by
  obtain ⟨square, box, solved, -⟩ := (completes_iff form).1 completes
  have inRange := (form.of_same square box).entry_mem_upTo solved
  apply (square_ofModel s _).ext square box.symm
  intro place inside
  -- both grids are told of by the same model, so what the one has at a place the other has
  have here := describes_toModel form g place inside _ (inRange place inside)
  have there := describes_of_mem_models form (toModel_mem_models form completes) place inside _
    (inRange place inside)
  rw [here, beq_self_eq_true] at there
  exact beq_iff_eq.1 there.symm

/-- The grids of the models are the completed grids. -/
theorem mem_map_ofModel (form : s.WellFormed s.side) :
    g ∈ s.formula.models.map s.ofModel ↔ s.Completes g := by
  rw [List.mem_map]
  constructor
  · rintro ⟨m, model, rfl⟩
    exact completes_ofModel form model
  · intro completes
    exact ⟨s.toModel g, toModel_mem_models form completes, ofModel_toModel form completes⟩

/-! The order of the grids. -/

/-- The variables of the formula write out the grid that is told of. -/
theorem Describes.map_vars (told : Describes n g v) (square : g.Square n) :
    ((places n).flatMap (options n)).map v = Problem.marks (upTo n) g.values := by
  rw [square.values_eq, Problem.marks, List.flatMap_map, List.map_flatMap]
  apply List.flatMap_congr
  intro place inside
  rw [options, List.map_map]
  exact List.map_congr_left (told place inside)

theorem values_lt_of_earlier (form : s.WellFormed s.side) {first second : Model}
    (inFirst : first ∈ s.formula.models) (inSecond : second ∈ s.formula.models)
    (earlier : Earlier (s.formula.vars.map first.value) (s.formula.vars.map second.value)) :
    (s.ofModel second).values < (s.ofModel first).values := by
  obtain ⟨square, -, solved, -⟩ := (completes_iff form).1 (completes_ofModel form inFirst)
  have square' := square_ofModel s second
  have lengths : (s.ofModel first).values.length = (s.ofModel second).values.length := by
    rw [square.values_eq, square'.values_eq, List.length_map, List.length_map]
  have inRange : ∀ value ∈ (s.ofModel first).values, value ∈ upTo s.side := by
    rw [square.values_eq, List.forall_mem_map]
    exact (form.of_same square rfl).entry_mem_upTo solved
  rw [formula_vars form, (describes_of_mem_models form inFirst).map_vars square,
    (describes_of_mem_models form inSecond).map_vars square'] at earlier
  exact Problem.lt_of_earlier_marks List.pairwise_lt_range' lengths inRange earlier

theorem pairwise_map_ofModel (form : s.WellFormed s.side) :
    (s.formula.models.map s.ofModel).Pairwise fun first second => second.values < first.values := by
  rw [List.pairwise_map]
  apply s.formula.pairwise_models.imp_of_mem
  intro first second inFirst inSecond earlier
  exact values_lt_of_earlier form inFirst inSecond earlier

/-- A puzzle that was accepted is always answered. The solutions are the grids that complete it, which are
those of its shape that are found to be solved and to agree with it; each is listed once, in descending order
of the values row by row, and the first solution is the first of the list. Only which grids are listed depends
on the bound, which is that of `Numbered`: each cell has as many names as there are values. -/
theorem allSolutions_completions {rows : Array (Array Nat)} (made : ofRows rows = .ok s) :
    ∃ grids : List Sudoku,
      s.completions.allSolutions = .ok (if grids = [] then none else some grids) ∧
      s.completions.firstSolution = .ok grids.head? ∧
      (∀ g, s.Completes g ↔
        g.Square s.side ∧ g.boxSize = s.boxSize ∧ g.isSolved = .ok true ∧ s.agreesWith g = true) ∧
      (2 * (s.side * s.side * s.side) ≤ UInt64.size →
        (∀ g, g ∈ grids ↔ s.Completes g) ∧ grids.Nodup ∧
        grids.Pairwise fun first second => second.values < first.values) := by
  obtain ⟨rfl, form⟩ := ofRows_wellFormed made
  change s.WellFormed s.side at form
  obtain ⟨models, all, first, known⟩ := Problem.solutions_ok (p := s.completions) (formula_conjunctive form)
  refine ⟨models.map s.ofModel, ?_, ?_, fun g => completes_iff form, ?_⟩
  · simp only [List.map_eq_nil_iff]
    exact all
  · rw [List.head?_map]
    exact first
  · intro bound
    have numbered : s.formula.Numbered := by
      rwa [Numbered, length_formula_vars form]
    obtain rfl := known numbered
    have descending := pairwise_map_ofModel form
    refine ⟨fun g => mem_map_ofModel form, ?_, descending⟩
    apply descending.imp
    rintro grid _ less rfl
    exact lt_irrefl _ less

theorem allSolutions_completions_4x4 :
    ∃ s, ofRows #[#[0, 1, 3, 0], #[0, 0, 0, 0], #[0, 0, 0, 0], #[3, 4, 2, 1]] = .ok s ∧
      2 * (s.side * s.side * s.side) ≤ UInt64.size ∧
      ∃ grids : List Sudoku,
        s.completions.allSolutions = .ok (if grids = [] then none else some grids) ∧
        s.completions.firstSolution = .ok grids.head? ∧
        (∀ g, s.Completes g ↔
          g.Square s.side ∧ g.boxSize = s.boxSize ∧ g.isSolved = .ok true ∧ s.agreesWith g = true) ∧
        (∀ g, g ∈ grids ↔ s.Completes g) ∧ grids.Nodup ∧
        (grids.Pairwise fun first second => second.values < first.values) ∧
        ⟨#[#[4, 1, 3, 2], #[2, 3, 1, 4], #[1, 2, 4, 3], #[3, 4, 2, 1]], 2⟩ ∈ grids := by
  have made : ofRows #[#[0, 1, 3, 0], #[0, 0, 0, 0], #[0, 0, 0, 0], #[3, 4, 2, 1]] =
      .ok ⟨#[#[0, 1, 3, 0], #[0, 0, 0, 0], #[0, 0, 0, 0], #[3, 4, 2, 1]], 2⟩ := by rfl
  have few : 2 * (4 * 4 * 4) ≤ UInt64.size := by decide
  obtain ⟨grids, all, first, rules, right⟩ := allSolutions_completions made
  obtain ⟨members, distinct, descending⟩ := right few
  refine ⟨_, made, few, grids, all, first, rules, members, distinct, descending, ?_⟩
  rw [members, rules]
  exact ⟨⟨rfl, by decide⟩, rfl, rfl, rfl⟩

end PropSat.Sudoku
