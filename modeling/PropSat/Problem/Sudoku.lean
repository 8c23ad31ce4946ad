import PropSat.Problem.Basic

/-!
Sudoku grids of `n` rows and columns, where `n` is the square of the side of a box; 0 stands for an
empty cell. The name `X1,2=3` says that the cell in row 1 and column 2, counted from 1, holds 3.
-/

namespace PropSat

structure Sudoku where
  cells : Array (Array Nat)
  boxSize : Nat
  deriving DecidableEq

namespace Sudoku

/-- Why some rows of numbers are no grid. Rows and columns are counted from 0 here. -/
inductive GridError where
  | empty
  | notSquare (row cells : Nat)
  | valueOutOfRange (row column value : Nat)
  | sideNotSquare (side : Nat)
  deriving DecidableEq

def GridError.message : GridError → String
  | .empty => "sudoku has no cells"
  | .notSquare row cells => s!"row {row + 1} has {cells} cells"
  | .valueOutOfRange row column value => s!"cell ({row + 1}, {column + 1}) holds {value}"
  | .sideNotSquare side => s!"side {side} is not a perfect square"

/-- The length of a row is judged before its cells, and those from left to right. -/
def checkRow (side : Nat) : Array Nat × Nat → Except GridError Unit
  | (cells, row) =>
    if cells.size ≠ side then .error (.notSquare row cells.size)
    else
      match cells.toList.zipIdx.find? fun (value, _) => side < value with
      | some (value, column) => .error (.valueOutOfRange row column value)
      | none => .ok ()

/-- The least number from 1 on whose square is not below the side. -/
def leastBox (side : Nat) : Nat :=
  ((List.range' 1 side).find? fun b => side ≤ b * b).getD side

def ofRows (cells : Array (Array Nat)) : Except GridError Sudoku := do
  let side := cells.size
  if side = 0 then throw .empty
  cells.toList.zipIdx.forM (checkRow side)
  let box := leastBox side
  if box * box ≠ side then throw (.sideNotSquare side)
  return ⟨cells, box⟩

def side (s : Sudoku) : Nat := s.cells.size

/-- The cell in a row and a column, counted from 0. -/
def cell (s : Sudoku) (row column : Nat) : Except Fault Nat := do
  fetch (← fetch s.cells row) column

/-- Whether no value is 0 and none occurs twice; `seen` marks the values met before. -/
def allDistinct : Array Bool → List Nat → Except Fault Bool
  | _, [] => .ok true
  | seen, value :: rest =>
    if value = 0 then .ok false
    else do
      if ← fetch seen value then return false
      allDistinct (← store seen value true) rest

/-- Whether the cells at some places hold every value once. -/
def complete (s : Sudoku) (places : List (Nat × Nat)) : Except Fault Bool := do
  let values ← places.mapM fun (row, column) => s.cell row column
  allDistinct (Array.replicate (s.side + 1) false) values

def row (n i : Nat) : List (Nat × Nat) := (List.range n).map fun j => (i, j)

def column (n j : Nat) : List (Nat × Nat) := (List.range n).map fun i => (i, j)

/-- The places of a box, boxes counted along the rows. -/
def box (n b k : Nat) : List (Nat × Nat) :=
  (List.range n).map fun c => (k / b * b + c / b, k % b * b + c % b)

/-- Whether every row, then every column, then every box holds every value once. -/
def isSolved (s : Sudoku) : Except Fault Bool := do
  let n := s.side
  if !(← (List.range n).allM fun i => s.complete (row n i)) then return false
  if !(← (List.range n).allM fun j => s.complete (column n j)) then return false
  (List.range n).allM fun k => s.complete (box n s.boxSize k)

def values (s : Sudoku) : List Nat := s.cells.toList.flatMap Array.toList

/-- Whether another grid of the same size agrees with every cell that is given. -/
def agreesWith (s other : Sudoku) : Bool :=
  s.side == other.side &&
    (s.values.zip other.values).all fun (given, value) => given == 0 || given == value

def cellName (row column value : Nat) : String := s!"X{row},{column}={value}"

def upTo (n : Nat) : List Nat := List.range' 1 n

def cellClauses (n : Nat) : List Formula :=
  (upTo n).flatMap fun i => (upTo n).flatMap fun j =>
    Problem.exactlyOne ((upTo n).map fun v => cellName i j v)

def rowClauses (n : Nat) : List Formula :=
  (upTo n).flatMap fun i => (upTo n).flatMap fun v =>
    Problem.exactlyOne ((upTo n).map fun j => cellName i j v)

def columnClauses (n : Nat) : List Formula :=
  (upTo n).flatMap fun j => (upTo n).flatMap fun v =>
    Problem.exactlyOne ((upTo n).map fun i => cellName i j v)

/-- Every value once in each box; `starts` are the first rows and columns of the boxes. -/
def boxClauses (n b : Nat) : List Formula :=
  let starts := (List.range b).map fun k => k * b + 1
  starts.flatMap fun top => starts.flatMap fun left => (upTo n).flatMap fun v =>
    Problem.exactlyOne ((List.range n).map fun c => cellName (top + c / b) (left + c % b) v)

/-- The cells that are not empty. -/
def givenClauses (s : Sudoku) : List Formula :=
  s.cells.toList.zipIdx.flatMap fun (cells, i) =>
    cells.toList.zipIdx.filterMap fun (value, j) =>
      if value = 0 then none else some (.var (cellName (i + 1) (j + 1) value))

def formula (s : Sudoku) : Formula :=
  let n := s.side
  Problem.allOf
    (cellClauses n ++ rowClauses n ++ columnClauses n ++ boxClauses n s.boxSize ++ s.givenClauses)

/-- The grid a model describes; a cell without a value is empty. -/
def ofModel (s : Sudoku) (m : Model) : Sudoku where
  cells := ((upTo s.side).map fun i => ((upTo s.side).map fun j =>
    ((upTo s.side).find? fun v => m[cellName i j v]? == some true).getD 0).toArray).toArray
  boxSize := s.boxSize

def completions (s : Sudoku) : Problem Sudoku where
  formula := s.formula
  interpret := s.ofModel

end Sudoku

end PropSat
