import PropSat.Formula.Evaluation
import PropSat.Formula.Cnf
import PropSat.Log
import PropSat.Main
import PropSat.Problem.Clique
import PropSat.Problem.Coloring
import PropSat.Problem.Sudoku
import PropSat.Proofs.Search.Queues
import PropSat.Proofs.Search.Watching
import PropSat.Proofs.Search.DepthFirst
import PropSat.Proofs.Search.Invariant
import PropSat.Proofs.Search.Start
import PropSat.Proofs.Search.Range
import PropSat.Proofs.Search.Upcoming
import PropSat.Proofs.Search.Run
import PropSat.Proofs.Search.Enumeration
import PropSat.Proofs.Formula.Spines
import PropSat.Proofs.NormalForm.Equivalence
import PropSat.Proofs.NameTable
import PropSat.Proofs.NameTable.Numbering
import PropSat.Proofs.NormalForm.ConjunctiveForm
import PropSat.Proofs.Clause.Encoding
import PropSat.Proofs.Solver.Models
import PropSat.Proofs.NormalForm.Recognition
import PropSat.Proofs.NormalForm.Stacks
import PropSat.Proofs.NormalForm.FixedPoint
import PropSat.Proofs.NormalForm.OpenNames
import PropSat.Proofs.NormalForm.Renaming
import PropSat.Proofs.Clause.Reading
import PropSat.Proofs.Text.RoundTrip
import PropSat.Proofs.Text.Length
import PropSat.Proofs.Text.Closing
import PropSat.Proofs.Search.Reachable
import PropSat.Proofs.Search.Rounds
import PropSat.Proofs.Search.Unwatching
import PropSat.Proofs.Search.Attempts
import PropSat.Proofs.Clause.Refusal
import PropSat.Proofs.Solver.Requests
import PropSat.Proofs.Solver.Conversion
import PropSat.Proofs.Solver.EndToEnd
import PropSat.Proofs.Solver.Renaming
import PropSat.Proofs.Problem.Constraints
import PropSat.Proofs.Problem.Solutions
import PropSat.Proofs.Text.Numeral
import PropSat.Proofs.Problem.Sudoku.Grid
import PropSat.Proofs.Problem.Sudoku.Encoding
import PropSat.Proofs.Problem.Sudoku.Rules
import PropSat.Proofs.Problem.Sudoku.Completions
import PropSat.Proofs.Problem.Choice
import PropSat.Proofs.Problem.Graph
import PropSat.Proofs.Problem.Graph.History
import PropSat.Proofs.FirstMentions
import PropSat.Proofs.Problem.Coloring
import PropSat.Proofs.Problem.Clique.Encoding
import PropSat.Proofs.Problem.Clique.Orderings
import PropSat.Proofs.Problem.Canonical
import PropSat.Proofs.CommandLine
import PropSat.Proofs.Formula.Subformulas
import PropSat.Proofs.Formula.Traversal
import PropSat.Proofs.Formula.Equality
import PropSat.Proofs.NormalForm.Negations
import PropSat.Proofs.NormalForm.Variables
import PropSat.Proofs.NormalForm.Distribution
import PropSat.Proofs.Solver.ClauseCount
import PropSat.Proofs.Text.Layout
import PropSat.Proofs.Text.Failure
import PropSat.Proofs.Formula.Bindings
import PropSat.Proofs.Problem.Sudoku.Faults
import PropSat.Proofs.Problem.Sudoku.Solved
