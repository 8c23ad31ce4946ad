import PropSat.Solver

/-!
The command line: `[-a|--all] [--print-cnf] FILE`. Flags and the file come in any order; `--` ends the
flags, and a lone `-` is a file. Exit code 0 means satisfiable, 1 unsatisfiable or a wrong command
line, 127 that the file holds no formula.
-/

namespace PropSat.CommandLine

structure Request where
  file : String
  all : Bool
  printCnf : Bool
  deriving DecidableEq

structure Arguments where
  files : List String
  all : Nat
  printCnf : Nat
  onlyFiles : Bool

def Arguments.addFile (a : Arguments) (file : String) : Arguments :=
  { a with files := file :: a.files }

def Arguments.addLong? (a : Arguments) : String → Option Arguments
  | "all" => some { a with all := a.all + 1 }
  | "print-cnf" => some { a with printCnf := a.printCnf + 1 }
  | _ => none

/-- Reads one argument, none if it is an unknown flag. Letters after one dash are flags of their own.
After two dashes stands the name of a flag; more dashes count for nothing, nor does what follows an
equals sign. -/
def Arguments.add? (a : Arguments) (arg : String) : Option Arguments :=
  if a.onlyFiles then some (a.addFile arg)
  else
    match arg.toList with
    | ['-', '-'] => some { a with onlyFiles := true }
    | '-' :: '-' :: rest =>
      a.addLong? (String.ofList ((rest.dropWhile (· == '-')).takeWhile (· != '=')))
    | '-' :: c :: letters =>
      if (c :: letters).all (· == 'a') then
        some { a with all := a.all + (c :: letters).length }
      else none
    | _ => some (a.addFile arg)

/-- A request needs one file, and takes each flag once. -/
def Request.ofArguments? (args : List String) : Option Request := do
  let a ← args.foldlM Arguments.add? ⟨[], 0, 0, false⟩
  match a.files with
  | [file] => if a.all ≤ 1 ∧ a.printCnf ≤ 1 then some ⟨file, a.all == 1, a.printCnf == 1⟩ else none
  | _ => none

structure Report where
  code : Nat
  output : String
  complaint : String
  deriving DecidableEq

def refused : Report := ⟨1, "", ""⟩

def modelText (m : Model) : String :=
  m.entries.foldl (fun text (name, value) => text ++ s!"{name}: {value}\n") ""

def answer (cnf : Formula) (all : Bool) : Except Error (Option (List Model)) := do
  let solver ← Solver.ofCnf cnf
  if all then
    let (models, _) ← solver.allModels.mapError .fault
    return models.map Array.toList
  else
    let (model, _) ← solver.firstModel.mapError .fault
    return model.map ([·])

def complain (error : Error) : String := s!"Error reading input: {error.message}\n"

def Request.run (r : Request) (input : Text.Input) : Report :=
  match Text.parse input with
  | .error error => ⟨127, "", complain (.parse error)⟩
  | .ok formula =>
    let cnf := formula.toCnf
    let shown := if r.printCnf then cnf.text ++ "\n" else ""
    match answer cnf r.all with
    | .error error => ⟨127, shown, complain error⟩
    | .ok none => ⟨1, shown ++ "NO SAT\n", ""⟩
    | .ok (some models) =>
      let mark := if r.all then "---\n" else ""
      ⟨0, models.foldl (fun text m => text ++ modelText m ++ mark) (shown ++ "SAT\n"), ""⟩

end PropSat.CommandLine
