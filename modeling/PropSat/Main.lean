import PropSat.CommandLine

/-!
The program: reads the file named on the command line, prints, and exits with a code.
-/

open PropSat

def readInput (file : String) : IO Text.Input := do
  try
    return .ofBytes (← IO.FS.readBinFile file)
  catch
    | .noFileOrDirectory .. => return .unreadable "No such file or directory (os error 2)"
    | .inappropriateType .. => return .unreadable "Is a directory (os error 21)"
    | .permissionDenied .. => return .unreadable "Permission denied (os error 13)"
    | error => return .unreadable (toString error)

def main (args : List String) : IO UInt32 := do
  let report ← match CommandLine.Request.ofArguments? args with
    | none => pure CommandLine.refused
    | some request => pure (request.run (← readInput request.file))
  IO.print report.output
  IO.eprint report.complaint
  return report.code.toUInt32
