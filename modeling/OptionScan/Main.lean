import OptionScan.Runner

/-!
The runner as a program.
-/

namespace OptionScan

def workingDirectory : IO String := do
  try return (← IO.currentDir).toString
  catch _ => return "/"

def deliver (report : Runner.Report) : IO UInt32 := do
  if let some (path, text) := report.file then
    IO.FS.writeFile path text
  IO.print report.stdout
  IO.eprint report.stderr
  return UInt32.ofNat report.exit

end OptionScan

open OptionScan in
def main (args : List String) : IO UInt32 := do
  let environment : Runner.Environment :=
    { posixlyCorrect := ← IO.getEnv "POSIXLY_CORRECT"
      logLevel := ← IO.getEnv "GETOPT_LOG"
      target := .ofPath (.ofPath [] (← workingDirectory)) }
  match Runner.run environment args with
  | .ok report =>
    try deliver report
    catch problem =>
      IO.eprintln s!"Error: {problem}"
      return 1
  | .error fault =>
    IO.eprintln fault.message
    return 101
