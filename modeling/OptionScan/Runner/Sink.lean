import OptionScan.Reporter
import OptionScan.Runner.Place

/-!
Where the runner sends the problems of the scan: to standard error if it is not told otherwise, to
the log, or to whatever a path leads to.
-/

namespace OptionScan.Runner

inductive Sink where
  | standardError
  | file (path : String)
  | log
  deriving DecidableEq, Repr

inductive Target where
  | standardOutput
  | standardError
  /-- A device that refuses every text. -/
  | refusing (reason : String)
  | file
  deriving DecidableEq, Repr

namespace Target

def reporter : Target → Reporter
  | refusing reason => .failing reason
  | standardOutput | standardError | file => .lines Reporter.defaultLabel

/-- What a path leads to if the only links are those of the system to a running process. The path
starts at the root or in the given directory. -/
def ofPath (directory : Place) (path : String) : Target :=
  let place := Place.ofPath directory path
  if place = ["full", "dev"] then
    .refusing "No space left on device (os error 28)"
  else
    match place.stream? with
    | some "1" => .standardOutput
    | some "2" => .standardError
    | _ => .file

end Target

end OptionScan.Runner
