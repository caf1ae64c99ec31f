import OptionScan.Event

/-!
Reporters. A reporter says what a scan lets out when it reports a problem; it has no say in the
scan itself.
-/

namespace OptionScan

abbrev Reporter := OptionError → List Output

namespace Reporter

def texts (text : OptionError → String) : Reporter :=
  fun error => [.diagnostic (text error)]

def lines (label : String) : Reporter :=
  texts fun error => label ++ ": " ++ error.message ++ "\n"

def defaultLabel : String := "getopt_long"

def failing (reason : String) : Reporter :=
  fun _ => [.event (.sinkFailed reason)]

def log : Reporter :=
  fun error => [.event (.warned error)]

end Reporter

end OptionScan
