import OptionScan.LongTable

/-!
What a scan is told about the options: the option string and the table of long options.
-/

namespace OptionScan

structure Grammar where
  letters : OptionString
  table : LongTable := []
  deriving DecidableEq, Repr

structure Config where
  /-- Stop at the first operand, whatever the option string says. -/
  strict : Bool := false
  reportErrors : Bool := true
  deriving DecidableEq, Repr

/-- The environment asks for strict scanning by setting a variable, to whatever value. -/
def Config.ofVariable (value : Option String) : Config :=
  { strict := value.isSome }

def Config.policy (config : Config) (letters : OptionString) : OperandPolicy :=
  if config.strict then .stop else letters.policy

end OptionScan
