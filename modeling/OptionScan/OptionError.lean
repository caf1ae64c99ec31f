import OptionScan.OptionString

/-!
The problems a scan can find in one option. None of them stops the scan: the cursor is past the
offending element by the time the problem is known.
-/

namespace OptionScan

inductive OptionError where
  | unknownLetter (letter : Char)
  | unknownName (token : String)
  | ambiguousName (name : String)
  | missingLetterArgument (letter : Char)
  | missingNameArgument (token : String)
  | unwantedArgument (name : String)
  deriving DecidableEq, Repr

namespace OptionError

def subject : OptionError → String
  | unknownLetter c | missingLetterArgument c => String.singleton c
  | unknownName text | ambiguousName text | missingNameArgument text | unwantedArgument text => text

def complaint : OptionError → String
  | unknownLetter _ | unknownName _ => "unknown option"
  | ambiguousName _ => "ambiguous option"
  | missingLetterArgument _ | missingNameArgument _ => "option requires an argument"
  | unwantedArgument _ => "option doesn't take an argument"

def message (error : OptionError) : String :=
  error.complaint ++ " -- " ++ error.subject

def concernsArgument : OptionError → Bool
  | missingLetterArgument _ | missingNameArgument _ | unwantedArgument _ => true
  | unknownLetter _ | unknownName _ | ambiguousName _ => false

/-- The code a scan answers with; only the errors about an argument depend on silent mode. -/
def code (o : OptionString) (error : OptionError) : Code :=
  if error.concernsArgument then o.argumentCode else .unknown

end OptionError

end OptionScan
