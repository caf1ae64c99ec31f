import OptionScan.Code
import OptionScan.Text.Lines
import OptionScan.Text.Numeral

/-!
The transcript of a scan: a line for each result, then the flag cells, the cursor and the vector.
The reading functions take such a text apart again; each looks at the first line of its kind.
-/

namespace OptionScan

/-- A printable ASCII character as such, any other code as a number. -/
def Code.shown (code : Code) : String :=
  match code.char? with
  | some c => if 0x21 ≤ c.toNat && c.toNat ≤ 0x7e then String.singleton c else toString code
  | none => toString code

structure Result where
  code : Code
  culprit : Code
  entryIndex : Option Nat
  argument : Option String
  deriving DecidableEq, Repr

namespace Result

def heading (r : Result) : String :=
  if r.code = .operand then "operand"
  else if r.code = .unknown ∨ r.code = .argumentProblem then
    r.code.shown ++ " optopt=" ++ r.culprit.shown
  else if r.code = .stored then "stored"
  else "option " ++ r.code.shown

def line (r : Result) : String :=
  let index :=
    match r.entryIndex with
    | none => ""
    | some index => " index=" ++ toString index
  let argument :=
    match r.argument with
    | none => ""
    | some argument => " arg=" ++ argument
  r.heading ++ index ++ argument

end Result

structure Transcript where
  results : List Result
  flags : List (String × Int)
  cursor : Nat
  /-- The vector, without the name of the program. -/
  args : List String
  deriving DecidableEq, Repr

namespace Transcript

def closing (t : Transcript) : List String :=
  t.flags.map (fun (name, value) => "flag " ++ name ++ "=" ++ toString value)
    ++ ["optind " ++ toString t.cursor, "argv " ++ " ".intercalate t.args]

def lines (t : Transcript) : List String :=
  t.results.map Result.line ++ t.closing

def text (t : Transcript) : String :=
  unlines t.lines

inductive Missing where
  | cursor
  | args
  deriving DecidableEq, Repr

def Missing.message : Missing → String
  | cursor => "no optind line in output"
  | args => "no argv line in output"

/-- The first line with a key, without the key. -/
def keyed? (key text : String) : Option String :=
  (OptionScan.lines text).findSome? (textAfter? key)

/-- The lines for the results: those that have none of the other keys. -/
def readResults (text : String) : List String :=
  (OptionScan.lines text).filter fun line =>
    ["optind ", "argv", "flag "].all fun key => (textAfter? key line).isNone

def readCursor (text : String) : Except Missing Nat :=
  match (keyed? "optind " text).bind (unsigned? 64) with
  | some cursor => .ok cursor
  | none => .error .cursor

def readArgs (text : String) : Except Missing (List String) :=
  match keyed? "argv" text with
  | some args => .ok (words args)
  | none => .error .args

def readFlag? (name text : String) : Option Int :=
  (keyed? ("flag " ++ name ++ "=") text).bind (signed? 32)

end Transcript

end OptionScan
