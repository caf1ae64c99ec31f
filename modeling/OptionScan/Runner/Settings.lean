import OptionScan.Host
import OptionScan.Runner.Sink

/-!
The options of the runner itself: they describe the session that it is to run.
-/

namespace OptionScan.Runner

structure Settings where
  config : Config
  sink : Sink := .standardError
  /-- The long options, not yet bound to flag cells. -/
  table : LongTable := []
  flagNames : List String := []
  deriving DecidableEq, Repr

def firstCode (text : String) : Code :=
  match text.toList with
  | [] => 0
  | c :: _ => .ofChar c

def splitColons (text : String) : String × ArgumentRule :=
  match text.toList.reverse with
  | ':' :: ':' :: rest => (String.ofList rest.reverse, .optional)
  | ':' :: rest => (String.ofList rest.reverse, .required)
  | _ => (text, .none)

/-- Reads a long option written as `name`, `name:` or `name::`. Its value is the character that is
given after an `=`, or else the first one of the name. -/
def longOption (text : String) : LongEntry :=
  let (spec, code) := LongTable.splitToken text
  let (name, argument) := splitColons spec
  { name, argument, value := firstCode (code.getD spec) }

namespace Settings

/-- The settings after one more option. There are none if it is not an option of the runner. -/
def add (s : Settings) (code : Code) (argument : String) : Option Settings :=
  match code.char? with
  | some 'p' => some { s with config := { s.config with strict := true } }
  | some 'q' => some { s with config := { s.config with reportErrors := false } }
  | some 't' => some { s with sink := .log }
  | some 'e' => some { s with sink := .file argument }
  | some 'l' => some { s with table := s.table ++ [longOption argument] }
  | some 'f' => some { s with flagNames := s.flagNames ++ [argument] }
  | _ => none

/-- The settings after the replies of a scan, if all of them were options of the runner, and what
was let out up to the first that was not. -/
def addAll (s : Settings) : List Reply → Option Settings × List Output
  | [] => (some s, [])
  | reply :: rest =>
    match reply.code with
    | none => (some s, reply.outputs)
    | some code =>
      match s.add code (reply.host.argumentText?.getD "") with
      | none => (none, reply.outputs)
      | some s =>
        let (final, outputs) := s.addAll rest
        (final, reply.outputs ++ outputs)

/-- The table with each entry bound to the first flag cell of its name. -/
def boundTable (s : Settings) : LongTable :=
  s.table.map fun entry => { entry with cell := s.flagNames.idxOf? entry.name }

end Settings

end OptionScan.Runner
