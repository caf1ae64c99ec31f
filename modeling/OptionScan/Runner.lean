import OptionScan.Runner.Environment
import OptionScan.Runner.Settings
import OptionScan.Transcript

/-!
The runner: a program that scans arguments against an option string and prints the transcript.
The options in front of the option string describe the session.
-/

namespace OptionScan.Runner

structure Report where
  exit : Nat
  stdout : String
  stderr : String
  /-- The path and the text of the file it wrote. -/
  file : Option (String × String) := none
  deriving DecidableEq, Repr

def usage : String :=
  "usage: getopt-test [-pqt] [-e FILE] [-l NAME[:|::][=C]]... [-f NAME]... OPTSTRING [ARG]...\n"

def grammar : Grammar :=
  { letters := ⟨"+pqte:l:f:"⟩ }

/-- What outputs leave on standard error, diagnostics included or not. -/
def errorText (log : Event → String) (withDiagnostics : Bool) : List Output → String
  | [] => ""
  | .diagnostic text :: rest =>
    (if withDiagnostics then text else "") ++ errorText log withDiagnostics rest
  | .event event :: rest => log event ++ errorText log withDiagnostics rest

def Settings.host (s : Settings) (environment : Environment) (args : List String) : Host :=
  { session := { config := s.config, reporter := environment.reporter s.sink }
    args := "prog" :: args
    cells := s.flagNames.map fun _ => 0 }

def result? (reply : Reply) : Option Result :=
  reply.item?.map fun item =>
    { code := item.code
      culprit := reply.host.session.culprit
      entryIndex := item.entryIndex
      argument := item.argument }

def transcript (flagNames : List String) (replies : List Reply) (final : Host) : Transcript :=
  { results := replies.filterMap result?
    flags := flagNames.zip final.cells
    cursor := final.session.cursor
    args := final.args.drop 1 }

def diagnosticPiece? : Output → Option Piece
  | .diagnostic text => some (.diagnostic text)
  | .event _ => none

/-- What a call writes to standard output if the diagnostics go there too: they are out before the
call answers. -/
def replyPieces (reply : Reply) : List Piece :=
  reply.outputs.filterMap diagnosticPiece? ++
    ((result? reply).map fun result => Piece.line result.line).toList

def outputText (environment : Environment) (sink : Sink) (replies : List Reply)
    (t : Transcript) : String :=
  if environment.mixes sink then
    environment.received (replies.flatMap replyPieces ++ t.closing.map Piece.line)
  else
    t.text

def scan (environment : Environment) (s : Settings) (optionString : String)
    (args : List String) : Except Fault Report := do
  let host := s.host environment args
  let replies ← host.drain ⟨⟨optionString⟩, s.boundTable⟩
  let outputs := replies.flatMap Reply.outputs
  let outlet := environment.outlet? s.sink
  .ok {
    exit := 0
    stdout :=
      outputText environment s.sink replies
        (transcript s.flagNames replies (host.after replies))
    stderr :=
      errorText (environment.logText environment.logLevel) (outlet == some .standardError) outputs
    file :=
      match s.sink, outlet with
      | .file path, some .file => some (path, Output.diagnostics outputs)
      | _, _ => none }

/-- Runs with the given arguments, which do not include the name of the program. -/
def run (environment : Environment) (args : List String) : Except Fault Report := do
  let config := Config.ofVariable environment.posixlyCorrect
  let host : Host :=
    { session := { config, reporter := .lines "getopt-test" }
      args := "getopt-test" :: args }
  let replies ← host.drain grammar
  let final := host.after replies
  let (settings, outputs) := Settings.addAll { config } replies
  let stderr := errorText (environment.logText environment.logLevel) true outputs
  match settings, final.args.drop final.session.cursor with
  | some settings, optionString :: rest =>
    let report ← scan environment settings optionString rest
    .ok { report with stderr := stderr ++ report.stderr }
  | _, _ => .ok { exit := 2, stdout := "", stderr := stderr ++ usage }

end OptionScan.Runner
