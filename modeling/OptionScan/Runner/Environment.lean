import OptionScan.Log
import OptionScan.Runner.Sink

/-!
What the runner is given besides its arguments. The system decides where a path leads, what the log
makes of an event, and what is left of the texts that are written to standard output in two ways at
once. The runner only asks, so all of these are functions of the environment; what they are if
nothing else is said serves to run it. Standard output and standard error lead to different places,
and every path can be created.
-/

namespace OptionScan.Runner

/-- A text on its way to standard output. -/
inductive Piece where
  /-- Printed by the runner, as a line. -/
  | line (text : String)
  /-- Written to a path that leads to standard output. -/
  | diagnostic (text : String)
  deriving DecidableEq, Repr

namespace Piece

def text : Piece → String
  | line text => text ++ "\n"
  | diagnostic text => text

def stream (pieces : List Piece) : String :=
  String.join (pieces.map text)

end Piece

structure Environment where
  /-- Set, to whatever value, if scanning is to stop at the first operand. -/
  posixlyCorrect : Option String := none
  /-- Which events are to be written to the log. -/
  logLevel : Option String := none
  target : String → Target := Target.ofPath []
  /-- What the log writes to standard error for an event. -/
  logText : (logLevel : Option String) → Event → String :=
    fun logLevel event => event.logged (.ofVariable logLevel)
  /-- What standard output holds after the pieces were written, in this order. -/
  received : List Piece → String := Piece.stream

namespace Environment

/-- Standard output is a pipe or a terminal: all that is written to it comes out in order, by
whichever path it was written. A regular file is none, as each path that leads to it has an offset
of its own. -/
def Streams (environment : Environment) : Prop :=
  ∀ pieces, environment.received pieces = Piece.stream pieces

/-- What the problems of the scan are written to, if they are not events of the log. -/
def outlet? (environment : Environment) : Sink → Option Target
  | .standardError => some .standardError
  | .file path => some (environment.target path)
  | .log => none

def reporter (environment : Environment) (sink : Sink) : Reporter :=
  match environment.outlet? sink with
  | some target => target.reporter
  | none => .log

/-- The problems are written to standard output, between the lines of the transcript. -/
def mixes (environment : Environment) (sink : Sink) : Bool :=
  environment.outlet? sink == some .standardOutput

end Environment

end OptionScan.Runner
