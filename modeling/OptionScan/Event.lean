import OptionScan.OptionError
import OptionScan.Exchange

/-!
What a scan lets out besides its answers: texts for the diagnostic sink, and events that a log
may record.
-/

namespace OptionScan

inductive Event where
  | operandSkipped (cursor blockStart : Nat)
  /-- The blocks `start..mid` and `mid..stop` of the vector were exchanged. -/
  | blockMoved (start mid stop : Nat) (cycles : Cycles)
  | optionFailed (error : OptionError) (cursor : Nat)
  /-- A problem was reported to the log. -/
  | warned (error : OptionError)
  | sinkFailed (reason : String)
  deriving DecidableEq, Repr

inductive Output where
  /-- A text for the diagnostic sink. -/
  | diagnostic (text : String)
  | event (event : Event)
  deriving DecidableEq, Repr

def Output.diagnostics : List Output → String
  | [] => ""
  | diagnostic text :: rest => text ++ diagnostics rest
  | event _ :: rest => diagnostics rest

theorem Output.diagnostics_append (first second : List Output) :
    diagnostics (first ++ second) = diagnostics first ++ diagnostics second := by
  induction first with
  | nil => simp [diagnostics]
  | cons output rest ih => cases output <;> simp [diagnostics, ih, String.append_assoc]

end OptionScan
