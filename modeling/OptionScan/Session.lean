import OptionScan.Reading
import OptionScan.Reporter

/-!
A scanning session. It is asked for one option at a time, and keeps between the calls what it
needs to go on: the cursor, the place inside a half-read element, and the block of operands that
waits to be moved. The vector and the grammar are given afresh at every call.
-/

namespace OptionScan

structure Session where
  config : Config := {}
  /-- The next element to look at. Element 0 is the name of the program. -/
  cursor : Nat := 1
  /-- The letter, or the value of the long option, that the last problem was about. -/
  culprit : Code := .unknown
  argument : Option Location := none
  entryIndex : Option Nat := none
  /-- The next call forgets the half-read element and the block. -/
  resetRequested : Bool := false
  /-- The byte position of the next letter in the element under the cursor. -/
  offset : Option Nat := none
  block : Block := .absent
  lastError : Option OptionError := none
  reporter : Reporter := .lines Reporter.defaultLabel

structure Turn where
  session : Session
  args : List String
  code : Option Code
  store : Option Store := none
  outputs : List Output

namespace Session

/-- Puts the cursor at an element. A half-read element and a waiting block are forgotten. -/
def setCursor (s : Session) (cursor : Nat) : Session :=
  { s with cursor, offset := none, block := .absent }

def requestReset (s : Session) : Session :=
  { s with resetRequested := true }

def setReportErrors (s : Session) (reportErrors : Bool) : Session :=
  { s with config := { s.config with reportErrors } }

def setReporter (s : Session) (reporter : Reporter) : Session :=
  { s with reporter }

def argumentText? (s : Session) (args : List String) : Option String :=
  s.argument.bind (Location.text? args)

/-- The session as a call starts out, on a vector of the given size. -/
def prepare (s : Session) (size : Nat) : Session :=
  let cursor := max 1 s.cursor
  { s with
    cursor
    argument := none
    entryIndex := none
    lastError := none
    resetRequested := false
    offset := if s.resetRequested || decide (size ≤ cursor) then none else s.offset
    block := if s.resetRequested then .absent else s.block }

def read (s : Session) (grammar : Grammar) (args : List String) : Except Fault Reading :=
  let policy := s.config.policy grammar.letters
  let walk : Walk := { args, cursor := s.cursor, block := s.block }
  match s.offset with
  | none => walk.readNext grammar policy
  | some offset => walk.resume grammar policy offset

def announce (s : Session) (grammar : Grammar) (error : OptionError) : List Output :=
  .event (.optionFailed error s.cursor) ::
    if s.config.reportErrors && !grammar.letters.silent then s.reporter error else []

def conclude (s : Session) (grammar : Grammar) (reading : Reading) : Turn :=
  let walk := reading.walk
  let s := { s with cursor := walk.cursor, block := walk.block, offset := reading.offset }
  match reading.outcome with
  | .ended =>
    { session := s, args := walk.args, code := none, outputs := walk.outputs }
  | .found code argument entryIndex store =>
    { session := { s with argument, entryIndex }
      args := walk.args, code := some code, store, outputs := walk.outputs }
  | .failed error culprit =>
    { session := { s with culprit, lastError := some error }
      args := walk.args, code := some (error.code grammar.letters)
      outputs := walk.outputs ++ s.announce grammar error }

def next (s : Session) (grammar : Grammar) (args : List String) : Except Fault Turn := do
  let s := s.prepare args.length
  let reading ← s.read grammar args
  .ok (s.conclude grammar reading)

end Session

end OptionScan
