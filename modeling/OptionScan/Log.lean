import OptionScan.Event

/-!
The log. An event has a level, a message and fields. What is written of it is up to the log; if
nothing else is said, it is one line, and is left out if the log is set to a higher level.
-/

namespace OptionScan

inductive Level where
  | trace
  | debug
  | info
  | warn
  | error
  deriving DecidableEq, Repr

namespace Level

def rank : Level → Nat
  | trace => 0
  | debug => 1
  | info => 2
  | warn => 3
  | error => 4

def label : Level → String
  | trace => "TRACE"
  | debug => "DEBUG"
  | info => " INFO"
  | warn => " WARN"
  | error => "ERROR"

end Level

/-- The lowest level that is written, if any. -/
abbrev LogSetting := Option Level

def LogSetting.ofName? (name : String) : Option LogSetting :=
  match String.ofList (name.toList.map Char.toLower) with
  | "trace" => some (some .trace)
  | "debug" => some (some .debug)
  | "info" => some (some .info)
  | "warn" => some (some .warn)
  | "error" => some (some .error)
  | "off" => some none
  | _ => none

/-- The setting a variable of the environment asks for: warnings and errors, unless it names
another one. -/
def LogSetting.ofVariable (value : Option String) : LogSetting :=
  (value.bind ofName?).getD (some .warn)

namespace Event

def level : Event → Level
  | operandSkipped .. | blockMoved .. => .trace
  | optionFailed .. | sinkFailed _ => .debug
  | warned _ => .warn

def message : Event → String
  | operandSkipped .. => "skipping operand"
  | blockMoved .. => "permuted argument block"
  | optionFailed .. => "option error"
  | sinkFailed _ => "failed to write diagnostic"
  | warned error => error.message

def fields : Event → List (String × String)
  | operandSkipped cursor blockStart =>
    [("optind", toString cursor), ("nonopt_start", "Some(" ++ toString blockStart ++ ")")]
  | blockMoved start mid stop cycles =>
    [("start", toString start), ("mid", toString mid), ("end", toString stop),
      ("ncycle", toString cycles.count), ("cyclelen", toString cycles.length)]
  | optionFailed error cursor => [("error", error.message), ("optind", toString cursor)]
  | sinkFailed reason => [("error", reason)]
  | warned error => [("option", error.subject)]

/-- A character of a message. The control characters to which a terminal would listen are written
as their numbers. -/
def visible (c : Char) : String :=
  let digits := String.ofList (Nat.toDigits 16 c.toNat)
  if c.toNat ∈ [0x07, 0x08, 0x0c, 0x1b, 0x7f] then
    (if c.toNat < 0x10 then "\\x0" else "\\x") ++ digits
  else if 0x80 ≤ c.toNat && c.toNat ≤ 0x9f then
    "\\u\x7b" ++ digits ++ "\x7d"
  else
    String.singleton c

def line (event : Event) : String :=
  let message := String.join (event.message.toList.map visible)
  let fields := event.fields.map fun (name, value) => " " ++ name ++ "=" ++ value
  event.level.label ++ " " ++ message ++ String.join fields ++ "\n"

def logged (setting : LogSetting) (event : Event) : String :=
  match setting with
  | none => ""
  | some lowest => if lowest.rank ≤ event.level.rank then event.line else ""

end Event

end OptionScan
