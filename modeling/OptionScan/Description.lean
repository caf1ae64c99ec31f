import OptionScan.Session

/-!
A session written out on one line for a person who looks for a mistake. Letters stand in single
and texts in double quotes.
-/

namespace OptionScan.Description

def hexadecimal (n : Nat) : String :=
  String.ofList (Nat.toDigits 16 n)

def quotedChar (quote c : Char) : String :=
  if c = quote || c = '\\' then String.ofList ['\\', c]
  else if c = '\n' then "\\n"
  else if c = '\r' then "\\r"
  else if c = '\t' then "\\t"
  else if c.toNat = 0 then "\\0"
  else if c.toNat < 0x20 || c.toNat = 0x7f then "\\u\x7b" ++ hexadecimal c.toNat ++ "\x7d"
  else String.singleton c

def letter (c : Char) : String :=
  "'" ++ quotedChar '\'' c ++ "'"

def text (s : String) : String :=
  "\"" ++ String.join (s.toList.map (quotedChar '"')) ++ "\""

def optional (value : Option String) : String :=
  match value with
  | none => "None"
  | some value => "Some(" ++ value ++ ")"

def kind : OptionError → String
  | .unknownLetter _ => "UnknownOption"
  | .unknownName _ => "UnknownLongOption"
  | .ambiguousName _ => "AmbiguousLongOption"
  | .missingLetterArgument _ => "MissingArgument"
  | .missingNameArgument _ => "MissingLongArgument"
  | .unwantedArgument _ => "UnexpectedArgument"

def error (e : OptionError) : String :=
  let payload :=
    match e with
    | .unknownLetter c | .missingLetterArgument c => letter c
    | .unknownName s | .ambiguousName s | .missingNameArgument s | .unwantedArgument s => text s
  kind e ++ "(" ++ payload ++ ")"

def record (name : String) (fields : List (String × String)) (tail : String) : String :=
  let written := fields.map fun (field, value) => field ++ ": " ++ value
  name ++ " \x7b " ++ ", ".intercalate written ++ tail ++ " \x7d"

def config (c : Config) : String :=
  record "Config"
    [("posixly_correct", toString c.strict), ("opterr", toString c.reportErrors)] ""

def blockStart? : Block → Option Nat
  | .absent => none
  | .opened start | .closed start _ => some start

def blockStop? : Block → Option Nat
  | .absent | .opened _ => none
  | .closed _ stop => some stop

def session (s : Session) : String :=
  let number (n : Option Nat) := optional (n.map toString)
  record "Getopt"
    [("config", config s.config),
      ("optind", toString s.cursor),
      ("optopt", toString s.culprit),
      ("place", number s.offset),
      ("nonopt_start", number (blockStart? s.block)),
      ("nonopt_end", number (blockStop? s.block)),
      ("last_error", optional (s.lastError.map error))]
    ", .."

end OptionScan.Description
