import OptionScan.Code

/-!
The option string: one letter per option, followed by `:` if the option requires an argument,
by `::` if it may have one in the same element, and `W;` to read `-W name` as `--name`.
A leading `-` or `+` says what happens to operands; a `:` there, or after it, makes the scan
silent.
-/

namespace OptionScan

inductive LetterKind where
  | flag
  /-- The rest of the element, or the next element if nothing is left. -/
  | required
  /-- The rest of the element, if there is any. -/
  | optional
  /-- The argument is read as a long option. -/
  | introducesName
  deriving DecidableEq, Repr

inductive OperandPolicy where
  /-- Pass over it and move it behind the options that follow. -/
  | move
  /-- Hand it back as a result. -/
  | report
  | stop
  deriving DecidableEq, Repr

structure OptionString where
  text : String
  deriving DecidableEq, Repr

namespace OptionString

def policy (o : OptionString) : OperandPolicy :=
  match o.text.toList with
  | '-' :: _ => .report
  | '+' :: _ => .stop
  | _ => .move

def letters (o : OptionString) : List Char :=
  match o.text.toList with
  | '-' :: rest => rest
  | '+' :: rest => rest
  | all => all

/-- A `:` in front of the letters: nothing is reported, and a missing or unwanted argument has a
code of its own. -/
def silent (o : OptionString) : Bool :=
  o.letters.head? == some ':'

def argumentCode (o : OptionString) : Code :=
  if o.silent then .argumentProblem else .unknown

def kindOf (letter : Char) : (after : List Char) → LetterKind
  | ';' :: _ => if letter = 'W' then .introducesName else .flag
  | ':' :: ':' :: _ => .optional
  | ':' :: _ => .required
  | _ => .flag

/-- The kind of an option letter: its first place among the letters counts, and `:` is never
one. -/
def kind? (o : OptionString) (letter : Char) : Option LetterKind :=
  if letter = ':' then none
  else
    match o.letters.dropWhile (· != letter) with
    | [] => none
    | _ :: after => some (kindOf letter after)

end OptionString

end OptionScan
