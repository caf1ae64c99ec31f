import OptionScan.Text.Offset
import OptionScan.Grammar
import OptionScan.Walk

/-!
Reading one option. A reading starts where a walk came to a halt, or inside an element that an
earlier reading left half read, and says what the call found and where the next one goes on.
-/

namespace OptionScan

/-- A suffix of an element of the vector: where the argument of an option is. -/
structure Location where
  index : Nat
  /-- In bytes. -/
  offset : Nat
  deriving DecidableEq, Repr

def Location.text? (args : List String) (location : Location) : Option String := do
  let element ← args[location.index]?
  let rest ← dropBytes? element.toList location.offset
  some (String.ofList rest)

structure Store where
  cell : Nat
  value : Int
  deriving DecidableEq, Repr

inductive Outcome where
  | ended
  /-- An option that could not be used, and what to blame. -/
  | failed (error : OptionError) (culprit : Code)
  /-- An option, or an operand that counts; of a long option, the index of its entry. -/
  | found (code : Code) (argument : Option Location) (entryIndex : Option Nat)
      (store : Option Store)
  deriving DecidableEq, Repr

structure Reading where
  walk : Walk
  /-- Where in the element under the cursor the next reading starts, if this one left some of it. -/
  offset : Option Nat
  outcome : Outcome
  deriving DecidableEq, Repr

def Outcome.letter (letter : Char) (argument : Option Location) : Outcome :=
  .found (.ofChar letter) argument none none

/-- An entry of the table was matched: its value is the answer, or goes to its flag cell. -/
def Outcome.entry (found : Resolution) (argument : Option Location) : Outcome :=
  match found.entry.cell with
  | none => .found found.entry.value argument (some found.index) none
  | some cell => .found .stored argument (some found.index) (some ⟨cell, found.entry.value⟩)

namespace Walk

def afterLetter (w : Walk) (next : Nat) (rest : List Char) (outcome : Outcome) : Reading :=
  match rest with
  | [] => ⟨w.advance, none, outcome⟩
  | _ :: _ => ⟨w, some next, outcome⟩

def missingArgument (w : Walk) (letter : Char) : Reading :=
  ⟨w.advance, none, .failed (.missingLetterArgument letter) (.ofChar letter)⟩

/-- Takes the argument of a matched entry. The token stands at `offset` in the element at
`index`, and the cursor is past that element. -/
def readEntry (w : Walk) (index offset : Nat) (token : String) (found : Resolution) : Reading :=
  match found.entry.argument, found.value with
  | .none, some _ =>
    ⟨w, none, .failed (.unwantedArgument found.name) found.entry.culprit⟩
  | .required, none =>
    if w.cursor < w.args.length then
      ⟨w.advance, none, .entry found (some ⟨w.cursor, 0⟩)⟩
    else
      ⟨w, none, .failed (.missingNameArgument token) found.entry.culprit⟩
  | .required, some _ | .optional, some _ =>
    ⟨w, none, .entry found (some ⟨index, offset + byteWidth found.name.toList + 1⟩)⟩
  | .none, none | .optional, none =>
    ⟨w, none, .entry found none⟩

/-- Reads a long option, whose token stands at `offset` in the element at `index`. An empty token
ends the scan. -/
def readName (w : Walk) (table : LongTable) (index offset : Nat) :
    Except Fault Reading :=
  match w.args[index]? with
  | none => .error (.noElement index w.args.length)
  | some element =>
    let w := { w with cursor := index + 1 }
    if byteWidth element.toList ≤ offset then do
      let w ← w.settle
      .ok ⟨w, none, .ended⟩
    else
      match dropBytes? element.toList offset with
      | none => .error (.noBoundary offset)
      | some rest =>
        let token := String.ofList rest
        match table.resolve token with
        | .error error => .ok ⟨w, none, .failed error 0⟩
        | .ok found => .ok (w.readEntry index offset token found)

def readLetter (w : Walk) (grammar : Grammar) (offset : Nat) (letter : Char) (rest : List Char) :
    Except Fault Reading :=
  let next := offset + letter.utf8Size
  match grammar.letters.kind? letter, rest with
  | none, _ =>
    .ok (w.afterLetter next rest (.failed (.unknownLetter letter) (.ofChar letter)))
  | some .flag, _ =>
    .ok (w.afterLetter next rest (.letter letter none))
  | some .required, _ :: _ | some .optional, _ :: _ =>
    .ok ⟨w.advance, none, .letter letter (some ⟨w.cursor, next⟩)⟩
  | some .optional, [] =>
    .ok ⟨w.advance, none, .letter letter none⟩
  | some .required, [] =>
    if w.cursor + 1 < w.args.length then
      .ok ⟨w.advance.advance, none, .letter letter (some ⟨w.cursor + 1, 0⟩)⟩
    else
      .ok (w.missingArgument letter)
  | some .introducesName, _ :: _ =>
    w.readName grammar.table w.cursor next
  | some .introducesName, [] =>
    if w.cursor + 1 < w.args.length then
      w.readName grammar.table (w.cursor + 1) 0
    else
      .ok (w.missingArgument letter)

def readNext (w : Walk) (grammar : Grammar) (policy : OperandPolicy) : Except Fault Reading := do
  let (w, landing) ← seek policy (w.args.drop w.cursor) w
  match landing with
  | .finish => .ok ⟨w, none, .ended⟩
  | .operand => .ok ⟨w.advance, none, .found .operand (some ⟨w.cursor, 0⟩) none none⟩
  | .letters first rest => w.readLetter grammar 1 first rest
  | .name => w.readName grammar.table w.cursor 2

/-- Goes on inside the element under the cursor. If that element no longer has the given position
the vector was replaced, and the element is given up. -/
def resume (w : Walk) (grammar : Grammar) (policy : OperandPolicy) (offset : Nat) :
    Except Fault Reading :=
  match w.args[w.cursor]? with
  | none => .error (.noElement w.cursor w.args.length)
  | some element =>
    match dropBytes? element.toList offset with
    | some (letter :: rest) => w.readLetter grammar offset letter rest
    | some [] | none => w.advance.readNext grammar policy

end Walk

end OptionScan
