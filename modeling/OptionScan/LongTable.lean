import OptionScan.OptionError

/-!
The table of long options, and the entry that a token such as `name=value` means. An exact name
wins. Otherwise the name may be short for one or several entries, as long as it does not matter
which of them is taken; then the first one is.
-/

namespace OptionScan

inductive ArgumentRule where
  | none
  /-- `--name=value` or `--name value` -/
  | required
  /-- `--name=value` only -/
  | optional
  deriving DecidableEq, Repr

/-- An entry of the table. A match answers with `value`, or, if the entry is bound to a flag
cell, stores `value` there. -/
structure LongEntry where
  name : String
  argument : ArgumentRule
  value : Int
  cell : Option Nat := none
  deriving DecidableEq, Repr

abbrev LongTable := List LongEntry

structure Resolution where
  index : Nat
  entry : LongEntry
  name : String
  value : Option String
  deriving DecidableEq, Repr

namespace LongEntry

/-- Matching one entry or the other makes no difference. -/
def agrees (a b : LongEntry) : Bool :=
  a.argument == b.argument && a.cell == b.cell && a.value == b.value

def culprit (entry : LongEntry) : Code :=
  match entry.cell with
  | some _ => 0
  | none => entry.value

end LongEntry

inductive Candidate where
  | absent
  /-- The name is short for this entry, the first such one. -/
  | short (index : Nat) (entry : LongEntry)
  | ambiguous
  | exact (index : Nat) (entry : LongEntry)
  deriving DecidableEq, Repr

def Candidate.add (index : Nat) (entry : LongEntry) : Candidate → Candidate
  | absent => short index entry
  | short first seen => if entry.agrees seen then short first seen else ambiguous
  | settled => settled

namespace LongTable

def splitToken (token : String) : String × Option String :=
  let name := String.ofList (token.toList.takeWhile (· != '='))
  match token.toList.dropWhile (· != '=') with
  | [] => (name, none)
  | _ :: value => (name, some (String.ofList value))

/-- Looks for a name from an index of the table on. An exact match ends the search. -/
def search (name : String) : (table : LongTable) → (index : Nat) → Candidate → Candidate
  | [], _, found => found
  | entry :: rest, index, found =>
    if entry.name = name then .exact index entry
    else if name.toList.isPrefixOf entry.name.toList then
      search name rest (index + 1) (found.add index entry)
    else
      search name rest (index + 1) found

def resolve (table : LongTable) (token : String) : Except OptionError Resolution :=
  let (name, value) := splitToken token
  match search name table 0 .absent with
  | .exact index entry | .short index entry => .ok ⟨index, entry, name, value⟩
  | .ambiguous => .error (.ambiguousName name)
  | .absent => .error (.unknownName token)

end LongTable

end OptionScan
