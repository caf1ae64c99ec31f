/-!
Result codes. A scan answers with a number: the scalar value of an option letter, the value of a
long option, or one of the fixed codes below.
-/

namespace OptionScan

abbrev Code := Int

namespace Code

def ofChar (c : Char) : Code :=
  Int.ofNat c.toNat

def stored : Code := 0

def operand : Code := 1

def unknown : Code := ofChar '?'

/-- A missing or unwanted argument in silent mode. -/
def argumentProblem : Code := ofChar ':'

def char? : Code → Option Char
  | .ofNat n => if n.isValidChar then some (Char.ofNat n) else none
  | .negSucc _ => none

theorem char?_ofChar (c : Char) : char? (ofChar c) = some c := by
  have h : c.toNat.isValidChar := c.valid
  simp [char?, ofChar, h]

theorem ofChar_injective {c other : Char} (h : ofChar c = ofChar other) : c = other := by
  have hchars := congrArg char? h
  rw [char?_ofChar, char?_ofChar] at hchars
  exact Option.some.inj hchars

end Code

end OptionScan
