/-!
Numerals in decimal digits, with an optional sign. A numeral whose value does not fit the width in
bits is refused.
-/

namespace OptionScan

def digits? (text : List Char) : Option Nat :=
  if text ≠ [] ∧ text.all Char.isDigit then some (Nat.ofDigitChars 10 text 0) else none

/-- The decimal digits of a number are read as that number. -/
theorem digits?_toDigits (n : Nat) : digits? (Nat.toDigits 10 n) = some n := by
  have hdigits : (Nat.toDigits 10 n).all Char.isDigit = true :=
    List.all_eq_true.mpr fun _ hc => Nat.isDigit_of_mem_toDigits (by omega) (by omega) hc
  rw [digits?, if_pos ⟨Nat.toDigits_ne_nil, hdigits⟩,
    Nat.ofDigitChars_toDigits (by omega) (by omega)]

/-- A number from 0 up to `2 ^ width`. -/
def unsigned? (width : Nat) (text : String) : Option Nat :=
  let value :=
    match text.toList with
    | '+' :: rest => digits? rest
    | all => digits? all
  value.filter fun n => n < Nat.pow 2 width

/-- A number from `-2 ^ (width - 1)` up to `2 ^ (width - 1)`. -/
def signed? (width : Nat) (text : String) : Option Int :=
  let value : Option Int :=
    match text.toList with
    | '+' :: rest => (digits? rest).map Int.ofNat
    | '-' :: rest => (digits? rest).map fun n => -Int.ofNat n
    | all => (digits? all).map Int.ofNat
  let limit : Int := Nat.pow 2 (width - 1)
  value.filter fun n => -limit ≤ n ∧ n < limit

end OptionScan
