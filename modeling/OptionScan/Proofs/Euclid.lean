import Mathlib.Data.Nat.GCD.Basic
import OptionScan.Exchange

/-!
Euclid's algorithm as a chain of divisions. The first one divides the two numbers; each further one
divides the last divisor by what was left over, which is why it is never a division by zero and why
the common divisors stay the same. Two divisions more than halve the remainder, so the chain is
short, and its last divisor is the greatest common divisor, whichever number comes first.
-/

namespace OptionScan

/-- A division that can be made, with what it leaves over. -/
structure Division where
  dividend : Nat
  divisor : Nat
  remainder : Nat
  divisor_pos : 0 < divisor
  remainder_eq : remainder = dividend % divisor

namespace Division

inductive Stuck where
  | byZero (dividend : Nat)
  | unfinished (last : Division)

def divide (a b : Nat) : Except Stuck Division :=
  if h : 0 < b then .ok ⟨a, b, a % b, h, rfl⟩ else .error (.byZero a)

def finish : (rounds : Nat) → Division → Except Stuck Nat
  | 0, d => if d.remainder = 0 then .ok d.divisor else .error (.unfinished d)
  | rounds + 1, d =>
    if d.remainder = 0 then .ok d.divisor
    else do
      let next ← divide d.divisor d.remainder
      finish rounds next

def chain (rounds a b : Nat) : Except Stuck Nat := do
  let first ← divide a b
  finish rounds first

theorem divide_eq {a b : Nat} (hb : 0 < b) : divide a b = .ok ⟨a, b, a % b, hb, rfl⟩ :=
  dif_pos hb

variable (d : Division)

def next (h : d.remainder ≠ 0) : Division :=
  ⟨d.divisor, d.remainder, d.divisor % d.remainder, Nat.pos_of_ne_zero h, rfl⟩

theorem remainder_lt : d.remainder < d.divisor := by
  rw [d.remainder_eq]
  exact Nat.mod_lt _ d.divisor_pos

theorem two_mul_remainder_lt (h : d.divisor ≤ d.dividend) : 2 * d.remainder < d.dividend := by
  have hrest : d.remainder ≤ d.dividend - d.divisor := by
    rw [d.remainder_eq, Nat.mod_eq_sub_mod h]
    exact Nat.mod_le _ _
  have hlt := d.remainder_lt
  omega

/-- Two divisions on, less than half of the remainder is left. -/
theorem two_mul_remainder_next_lt (h : d.remainder ≠ 0) (h' : (d.next h).remainder ≠ 0) :
    2 * ((d.next h).next h').remainder < d.remainder :=
  two_mul_remainder_lt _ (Nat.le_of_lt (d.next h).remainder_lt)

/-- The common divisors of what is divided and of what it is divided by stay the same. -/
theorem gcd_next (h : d.remainder ≠ 0) :
    Nat.gcd (d.next h).dividend (d.next h).divisor = Nat.gcd d.dividend d.divisor := by
  show Nat.gcd d.divisor d.remainder = Nat.gcd d.dividend d.divisor
  rw [d.remainder_eq, Nat.gcd_comm, ← Nat.gcd_rec, Nat.gcd_comm]

theorem gcd_of_even (h : d.remainder = 0) : Nat.gcd d.dividend d.divisor = d.divisor :=
  Nat.gcd_eq_right (Nat.dvd_of_mod_eq_zero (d.remainder_eq.symm.trans h))

theorem finish_of_even (h : d.remainder = 0) (rounds : Nat) :
    finish rounds d = .ok (Nat.gcd d.dividend d.divisor) := by
  rw [d.gcd_of_even h]
  cases rounds with
  | zero => exact if_pos h
  | succ rounds => exact if_pos h

theorem finish_succ (h : d.remainder ≠ 0) (rounds : Nat) :
    finish (rounds + 1) d = finish rounds (d.next h) := by
  rw [finish, if_neg h, divide_eq (Nat.pos_of_ne_zero h)]
  rfl

/-- The chain ends after at most two more divisions for each binary digit of the remainder. -/
theorem finish_eq {bits rounds : Nat} (hbits : d.remainder < 2 ^ bits)
    (hrounds : 2 * bits ≤ rounds) : finish rounds d = .ok (Nat.gcd d.dividend d.divisor) := by
  -- Each step of the induction makes two divisions, as one alone need not halve the remainder.
  induction bits generalizing d rounds with
  | zero => exact d.finish_of_even (Nat.lt_one_iff.mp hbits) rounds
  | succ bits ih =>
    obtain ⟨rounds, rfl⟩ : ∃ fewer, rounds = fewer + 1 + 1 := ⟨rounds - 2, by omega⟩
    by_cases h : d.remainder = 0
    · exact d.finish_of_even h _
    rw [d.finish_succ h, ← d.gcd_next h]
    by_cases h' : (d.next h).remainder = 0
    · exact (d.next h).finish_of_even h' _
    have hhalf := d.two_mul_remainder_next_lt h h'
    rw [(d.next h).finish_succ h', ← (d.next h).gcd_next h']
    exact ih _ (by rw [Nat.pow_succ] at hbits; omega) (by omega)

theorem chain_eq {a b bits rounds : Nat} (hb : 0 < b) (hbits : b ≤ 2 ^ bits)
    (hrounds : 2 * bits ≤ rounds) : chain rounds a b = .ok (Nat.gcd a b) := by
  rw [chain, divide_eq hb]
  exact finish_eq _ (Nat.lt_of_lt_of_le (Nat.mod_lt a hb) hbits) hrounds

theorem euclid?_eq :
    euclid? d.dividend d.divisor =
      if d.remainder = 0 then some d.divisor else euclid? d.divisor d.remainder := by
  obtain ⟨a, b, _, hb, rfl⟩ := d
  cases b with
  | zero => cases hb
  | succ n => rw [euclid?]

theorem euclid?_eq_gcd : euclid? d.dividend d.divisor = some (Nat.gcd d.dividend d.divisor) := by
  induction hdivisor : d.divisor using Nat.strong_induction_on generalizing d with
  | h b ih =>
    subst hdivisor
    rw [d.euclid?_eq]
    by_cases h : d.remainder = 0
    · rw [if_pos h, d.gcd_of_even h]
    · rw [if_neg h, ← d.gcd_next h]
      exact ih d.remainder d.remainder_lt (d.next h) rfl

end Division

theorem euclid?_eq_gcd (a b : Nat) (hb : 0 < b) : euclid? a b = some (Nat.gcd a b) :=
  Division.euclid?_eq_gcd ⟨a, b, a % b, hb, rfl⟩

/-- Whatever is divided by a number other than zero, Euclid's algorithm finds the greatest common
divisor, and the same one when two such numbers change places. Carried out division by division it
never divides by zero, and after the first division it makes at most two for each binary digit. -/
theorem euclid?_greatest (a b : Nat) (hb : 0 < b) :
    ∃ g, euclid? a b = some g ∧ (0 < a → euclid? b a = some g) ∧
      (∀ bits rounds, b ≤ 2 ^ bits → 2 * bits ≤ rounds → Division.chain rounds a b = .ok g) ∧
      0 < g ∧ g ∣ a ∧ g ∣ b ∧ ∀ k, k ∣ a → k ∣ b → k ∣ g := by
  refine ⟨Nat.gcd a b, euclid?_eq_gcd a b hb, ?_, ?_, Nat.gcd_pos_of_pos_right a hb,
    Nat.gcd_dvd_left a b, Nat.gcd_dvd_right a b, ?_⟩
  · intro ha
    rw [euclid?_eq_gcd b a ha, Nat.gcd_comm]
  · intro bits rounds hbits hrounds
    exact Division.chain_eq hb hbits hrounds
  · intro k ha hb
    exact Nat.dvd_gcd ha hb

/-- A small number is divided by one of 64 bits, and the other way round. -/
theorem euclid?_greatest_words :
    euclid? 18 (2 ^ 64 - 4) = some 6 ∧ euclid? (2 ^ 64 - 4) 18 = some 6 ∧
      Division.chain 128 18 (2 ^ 64 - 4) = .ok 6 := by
  obtain ⟨g, hg, hswapped, hchain, _⟩ := euclid?_greatest 18 (2 ^ 64 - 4) (by decide)
  have hword : Division.chain 128 18 (2 ^ 64 - 4) = .ok g := hchain 64 128 (by decide) (by decide)
  have hsix : Division.chain 128 18 (2 ^ 64 - 4) = .ok 6 := rfl
  obtain rfl : g = 6 := Except.ok.inj (hword.symm.trans hsix)
  exact ⟨hg, hswapped (by decide), hword⟩

end OptionScan
