import OptionScan.Fault

/-!
Exchange of two neighbouring blocks of a vector in place. The places from `start` up to `stop`
fall into as many cycles as the greatest common divisor of the two block lengths says. Each
cycle is walked once from its anchor, the first places of the right block being the anchors, and
every place on the way is swapped with the anchor.
-/

namespace OptionScan

/-- Euclid's algorithm: the last divisor before a division comes out even. There is no answer
if it would have to divide by zero. -/
def euclid? (a : Nat) : (b : Nat) → Option Nat
  | 0 => none
  | b + 1 => if a % (b + 1) = 0 then some (b + 1) else euclid? (b + 1) (a % (b + 1))
termination_by b => b
decreasing_by exact Nat.mod_lt a (Nat.succ_pos b)

/-- How the places of two neighbouring blocks fall into cycles. -/
structure Cycles where
  count : Nat
  length : Nat
  deriving DecidableEq, Repr

def Cycles.ofBlocks (left right : Nat) : Cycles :=
  match left, euclid? left right with
  | 0, _ | _, none => ⟨0, 0⟩
  | _, some count => ⟨count, (left + right) / count⟩

/-- The place after `slot` on its cycle: back by the left block, or on by the right block. -/
def nextSlot (mid left right slot : Nat) : Nat :=
  if mid ≤ slot then slot - left else slot + right

def cycleSlots (mid left right : Nat) : (length slot : Nat) → List Nat
  | 0, _ => []
  | n + 1, slot =>
    nextSlot mid left right slot :: cycleSlots mid left right n (nextSlot mid left right slot)

/-- The swaps of the exchange of `start..mid` and `mid..stop`, in order: a place and the anchor of
its cycle. -/
def swaps (start mid stop : Nat) : List (Nat × Nat) :=
  let left := mid - start
  let right := stop - mid
  let cycles := Cycles.ofBlocks left right
  (List.range cycles.count).flatMap fun i =>
    (cycleSlots mid left right cycles.length (mid + i)).map fun slot => (slot, mid + i)

def exchange {α : Type} (start mid stop : Nat) (items : List α) : Except Fault (List α) :=
  if start ≤ mid ∧ mid ≤ stop ∧ stop ≤ items.length then
    let swapped := (swaps start mid stop).foldl
      (fun slots (slot, anchor) => slots.swapIfInBounds slot anchor) items.toArray
    .ok swapped.toList
  else
    .error (.badBounds start mid stop items.length)

end OptionScan
