import Mathlib.Algebra.BigOperators.Group.List.Basic
import Mathlib.Data.List.Nodup
import Mathlib.Data.List.Perm.Subperm
import Mathlib.Data.Nat.ModEq
import OptionScan.Proofs.Euclid

/-!
The cycles of a block exchange. Counted from the start of the range, one step along a cycle adds
the length of the right block modulo the length of the range. So the places of one cycle agree
modulo the greatest common divisor of the two lengths, and the cycles together visit every place
of the range exactly once.
-/

namespace OptionScan.Slots

theorem ofBlocks_of_pos (left right : Nat) (hleft : 0 < left) (hright : 0 < right) :
    Cycles.ofBlocks left right =
      ⟨Nat.gcd left right, (left + right) / Nat.gcd left right⟩ := by
  unfold Cycles.ofBlocks
  rw [euclid?_eq_gcd left right hright]
  split
  · omega
  · simp_all
  · simp_all

theorem ofBlocks_of_empty (left right : Nat) (h : left = 0 ∨ right = 0) :
    Cycles.ofBlocks left right = ⟨0, 0⟩ := by
  rcases h with rfl | rfl
  · simp [Cycles.ofBlocks]
  · cases left <;> simp [Cycles.ofBlocks, euclid?]

/-- One step along a cycle adds the length of the right block, modulo the length of the range. -/
theorem nextSlot_add (start left right x : Nat) (hx : x < left + right) :
    nextSlot (start + left) left right (start + x) = start + (x + right) % (left + right) := by
  unfold nextSlot
  by_cases hback : left ≤ x
  · rw [if_pos (by omega), Nat.mod_eq_sub_mod (by omega), Nat.mod_eq_of_lt (by omega)]
    omega
  · rw [if_neg (by omega), Nat.mod_eq_of_lt (by omega)]
    omega

/-- The place of cycle `i` after `steps` steps from its anchor. -/
def slotAt (start left right i steps : Nat) : Nat :=
  start + (left + i + steps * right) % (left + right)

section Cycle

variable {start left right i : Nat}

theorem slotAt_lt (hleft : 0 < left) (steps : Nat) :
    slotAt start left right i steps < start + (left + right) := by
  have := Nat.mod_lt (left + i + steps * right) (show left + right > 0 by omega)
  simp only [slotAt]
  omega

theorem start_le_slotAt (steps : Nat) : start ≤ slotAt start left right i steps :=
  Nat.le_add_right ..

theorem slotAt_zero (hi : i < right) : slotAt start left right i 0 = start + left + i := by
  simp only [slotAt, Nat.zero_mul, Nat.add_zero]
  rw [Nat.mod_eq_of_lt (by omega)]
  omega

theorem nextSlot_slotAt (hleft : 0 < left) (steps : Nat) :
    nextSlot (start + left) left right (slotAt start left right i steps) =
      slotAt start left right i (steps + 1) := by
  have hstep : left + i + (steps + 1) * right = left + i + steps * right + right := by
    rw [Nat.succ_mul, ← Nat.add_assoc]
  have hlt := Nat.mod_lt (left + i + steps * right) (show left + right > 0 by omega)
  unfold slotAt
  rw [hstep, ← Nat.mod_add_mod (left + i + steps * right)]
  exact nextSlot_add start left right _ hlt

theorem cycleSlots_slotAt (hleft : 0 < left) (length steps : Nat) :
    cycleSlots (start + left) left right length (slotAt start left right i steps) =
      (List.range length).map fun k => slotAt start left right i (steps + k + 1) := by
  induction length generalizing steps with
  | zero => rfl
  | succ n ih =>
    rw [cycleSlots, nextSlot_slotAt hleft, ih, List.range_succ_eq_map, List.map_cons,
      List.map_map]
    congr 1
    apply List.map_congr_left
    intro k _
    simp only [Function.comp_apply, Nat.succ_eq_add_one]
    congr 1
    omega

/-- A cycle returns to its anchor after as many steps as it has places. -/
theorem slotAt_length (hi : i < right) :
    slotAt start left right i ((left + right) / Nat.gcd left right) = start + left + i := by
  have hdvd : Nat.gcd left right ∣ left + right :=
    Nat.dvd_add (Nat.gcd_dvd_left ..) (Nat.gcd_dvd_right ..)
  have hround : (left + right) / Nat.gcd left right * right =
      (left + right) * (right / Nat.gcd left right) := by
    rw [Nat.div_mul_right_comm hdvd, Nat.mul_div_assoc _ (Nat.gcd_dvd_right ..)]
  rw [← slotAt_zero hi]
  simp only [slotAt, hround, Nat.add_mul_mod_self_left, Nat.zero_mul, Nat.add_zero]

theorem length_pos (hleft : 0 < left) : 0 < (left + right) / Nat.gcd left right :=
  Nat.div_pos (Nat.le_trans (Nat.gcd_le_left right hleft) (Nat.le_add_right ..))
    (Nat.gcd_pos_of_pos_left right hleft)

/-- A cycle meets a place again only after a whole number of rounds. -/
theorem modEq_of_slotAt_eq (hleft : 0 < left) {s t : Nat}
    (h : slotAt start left right i s = slotAt start left right i t) :
    s ≡ t [MOD (left + right) / Nat.gcd left right] := by
  have hmod : left + i + s * right ≡ left + i + t * right [MOD left + right] :=
    Nat.add_left_cancel h
  have hmul : s * right ≡ t * right [MOD left + right] := Nat.ModEq.add_left_cancel' _ hmod
  have hcancel := Nat.ModEq.cancel_right_div_gcd (show 0 < left + right by omega) hmul
  rwa [Nat.gcd_add_self_left] at hcancel

/-- The cycle of a place is its distance from the start modulo the number of cycles. -/
theorem slotAt_mod (hi : i < Nat.gcd left right) (steps : Nat) :
    (slotAt start left right i steps - start) % Nat.gcd left right = i := by
  have hl : Nat.gcd left right ∣ left := Nat.gcd_dvd_left ..
  have hr : Nat.gcd left right ∣ right := Nat.gcd_dvd_right ..
  simp only [slotAt, Nat.add_sub_cancel_left]
  rw [Nat.mod_mod_of_dvd _ (Nat.dvd_add hl hr), Nat.add_mod,
    Nat.mod_eq_zero_of_dvd (Nat.dvd_mul_left_of_dvd hr steps), Nat.add_zero, Nat.mod_mod,
    Nat.add_mod, Nat.mod_eq_zero_of_dvd hl, Nat.zero_add, Nat.mod_mod, Nat.mod_eq_of_lt hi]

end Cycle

def ofCycle (start left right i : Nat) : List Nat :=
  (List.range ((left + right) / Nat.gcd left right)).map fun k =>
    slotAt start left right i (k + 1)

def ofCycles (start left right count : Nat) : List Nat :=
  (List.range count).flatMap (ofCycle start left right)

section Cover

variable {start left right : Nat}

theorem cycleSlots_anchor {i : Nat} (hleft : 0 < left) (hi : i < right) :
    cycleSlots (start + left) left right ((left + right) / Nat.gcd left right)
      (start + left + i) = ofCycle start left right i := by
  rw [← slotAt_zero hi, cycleSlots_slotAt hleft]
  simp only [ofCycle, Nat.zero_add]

theorem swaps_eq (hleft : 0 < left) (hright : 0 < right) :
    swaps start (start + left) (start + left + right) =
      (List.range (Nat.gcd left right)).flatMap fun i =>
        (ofCycle start left right i).map fun slot => (slot, start + left + i) := by
  have hl : start + left - start = left := by omega
  have hr : start + left + right - (start + left) = right := by omega
  simp only [swaps, hl, hr, ofBlocks_of_pos left right hleft hright]
  apply List.flatMap_congr
  intro i hi
  have hright' : i < right :=
    Nat.lt_of_lt_of_le (List.mem_range.mp hi) (Nat.gcd_le_right left hright)
  rw [cycleSlots_anchor hleft hright']

theorem mem_ofCycle {i slot : Nat} :
    slot ∈ ofCycle start left right i ↔
      ∃ k < (left + right) / Nat.gcd left right, slotAt start left right i (k + 1) = slot := by
  simp [ofCycle]

theorem mod_of_mem_ofCycle {i slot : Nat} (hi : i < Nat.gcd left right)
    (h : slot ∈ ofCycle start left right i) : (slot - start) % Nat.gcd left right = i := by
  obtain ⟨k, _, rfl⟩ := mem_ofCycle.mp h
  exact slotAt_mod hi (k + 1)

theorem nodup_ofCycle (hleft : 0 < left) (i : Nat) :
    (ofCycle start left right i).Nodup := by
  apply List.Nodup.map_on _ List.nodup_range
  intro s hs t ht h
  have hmod : s ≡ t [MOD (left + right) / Nat.gcd left right] :=
    Nat.ModEq.add_right_cancel' 1 (modEq_of_slotAt_eq hleft h)
  exact Nat.ModEq.eq_of_lt_of_lt hmod (List.mem_range.mp hs) (List.mem_range.mp ht)

theorem disjoint_ofCycle {i j : Nat} (hi : i < Nat.gcd left right) (hj : j < Nat.gcd left right)
    (hne : i ≠ j) : (ofCycle start left right i).Disjoint (ofCycle start left right j) := by
  intro slot hslot hslot'
  have hmod := mod_of_mem_ofCycle hi hslot
  have hmod' := mod_of_mem_ofCycle hj hslot'
  exact hne (hmod.symm.trans hmod')

/-- The cycles visit no place twice, neither one of them alone nor two of them together. -/
theorem nodup_ofCycles (hleft : 0 < left) :
    (ofCycles start left right (Nat.gcd left right)).Nodup := by
  refine List.nodup_flatMap.mpr ⟨?_, ?_⟩
  · intro i _
    exact nodup_ofCycle hleft i
  · refine List.Nodup.pairwise_of_forall_ne List.nodup_range ?_
    intro i hi j hj hne
    exact disjoint_ofCycle (List.mem_range.mp hi) (List.mem_range.mp hj) hne

theorem length_ofCycles : (ofCycles start left right (Nat.gcd left right)).length = left + right := by
  have hdvd : Nat.gcd left right ∣ left + right :=
    Nat.dvd_add (Nat.gcd_dvd_left ..) (Nat.gcd_dvd_right ..)
  simp only [ofCycles, List.length_flatMap, ofCycle, List.length_map, List.length_range,
    List.map_const', List.sum_replicate_nat]
  exact Nat.mul_div_cancel' hdvd

/-- The cycles together visit the places of the range, each of them once. -/
theorem perm_ofCycles (hleft : 0 < left) :
    (ofCycles start left right (Nat.gcd left right)).Perm (List.range' start (left + right)) := by
  have hsub : ofCycles start left right (Nat.gcd left right) ⊆
      List.range' start (left + right) := by
    intro slot hslot
    obtain ⟨i, _, hi⟩ := List.mem_flatMap.mp hslot
    obtain ⟨k, _, rfl⟩ := mem_ofCycle.mp hi
    exact List.mem_range'_1.mpr ⟨start_le_slotAt _, slotAt_lt hleft _⟩
  apply (List.subperm_of_subset (nodup_ofCycles hleft) hsub).perm_of_length_le
  rw [length_ofCycles, List.length_range']

/-- No swap of an exchange leaves the range. -/
theorem swaps_lt {start mid stop : Nat} (hmid : start ≤ mid) (hstop : mid ≤ stop) :
    ∀ swap ∈ swaps start mid stop, swap.1 < stop ∧ swap.2 < stop := by
  intro swap hswap
  obtain ⟨left, rfl⟩ := Nat.exists_eq_add_of_le hmid
  obtain ⟨right, rfl⟩ := Nat.exists_eq_add_of_le hstop
  by_cases hempty : left = 0 ∨ right = 0
  · have hnone : Cycles.ofBlocks left right = ⟨0, 0⟩ := ofBlocks_of_empty left right hempty
    simp [swaps, hnone] at hswap
  · have hleft : 0 < left := by omega
    have hright : 0 < right := by omega
    rw [swaps_eq hleft hright] at hswap
    obtain ⟨i, hi, hcycle⟩ := List.mem_flatMap.mp hswap
    obtain ⟨slot, hslot, rfl⟩ := List.mem_map.mp hcycle
    obtain ⟨k, _, rfl⟩ := mem_ofCycle.mp hslot
    have hlt : slotAt start left right i (k + 1) < start + (left + right) :=
      slotAt_lt hleft (k + 1)
    have hgcd := Nat.lt_of_lt_of_le (List.mem_range.mp hi) (Nat.gcd_le_right left hright)
    constructor
    · exact Nat.lt_of_lt_of_eq hlt (Nat.add_assoc ..).symm
    · exact Nat.add_lt_add_left (Nat.lt_of_lt_of_le hgcd (Nat.le_refl _)) _

end Cover

end OptionScan.Slots
