import Mathlib.Data.List.Chain
import OptionScan.Proofs.Exchanges

/-!
The swaps of an exchange cover its range. They are made on as many walks as the greatest common
divisor of the two block lengths says. Each walk goes once around a cycle, by steps that a machine
word can take, from its anchor back to it, and no two walks meet; so every place of the range is
swapped with an anchor exactly once.
-/

namespace OptionScan

namespace Slots

/-- One round along a cycle: from the anchor step by step back to it, with no place met twice. No
step falls below zero or outgrows a machine word. -/
structure Round (bound mid left right anchor : Nat) (slots : List Nat) : Prop where
  steps : (anchor :: slots).IsChain fun slot next =>
    Guarded.nextSlot bound mid left right slot = .ok next
  closes : slots.getLast? = some anchor
  nodup : slots.Nodup

/-- Wherever in the range a walk sets out, each of its steps can be taken. -/
theorem isChain_cycleSlots {bound mid left right : Nat} (hleft : left ≤ mid)
    (hbound : mid + right < bound) (length slot : Nat) (hslot : slot < mid + right) :
    (slot :: cycleSlots mid left right length slot).IsChain fun slot next =>
      Guarded.nextSlot bound mid left right slot = .ok next := by
  induction length generalizing slot with
  | zero => exact List.isChain_singleton slot
  | succ length ih =>
    obtain ⟨hstep, hlt⟩ := Guarded.nextSlot_eq hleft hslot hbound
    exact List.isChain_cons_cons.mpr ⟨hstep, ih _ hlt⟩

section Blocks

variable {bound start left right i : Nat}

theorem getLast?_ofCycle (hleft : 0 < left) (hi : i < right) :
    (ofCycle start left right i).getLast? = some (start + left + i) := by
  have hpos : 0 < (left + right) / Nat.gcd left right := length_pos hleft
  obtain ⟨k, hk⟩ := Nat.exists_eq_succ_of_ne_zero (Nat.ne_of_gt hpos)
  rw [BlockExchange.ofCycle_eq_concat hi hk, List.getLast?_concat]

theorem round_ofCycle (hleft : 0 < left) (hi : i < right) (hbound : start + left + right < bound) :
    Round bound (start + left) left right (start + left + i) (ofCycle start left right i) where
  steps := by
    rw [← cycleSlots_anchor hleft hi]
    exact isChain_cycleSlots (Nat.le_add_left left start) hbound _ _ (Nat.add_lt_add_left hi _)
  closes := getLast?_ofCycle hleft hi
  nodup := nodup_ofCycle hleft i

theorem map_fst_swaps (hleft : 0 < left) (hright : 0 < right) :
    (swaps start (start + left) (start + left + right)).map Prod.fst =
      ofCycles start left right (Nat.gcd left right) := by
  simp only [swaps_eq hleft hright, List.map_flatMap, List.map_map, Function.comp_def, List.map_id']
  rfl

theorem perm_map_fst_swaps (hleft : 0 < left) (hright : 0 < right) :
    ((swaps start (start + left) (start + left + right)).map Prod.fst).Perm
      (List.range' start (left + right)) := by
  rw [map_fst_swaps hleft hright]
  exact perm_ofCycles hleft

theorem length_swaps (hleft : 0 < left) (hright : 0 < right) :
    (swaps start (start + left) (start + left + right)).length = left + right := by
  have hperm : ((swaps start (start + left) (start + left + right)).map Prod.fst).Perm
      (List.range' start (left + right)) := perm_map_fst_swaps hleft hright
  rw [← List.length_map Prod.fst, hperm.length_eq, List.length_range']

end Blocks

def walk (start mid stop i : Nat) : List Nat :=
  cycleSlots mid (mid - start) (stop - mid)
    (Cycles.ofBlocks (mid - start) (stop - mid)).length (mid + i)

theorem swaps_eq_walks (start mid stop : Nat) :
    swaps start mid stop =
      (List.range (Cycles.ofBlocks (mid - start) (stop - mid)).count).flatMap fun i =>
        (walk start mid stop i).map fun slot => (slot, mid + i) :=
  rfl

theorem le_anchor {start mid stop : Nat} : ∀ swap ∈ swaps start mid stop, mid ≤ swap.2 := by
  intro swap hswap
  rw [swaps_eq_walks] at hswap
  obtain ⟨i, _, hwalk⟩ := List.mem_flatMap.mp hswap
  obtain ⟨slot, _, rfl⟩ := List.mem_map.mp hwalk
  exact Nat.le_add_right mid i

theorem walk_eq {start left right i : Nat} (hleft : 0 < left) (hi : i < right) :
    walk start (start + left) (start + left + right) i = ofCycle start left right i := by
  have hright : 0 < right := Nat.zero_lt_of_lt hi
  unfold walk
  rw [Nat.add_sub_cancel_left, Nat.add_sub_cancel_left, ofBlocks_of_pos left right hleft hright]
  exact cycleSlots_anchor hleft hi

end Slots

/-- The swaps of an exchange of two blocks that are not empty visit each place of its range once,
and nothing else. They are made on walks of equal length, as many as the greatest common divisor of
the block lengths says, each of them once around a cycle from its own anchor; all of that with
numbers below any bound that the end of the range stays below. -/
theorem swaps_cover {start mid stop bound : Nat} (hleft : start < mid) (hright : mid < stop)
    (hbound : stop < bound) :
    let cycles := Cycles.ofBlocks (mid - start) (stop - mid)
    ((swaps start mid stop).map Prod.fst).Perm (List.range' start (stop - start)) ∧
    (swaps start mid stop).length = stop - start ∧
    (∀ swap ∈ swaps start mid stop,
      (start ≤ swap.1 ∧ swap.1 < stop) ∧ mid ≤ swap.2 ∧ swap.2 < stop) ∧
    swaps start mid stop = (List.range cycles.count).flatMap (fun i =>
      (Slots.walk start mid stop i).map fun slot => (slot, mid + i)) ∧
    cycles.count = Nat.gcd (mid - start) (stop - mid) ∧
    cycles.length = (stop - start) / cycles.count ∧
    (∀ i < cycles.count, Guarded.plus bound mid i = .ok (mid + i) ∧
      (Slots.walk start mid stop i).length = cycles.length ∧
      Slots.Round bound mid (mid - start) (stop - mid) (mid + i) (Slots.walk start mid stop i)) ∧
    ∀ i < cycles.count, ∀ j < cycles.count, i ≠ j →
      (Slots.walk start mid stop i).Disjoint (Slots.walk start mid stop j) := by
  intro cycles
  obtain ⟨left, rfl⟩ := Nat.exists_eq_add_of_le (Nat.le_of_lt hleft)
  obtain ⟨right, rfl⟩ := Nat.exists_eq_add_of_le (Nat.le_of_lt hright)
  -- Counted from the start of the range, with the lengths of the blocks.
  have hpos : 0 < left := by omega
  have hpos' : 0 < right := by omega
  have hl : start + left - start = left := by omega
  have hr : start + left + right - (start + left) = right := by omega
  have hrange : start + left + right - start = left + right := by omega
  have hcycles : cycles = ⟨Nat.gcd left right, (left + right) / Nat.gcd left right⟩ := by
    simp only [cycles, hl, hr, Slots.ofBlocks_of_pos left right hpos hpos']
  have hanchor {i : Nat} (hi : i < cycles.count) : i < right := by
    rw [hcycles] at hi
    exact Nat.lt_of_lt_of_le hi (Nat.gcd_le_right left hpos')
  have hperm : ((swaps start (start + left) (start + left + right)).map Prod.fst).Perm
      (List.range' start (left + right)) := Slots.perm_map_fst_swaps hpos hpos'
  rw [hrange, hl, hr]
  refine ⟨hperm, ?_, ?_, Slots.swaps_eq_walks .., ?_, ?_, ?_, ?_⟩
  · exact Slots.length_swaps hpos hpos'
  · intro swap hswap
    obtain ⟨hfirst, hsecond⟩ :=
      Slots.swaps_lt (Nat.le_of_lt hleft) (Nat.le_of_lt hright) swap hswap
    have hmem := hperm.mem_iff.mp (List.mem_map_of_mem hswap)
    exact ⟨⟨(List.mem_range'_1.mp hmem).1, hfirst⟩, Slots.le_anchor swap hswap, hsecond⟩
  · rw [hcycles]
  · rw [hcycles]
  · intro i hi
    rw [Slots.walk_eq hpos (hanchor hi), hcycles]
    have hword : start + left + i < bound :=
      Nat.lt_trans (Nat.add_lt_add_left (hanchor hi) _) hbound
    refine ⟨Guarded.plus_eq hword, ?_, Slots.round_ofCycle hpos (hanchor hi) hbound⟩
    rw [Slots.ofCycle, List.length_map, List.length_range]
  · intro i hi j hj hne
    rw [Slots.walk_eq hpos (hanchor hi), Slots.walk_eq hpos (hanchor hj)]
    rw [hcycles] at hi hj
    exact Slots.disjoint_ofCycle hi hj hne

/-- Blocks of two and of four elements: two cycles of three places each. -/
theorem swaps_cover_two_cycles :
    ((swaps 1 3 7).map Prod.fst).Perm [1, 2, 3, 4, 5, 6] ∧ (swaps 1 3 7).length = 6 ∧
      Slots.Round (2 ^ 64) 3 2 4 3 [1, 5, 3] ∧ Slots.Round (2 ^ 64) 3 2 4 4 [2, 6, 4] := by
  have hbound : 7 < 2 ^ 64 := by decide
  obtain ⟨hperm, hlength, _, _, _, _, hround, _⟩ :=
    swaps_cover (show 1 < 3 by decide) (show 3 < 7 by decide) hbound
  have hcycles : Cycles.ofBlocks (3 - 1) (7 - 3) = ⟨2, 3⟩ :=
    Slots.ofBlocks_of_pos 2 4 (by decide) (by decide)
  have hwalk (i : Nat) : Slots.walk 1 3 7 i = cycleSlots 3 2 4 3 (3 + i) := by
    rw [Slots.walk, hcycles]
  rw [hcycles] at hround
  obtain ⟨_, _, hfirst⟩ := hround 0 (by decide)
  obtain ⟨_, _, hsecond⟩ := hround 1 (by decide)
  rw [hwalk] at hfirst hsecond
  exact ⟨hperm, hlength, hfirst, hsecond⟩

end OptionScan
