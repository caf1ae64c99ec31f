import OptionScan.Proofs.Slots

/-!
What the swaps of an exchange do to a vector. Walking a cycle carries the element of each place one
step on, with the anchor holding the one that is under way; so after all cycles every place of the
range holds what its predecessor held, and the two blocks have changed places.
-/

namespace OptionScan.BlockExchange

open Slots

variable {α : Type}

theorem getElem?_swapIfInBounds (xs : Array α) (i j p : Nat) (hi : i < xs.size)
    (hj : j < xs.size) :
    (xs.swapIfInBounds i j)[p]? = if p = i then xs[j]? else if p = j then xs[i]? else xs[p]? := by
  rw [Array.swapIfInBounds_def, dif_pos hi, dif_pos hj, Array.getElem?_swap]
  by_cases hpi : p = i
  · subst p
    by_cases hji : j = i <;> simp [hji, hi, hj]
  · by_cases hpj : p = j
    · subst p
      simp [hpi, hi]
    · simp [hpi, hpj, Ne.symm hpi, Ne.symm hpj]

def walkSlots (anchor : Nat) (slots : List Nat) (xs : Array α) : Array α :=
  slots.foldl (fun ys slot => ys.swapIfInBounds slot anchor) xs

@[simp] theorem size_walkSlots (anchor : Nat) (slots : List Nat) (xs : Array α) :
    (walkSlots anchor slots xs).size = xs.size := by
  unfold walkSlots
  induction slots generalizing xs with
  | nil => rfl
  | cons slot rest ih => rw [List.foldl_cons, ih, Array.size_swapIfInBounds]

theorem walkSlots_concat (anchor slot : Nat) (slots : List Nat) (xs : Array α) :
    walkSlots anchor (slots ++ [slot]) xs =
      (walkSlots anchor slots xs).swapIfInBounds slot anchor := by
  simp only [walkSlots, List.foldl_append, List.foldl_cons, List.foldl_nil]

def previousSlot (start left right slot : Nat) : Nat :=
  start + (slot - start + left) % (left + right)

section Walk

variable {start left right i : Nat}

theorem previousSlot_slotAt (steps : Nat) :
    previousSlot start left right (slotAt start left right i (steps + 1)) =
      slotAt start left right i steps := by
  have hround : left + i + (steps + 1) * right + left =
      left + i + steps * right + (left + right) := by
    rw [Nat.succ_mul]
    omega
  unfold previousSlot slotAt
  rw [Nat.add_sub_cancel_left, Nat.mod_add_mod, hround, Nat.add_mod_right]

def firstSlots (start left right i steps : Nat) : List Nat :=
  (List.range steps).map fun k => slotAt start left right i (k + 1)

theorem firstSlots_succ (steps : Nat) :
    firstSlots start left right i (steps + 1) =
      firstSlots start left right i steps ++ [slotAt start left right i (steps + 1)] := by
  simp [firstSlots, List.range_succ]

theorem mem_firstSlots {steps slot : Nat} :
    slot ∈ firstSlots start left right i steps ↔
      ∃ k < steps, slotAt start left right i (k + 1) = slot := by
  simp [firstSlots]

theorem slotAt_ne_anchor (hleft : 0 < left) (hi : i < right) {steps : Nat} (hpos : 0 < steps)
    (hsteps : steps < (left + right) / Nat.gcd left right) :
    slotAt start left right i steps ≠ start + left + i := by
  intro h
  rw [← slotAt_zero hi] at h
  have hmod := modEq_of_slotAt_eq hleft h
  have hzero := Nat.ModEq.eq_of_lt_of_lt hmod hsteps (by omega)
  omega

theorem slotAt_notMem_firstSlots (hleft : 0 < left) {steps : Nat}
    (hsteps : steps < (left + right) / Nat.gcd left right) :
    slotAt start left right i (steps + 1) ∉ firstSlots start left right i steps := by
  intro h
  obtain ⟨k, hk, heq⟩ := mem_firstSlots.mp h
  have hmod : k ≡ steps [MOD (left + right) / Nat.gcd left right] :=
    Nat.ModEq.add_right_cancel' 1 (modEq_of_slotAt_eq hleft heq)
  have := Nat.ModEq.eq_of_lt_of_lt hmod (by omega) hsteps
  omega

/-- The walk of a cycle up to a place before its anchor: the anchor holds the element of the place
reached, the places passed hold those of their predecessors. -/
theorem getElem?_walk_firstSlots (xs : Array α) (hsize : start + left + right ≤ xs.size)
    (hleft : 0 < left) (hi : i < right) (steps : Nat)
    (hsteps : steps < (left + right) / Nat.gcd left right) (p : Nat) :
    (walkSlots (start + left + i) (firstSlots start left right i steps) xs)[p]? =
      if p = start + left + i then xs[slotAt start left right i steps]?
      else if p ∈ firstSlots start left right i steps then xs[previousSlot start left right p]?
      else xs[p]? := by
  induction steps generalizing p with
  | zero =>
    rw [slotAt_zero hi]
    by_cases hp : p = start + left + i <;> simp [hp, firstSlots, walkSlots]
  | succ k ih =>
    have hbound : slotAt start left right i (k + 1) < start + (left + right) := slotAt_lt hleft _
    have hanchor : slotAt start left right i (k + 1) ≠ start + left + i :=
      slotAt_ne_anchor hleft hi k.succ_pos hsteps
    have hfresh : slotAt start left right i (k + 1) ∉ firstSlots start left right i k :=
      slotAt_notMem_firstSlots hleft (by omega)
    rw [firstSlots_succ, walkSlots_concat,
      getElem?_swapIfInBounds _ _ _ _ (by rw [size_walkSlots]; omega)
        (by rw [size_walkSlots]; omega)]
    simp only [ih (by omega), List.mem_append, List.mem_singleton]
    by_cases hslot : p = slotAt start left right i (k + 1)
    · subst p
      simp [hanchor, previousSlot_slotAt]
    · by_cases hp : p = start + left + i
      · rw [if_neg hslot, if_pos hp, if_neg hanchor, if_neg hfresh, if_pos hp]
      · simp [hslot, hp]

/-- A cycle comes to its anchor last. -/
theorem ofCycle_eq_concat (hi : i < right) {steps : Nat}
    (hsteps : (left + right) / Nat.gcd left right = steps + 1) :
    ofCycle start left right i = firstSlots start left right i steps ++ [start + left + i] := by
  have hlast : slotAt start left right i (steps + 1) = start + left + i := by
    rw [← hsteps, slotAt_length hi]
  rw [← hlast, ← firstSlots_succ, ← hsteps]
  rfl

/-- The walk of a whole cycle moves each of its elements one step on. -/
theorem getElem?_walk_ofCycle (xs : Array α) (hsize : start + left + right ≤ xs.size)
    (hleft : 0 < left) (hi : i < right) (p : Nat) :
    (walkSlots (start + left + i) (ofCycle start left right i) xs)[p]? =
      if p ∈ ofCycle start left right i then xs[previousSlot start left right p]?
      else xs[p]? := by
  have hcycle : 0 < (left + right) / Nat.gcd left right := length_pos hleft
  obtain ⟨k, hk⟩ : ∃ k, (left + right) / Nat.gcd left right = k + 1 :=
    ⟨(left + right) / Nat.gcd left right - 1, by omega⟩
  have hlast : slotAt start left right i (k + 1) = start + left + i := by
    rw [← hk, slotAt_length hi]
  have hslots : ofCycle start left right i =
      firstSlots start left right i k ++ [start + left + i] := ofCycle_eq_concat hi hk
  have hprevious : previousSlot start left right (start + left + i) =
      slotAt start left right i k := by
    rw [← hlast, previousSlot_slotAt]
  -- The last swap is that of the anchor with itself.
  have hself : (walkSlots (start + left + i) (ofCycle start left right i) xs)[p]? =
      (walkSlots (start + left + i) (firstSlots start left right i k) xs)[p]? := by
    rw [hslots, walkSlots_concat,
      getElem?_swapIfInBounds _ _ _ _ (by rw [size_walkSlots]; omega)
        (by rw [size_walkSlots]; omega)]
    by_cases hp : p = start + left + i <;> simp [hp]
  rw [hself, getElem?_walk_firstSlots xs hsize hleft hi k (by omega), hslots]
  by_cases hp : p = start + left + i
  · simp [hp, hprevious]
  · simp [hp]

end Walk

section Cycles

variable {start left right : Nat}

def walkCycles (start left right count : Nat) (xs : Array α) : Array α :=
  (List.range count).foldl
    (fun ys i => walkSlots (start + left + i) (ofCycle start left right i) ys) xs

theorem walkCycles_succ (count : Nat) (xs : Array α) :
    walkCycles start left right (count + 1) xs =
      walkSlots (start + left + count) (ofCycle start left right count)
        (walkCycles start left right count xs) := by
  simp only [walkCycles, List.range_succ, List.foldl_append, List.foldl_cons, List.foldl_nil]

@[simp] theorem size_walkCycles (count : Nat) (xs : Array α) :
    (walkCycles start left right count xs).size = xs.size := by
  induction count with
  | zero => rfl
  | succ n ih => rw [walkCycles_succ, size_walkSlots, ih]

theorem mem_ofCycles_succ {count slot : Nat} :
    slot ∈ ofCycles start left right (count + 1) ↔
      slot ∈ ofCycles start left right count ∨ slot ∈ ofCycle start left right count := by
  simp [ofCycles, List.range_succ]

theorem mod_lt_of_mem_ofCycles {count slot : Nat} (hcount : count ≤ Nat.gcd left right)
    (h : slot ∈ ofCycles start left right count) :
    (slot - start) % Nat.gcd left right < count := by
  obtain ⟨i, hi, hslot⟩ := List.mem_flatMap.mp h
  have hlt := List.mem_range.mp hi
  rw [mod_of_mem_ofCycle (by omega) hslot]
  exact hlt

theorem getElem?_walkCycles (xs : Array α) (hsize : start + left + right ≤ xs.size)
    (hleft : 0 < left) (hright : 0 < right) (count : Nat) (hcount : count ≤ Nat.gcd left right)
    (p : Nat) :
    (walkCycles start left right count xs)[p]? =
      if p ∈ ofCycles start left right count then xs[previousSlot start left right p]?
      else xs[p]? := by
  induction count generalizing p with
  | zero => simp [walkCycles, ofCycles]
  | succ n ih =>
    have hn : n < right := Nat.lt_of_lt_of_le hcount (Nat.gcd_le_right left hright)
    rw [walkCycles_succ,
      getElem?_walk_ofCycle _ (by rw [size_walkCycles]; exact hsize) hleft hn]
    simp only [ih (by omega), mem_ofCycles_succ]
    by_cases hp : p ∈ ofCycle start left right n
    · -- The predecessor is on the same cycle, which no walk has touched before.
      have hfresh : previousSlot start left right p ∉ ofCycles start left right n := by
        intro h
        obtain ⟨k, _, rfl⟩ := mem_ofCycle.mp hp
        rw [previousSlot_slotAt] at h
        have := mod_lt_of_mem_ofCycles (by omega) h
        rw [slotAt_mod hcount] at this
        omega
      simp [hp, hfresh]
    · simp [hp]

theorem foldl_swaps (xs : Array α) (hleft : 0 < left) (hright : 0 < right) :
    (swaps start (start + left) (start + left + right)).foldl
        (fun slots (slot, anchor) => slots.swapIfInBounds slot anchor) xs =
      walkCycles start left right (Nat.gcd left right) xs := by
  rw [swaps_eq hleft hright, List.foldl_flatMap]
  simp only [List.foldl_map]
  rfl

/-- After all cycles, each place of the range holds the element of its predecessor. -/
theorem getElem?_foldl_swaps (xs : Array α) (hsize : start + left + right ≤ xs.size)
    (hleft : 0 < left) (hright : 0 < right) (p : Nat) :
    ((swaps start (start + left) (start + left + right)).foldl
        (fun slots (slot, anchor) => slots.swapIfInBounds slot anchor) xs)[p]? =
      if start ≤ p ∧ p < start + (left + right) then xs[previousSlot start left right p]?
      else xs[p]? := by
  rw [foldl_swaps xs hleft hright,
    getElem?_walkCycles xs hsize hleft hright _ (Nat.le_refl _)]
  have hmem : p ∈ ofCycles start left right (Nat.gcd left right) ↔
      start ≤ p ∧ p < start + (left + right) :=
    (perm_ofCycles hleft).mem_iff.trans List.mem_range'_1
  simp only [hmem]

end Cycles

/-- Two neighbouring blocks change places; the rest of the vector stays as it is. -/
theorem exchange_append (front left right rest : List α) :
    exchange front.length (front.length + left.length)
        (front.length + left.length + right.length) (front ++ left ++ right ++ rest) =
      .ok (front ++ right ++ left ++ rest) := by
  unfold exchange
  rw [if_pos ⟨by omega, by omega, by simp [Nat.add_assoc]⟩]
  apply congrArg Except.ok
  by_cases hempty : left.length = 0 ∨ right.length = 0
  · have hnone : swaps front.length (front.length + left.length)
        (front.length + left.length + right.length) = [] := by
      simp only [swaps, Nat.add_sub_cancel_left, ofBlocks_of_empty _ _ hempty]
      rfl
    simp only [hnone, List.foldl_nil]
    rcases hempty with hnil | hnil
    · simp [List.length_eq_zero_iff.mp hnil]
    · simp [List.length_eq_zero_iff.mp hnil]
  · have hleft : 0 < left.length := by omega
    have hright : 0 < right.length := by omega
    apply List.ext_getElem?
    intro p
    rw [Array.getElem?_toList,
      getElem?_foldl_swaps _ (by simp [Nat.add_assoc]) hleft hright]
    simp only [List.getElem?_toArray, previousSlot, List.append_assoc]
    have hskip (more : List α) (x : Nat) : (front ++ more)[front.length + x]? = more[x]? := by
      rw [List.getElem?_append_right (Nat.le_add_right ..), Nat.add_sub_cancel_left]
    by_cases hrange : front.length ≤ p ∧ p < front.length + (left.length + right.length)
    · obtain ⟨x, rfl⟩ : ∃ x, p = front.length + x := ⟨p - front.length, by omega⟩
      rw [if_pos hrange, Nat.add_sub_cancel_left, hskip, hskip]
      by_cases hx : x < right.length
      · rw [Nat.mod_eq_of_lt (by omega), List.getElem?_append_right (by omega),
          List.getElem?_append_left (by omega), List.getElem?_append_left (by omega)]
        congr 1
        omega
      · rw [Nat.mod_eq_sub_mod (by omega), Nat.mod_eq_of_lt (by omega),
          List.getElem?_append_left (by omega), List.getElem?_append_right (by omega),
          List.getElem?_append_left (by omega)]
        congr 1
        omega
    · rw [if_neg hrange]
      rcases Nat.lt_or_ge p front.length with hp | hp
      · rw [List.getElem?_append_left hp, List.getElem?_append_left hp]
      · rw [List.getElem?_append_right hp, List.getElem?_append_right hp,
          List.getElem?_append_right (by omega), List.getElem?_append_right (by omega),
          List.getElem?_append_right (by omega), List.getElem?_append_right (by omega)]
        congr 1
        omega

end OptionScan.BlockExchange
