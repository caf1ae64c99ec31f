import OptionScan.Proofs.Guarded

/-!
The exchange of two neighbouring blocks as its callers see it. It takes a vector apart at three
places and puts the pieces together with the middle ones in the other order, so an exchange can be
undone by another one, and made in two steps. Done in place, swap by swap, with a guard at every
step of the arithmetic and at every swap, it is the same exchange; and where the bounds are bad it
breaks off before the first swap.
-/

namespace OptionScan

namespace Guarded

/-- A program that changes a vector in place. Where it breaks off, what it has done stays done. -/
abbrev InPlace (α : Type) : Type → Type :=
  ExceptT Trap (StateM (Array α))

def minus (a b : Nat) : Except Trap Nat :=
  if b ≤ a then .ok (a - b) else .error (.fault (.belowZero a b))

/-- The sum of two numbers; those below `bound` are the numbers of a machine word. -/
def plus (bound a b : Nat) : Except Trap Nat :=
  if a + b < bound then .ok (a + b) else .error (.overflow (a + b))

def nextSlot (bound mid left right slot : Nat) : Except Trap Nat :=
  if mid ≤ slot then minus slot left else plus bound slot right

section InPlace

variable {α : Type}

def swapAt (slot anchor : Nat) : InPlace α Unit := do
  let items ← get
  if slot < items.size ∧ anchor < items.size then
    set (items.swapIfInBounds slot anchor)
  else
    throw (.fault (.noElement (max slot anchor) items.size))

def walkCycle (bound mid left right anchor : Nat) : (length slot : Nat) → InPlace α Unit
  | 0, _ => pure ()
  | length + 1, slot => do
    let next ← nextSlot bound mid left right slot
    swapAt next anchor
    walkCycle bound mid left right anchor length next

def walkCycles (bound mid left right length : Nat) : (cycles : List Nat) → InPlace α Unit
  | [] => pure ()
  | i :: rest => do
    let anchor ← plus bound mid i
    walkCycle bound mid left right anchor length anchor
    walkCycles bound mid left right length rest

def exchange (bound start mid stop : Nat) : InPlace α Unit := do
  let items ← get
  if start ≤ mid ∧ mid ≤ stop ∧ stop ≤ items.size then
    let left ← minus mid start
    let right ← minus stop mid
    let cycles := Cycles.ofBlocks left right
    walkCycles bound mid left right cycles.length (List.range cycles.count)
  else
    throw (.fault (.badBounds start mid stop items.size))

def InPlace.on {β : Type} (program : InPlace α β) (items : Array α) : Except Trap β × Array α :=
  program.run.run items

theorem on_bind {β γ : Type} {program : InPlace α β} {next : β → InPlace α γ} {items : Array α}
    {b : β} {changed : Array α} (h : program.on items = (.ok b, changed)) :
    (program >>= next).on items = (next b).on changed := by
  have hrun : program items = (.ok b, changed) := h
  show (ExceptT.bind program next) items = _
  simp only [ExceptT.bind, ExceptT.mk, bind, StateT.bind, hrun]
  rfl

/-- A number that passes its guard leaves the vector alone. -/
theorem on_guarded {guarded : Except Trap Nat} {n : Nat} (h : guarded = .ok n)
    (next : Nat → InPlace α Unit) (items : Array α) :
    InPlace.on (liftM guarded >>= next) items = (next n).on items := by
  rw [h]
  rfl

theorem get_on (items : Array α) : InPlace.on get items = (.ok items, items) :=
  rfl

end InPlace

theorem minus_eq {a b : Nat} (h : b ≤ a) : minus a b = .ok (a - b) :=
  if_pos h

theorem plus_eq {bound a b : Nat} (h : a + b < bound) : plus bound a b = .ok (a + b) :=
  if_pos h

section Walk

variable {α : Type} {bound mid left right : Nat}

/-- A step along a cycle neither falls below zero nor outgrows a machine word that holds the end of
the range, and it ends in the range. -/
theorem nextSlot_eq {slot : Nat} (hleft : left ≤ mid) (hslot : slot < mid + right)
    (hbound : mid + right < bound) :
    nextSlot bound mid left right slot = .ok (OptionScan.nextSlot mid left right slot) ∧
      OptionScan.nextSlot mid left right slot < mid + right := by
  unfold nextSlot OptionScan.nextSlot
  by_cases hback : mid ≤ slot
  · rw [if_pos hback, if_pos hback]
    exact ⟨minus_eq (by omega), by omega⟩
  · rw [if_neg hback, if_neg hback]
    exact ⟨plus_eq (by omega), by omega⟩

theorem swapAt_on {slot anchor : Nat} {items : Array α} (hslot : slot < items.size)
    (hanchor : anchor < items.size) :
    (swapAt slot anchor).on items = (.ok (), items.swapIfInBounds slot anchor) := by
  have hguard : slot < items.size ∧ anchor < items.size := ⟨hslot, hanchor⟩
  unfold swapAt
  rw [on_bind (get_on items), if_pos hguard]
  rfl

theorem walkCycle_on {anchor : Nat} (hleft : left ≤ mid) (hanchor : anchor < mid + right)
    (hbound : mid + right < bound) (length slot : Nat) (hslot : slot < mid + right)
    {items : Array α} (hsize : mid + right ≤ items.size) :
    (walkCycle bound mid left right anchor length slot).on items =
      (.ok (), BlockExchange.walkSlots anchor (cycleSlots mid left right length slot) items) := by
  induction length generalizing slot items with
  | zero => rfl
  | succ length ih =>
    obtain ⟨hnext, hlt⟩ := nextSlot_eq hleft hslot hbound
    have hswap := swapAt_on (Nat.lt_of_lt_of_le hlt hsize) (Nat.lt_of_lt_of_le hanchor hsize)
    rw [walkCycle, on_guarded hnext, on_bind hswap,
      ih _ hlt (by rw [Array.size_swapIfInBounds]; exact hsize), cycleSlots]
    rfl

theorem walkCycles_on (hleft : left ≤ mid) (hbound : mid + right < bound) (length : Nat)
    (cycles : List Nat) (hcycles : ∀ i ∈ cycles, i < right) {items : Array α}
    (hsize : mid + right ≤ items.size) :
    (walkCycles bound mid left right length cycles).on items =
      (.ok (), cycles.foldl (fun slots i => BlockExchange.walkSlots (mid + i)
        (cycleSlots mid left right length (mid + i)) slots) items) := by
  induction cycles generalizing items with
  | nil => rfl
  | cons i rest ih =>
    obtain ⟨hi, hrest⟩ := List.forall_mem_cons.mp hcycles
    have hanchor : mid + i < mid + right := by omega
    rw [walkCycles, on_guarded (plus_eq (by omega)),
      on_bind (walkCycle_on hleft hanchor hbound length _ hanchor hsize),
      ih hrest (by rw [BlockExchange.size_walkSlots]; exact hsize), List.foldl_cons]

end Walk

/-- The anchors of the cycles are places of the right block. -/
theorem count_ofBlocks_le (left right : Nat) : (Cycles.ofBlocks left right).count ≤ right := by
  by_cases hempty : left = 0 ∨ right = 0
  · rw [Slots.ofBlocks_of_empty left right hempty]
    exact Nat.zero_le right
  · have hright : 0 < right := by omega
    rw [Slots.ofBlocks_of_pos left right (by omega) hright]
    exact Nat.gcd_le_right left hright

/-- On a vector whose length a machine word holds, the guards of an exchange in place change
nothing; and where the bounds are bad, the vector is left as it was. -/
theorem exchange_on {α : Type} (start mid stop : Nat) (items : List α) {bound : Nat}
    (hbound : items.length < bound) :
    (exchange bound start mid stop).on items.toArray =
      match OptionScan.exchange start mid stop items with
      | .ok moved => (.ok (), moved.toArray)
      | .error fault => (.error (.fault fault), items.toArray) := by
  unfold exchange OptionScan.exchange
  rw [on_bind (get_on items.toArray), List.size_toArray]
  by_cases hvalid : start ≤ mid ∧ mid ≤ stop ∧ stop ≤ items.length
  · obtain ⟨hstart, hmid, hstop⟩ := hvalid
    have hright : mid + (stop - mid) = stop := Nat.add_sub_of_le hmid
    have hcycles : ∀ i ∈ List.range (Cycles.ofBlocks (mid - start) (stop - mid)).count,
        i < stop - mid := by
      intro i hi
      exact Nat.lt_of_lt_of_le (List.mem_range.mp hi) (count_ofBlocks_le _ _)
    rw [if_pos ⟨hstart, hmid, hstop⟩, if_pos ⟨hstart, hmid, hstop⟩, on_guarded (minus_eq hstart),
      on_guarded (minus_eq hmid),
      walkCycles_on (Nat.sub_le mid start) (by omega) _ _ hcycles
        (by rw [List.size_toArray]; omega)]
    simp only [swaps, List.foldl_flatMap, List.foldl_map, Array.toArray_toList]
    rfl
  · rw [if_neg hvalid, if_neg hvalid]
    rfl

end Guarded

namespace BlockExchange

variable {α : Type} {start mid stop : Nat} {items moved : List α}

def exchanged (start mid stop : Nat) (items : List α) : List α :=
  items.take start ++ items.extract mid stop ++ items.extract start mid ++ items.drop stop

structure Blocks (start mid stop : Nat) (items front left right rest : List α) : Prop where
  items_eq : items = front ++ left ++ right ++ rest
  start_eq : start = front.length
  mid_eq : mid = start + left.length
  stop_eq : stop = mid + right.length

theorem blocks_extract (hstart : start ≤ mid) (hmid : mid ≤ stop) (hstop : stop ≤ items.length) :
    Blocks start mid stop items (items.take start) (items.extract start mid)
      (items.extract mid stop) (items.drop stop) where
  items_eq := by
    have hleft : items.take start ++ items.extract start mid = items.take mid := by
      rw [List.extract_eq_take_drop, ← List.take_add, Nat.add_sub_of_le hstart]
    have hright : items.take mid ++ items.extract mid stop = items.take stop := by
      rw [List.extract_eq_take_drop, ← List.take_add, Nat.add_sub_of_le hmid]
    rw [hleft, hright, List.take_append_drop]
  start_eq := by
    rw [List.length_take]
    omega
  mid_eq := by
    simp only [List.extract_eq_take_drop, List.length_take, List.length_drop]
    omega
  stop_eq := by
    simp only [List.extract_eq_take_drop, List.length_take, List.length_drop]
    omega

theorem Blocks.exchange_eq {front left right rest : List α}
    (h : Blocks start mid stop items front left right rest) :
    exchange start mid stop items = .ok (front ++ right ++ left ++ rest) := by
  rw [h.items_eq, h.stop_eq, h.mid_eq, h.start_eq]
  exact exchange_append front left right rest

theorem exchange_of_bounds (hbounds : start ≤ mid ∧ mid ≤ stop ∧ stop ≤ items.length) :
    exchange start mid stop items = .ok (exchanged start mid stop items) :=
  (blocks_extract hbounds.1 hbounds.2.1 hbounds.2.2).exchange_eq

theorem exchange_of_not_bounds (hbounds : ¬ (start ≤ mid ∧ mid ≤ stop ∧ stop ≤ items.length)) :
    exchange start mid stop items = .error (.badBounds start mid stop items.length) :=
  if_neg hbounds

/-- An exchange that is made is one of blocks of the vector. -/
theorem exists_blocks (h : exchange start mid stop items = .ok moved) :
    ∃ front left right rest, Blocks start mid stop items front left right rest ∧
      moved = front ++ right ++ left ++ rest := by
  by_cases hbounds : start ≤ mid ∧ mid ≤ stop ∧ stop ≤ items.length
  · have hblocks := blocks_extract hbounds.1 hbounds.2.1 hbounds.2.2
    exact ⟨_, _, _, _, hblocks, Except.ok.inj (h.symm.trans hblocks.exchange_eq)⟩
  · rw [exchange_of_not_bounds hbounds] at h
    cases h

/-- The blocks go back when they are exchanged again, each with the other one's length. -/
theorem exchange_back (h : exchange start mid stop items = .ok moved) :
    exchange start (start + (stop - mid)) stop moved = .ok items := by
  obtain ⟨front, left, right, rest, hblocks, rfl⟩ := exists_blocks h
  have hmid := hblocks.mid_eq
  have hstop := hblocks.stop_eq
  have hback : Blocks start (start + (stop - mid)) stop (front ++ right ++ left ++ rest)
      front right left rest := ⟨rfl, hblocks.start_eq, by omega, by omega⟩
  rw [hback.exchange_eq, hblocks.items_eq]

/-- A block that is moved behind its neighbour, and then behind what follows there, could have been
moved behind both at once. -/
theorem exchange_further {stop' : Nat} (hmid : mid ≤ stop) (hstop : stop ≤ stop') :
    (exchange start mid stop items >>= exchange (start + (stop - mid)) stop stop').toOption =
      (exchange start mid stop' items).toOption := by
  cases hfirst : exchange start mid stop items with
  | error fault =>
    have hbounds : ¬ (start ≤ mid ∧ mid ≤ stop' ∧ stop' ≤ items.length) := by
      rintro ⟨hstart, _, hlength⟩
      rw [exchange_of_bounds ⟨hstart, hmid, by omega⟩] at hfirst
      cases hfirst
    rw [exchange_of_not_bounds hbounds]
    rfl
  | ok moved =>
    obtain ⟨front, left, right, rest, hblocks, rfl⟩ := exists_blocks hfirst
    have hmid := hblocks.mid_eq
    have hstop := hblocks.stop_eq
    have hstart := hblocks.start_eq
    show (exchange _ _ _ (front ++ right ++ left ++ rest)).toOption = _
    by_cases hlength : stop' - stop ≤ rest.length
    · -- The block goes past `right` in the first step, and past `more` in the second.
      obtain ⟨more, after, rfl, hmore⟩ :
          ∃ more after, rest = more ++ after ∧ more.length = stop' - stop :=
        ⟨_, _, (List.take_append_drop (stop' - stop) rest).symm, List.length_take_of_le hlength⟩
      have hnext : Blocks (start + (stop - mid)) stop stop' (front ++ right ++ left ++ (more ++ after))
          (front ++ right) left more after := by
        refine ⟨by simp, ?_, by omega, by omega⟩
        rw [List.length_append]
        omega
      have honce : Blocks start mid stop' items front left (right ++ more) after := by
        refine ⟨by simp [hblocks.items_eq], hstart, hmid, ?_⟩
        rw [List.length_append]
        omega
      rw [hnext.exchange_eq, honce.exchange_eq]
      simp
    · have hitems : items.length < stop' := by
        rw [hblocks.items_eq]
        simp only [List.length_append]
        omega
      have hmoved : (front ++ right ++ left ++ rest).length < stop' := by
        simp only [List.length_append]
        omega
      rw [exchange_of_not_bounds (by omega), exchange_of_not_bounds (by omega)]
      rfl

end BlockExchange

/-- Within the bounds of a vector an exchange puts its pieces together with the middle two in the
other order. Outside of them it fails, and done in place, with every step guarded, it has then not
changed the vector. An exchange can be undone, and made in two steps: either way is refused where
the other one is. -/
theorem exchange_blocks {α : Type} (start mid stop : Nat) (items : List α) :
    (start ≤ mid ∧ mid ≤ stop ∧ stop ≤ items.length →
      exchange start mid stop items = .ok (BlockExchange.exchanged start mid stop items) ∧
      (items.length < 2 ^ 64 → (Guarded.exchange (2 ^ 64) start mid stop).on items.toArray =
        (.ok (), (BlockExchange.exchanged start mid stop items).toArray)) ∧
      (exchange start mid stop items >>= exchange start (start + (stop - mid)) stop) =
        .ok items) ∧
    (¬ (start ≤ mid ∧ mid ≤ stop ∧ stop ≤ items.length) →
      exchange start mid stop items = .error (.badBounds start mid stop items.length) ∧
      (items.length < 2 ^ 64 → (Guarded.exchange (2 ^ 64) start mid stop).on items.toArray =
        (.error (.fault (.badBounds start mid stop items.length)), items.toArray))) ∧
    ∀ stop', mid ≤ stop → stop ≤ stop' →
      (exchange start mid stop items >>= exchange (start + (stop - mid)) stop stop').toOption =
        (exchange start mid stop' items).toOption := by
  have hguarded (hword : items.length < 2 ^ 64) :=
    Guarded.exchange_on start mid stop items hword
  refine ⟨?_, ?_, ?_⟩
  · intro hbounds
    have hexchange := BlockExchange.exchange_of_bounds hbounds
    refine ⟨hexchange, ?_, ?_⟩
    · intro hword
      rw [hguarded hword, hexchange]
    · rw [hexchange]
      exact BlockExchange.exchange_back hexchange
  · intro hbounds
    have hexchange := BlockExchange.exchange_of_not_bounds hbounds
    refine ⟨hexchange, ?_⟩
    intro hword
    rw [hguarded hword, hexchange]
  · intro stop' hmid hstop
    exact BlockExchange.exchange_further hmid hstop

/-- Two operands are moved behind an option and its argument, and then behind one more option. -/
theorem exchange_blocks_further :
    let items := ["prog", "in", "out", "-o", "file", "-v", "--"]
    exchange 1 3 5 items = .ok ["prog", "-o", "file", "in", "out", "-v", "--"] ∧
    (exchange 1 3 5 items >>= exchange 1 (1 + (5 - 3)) 5) = .ok items ∧
    (exchange 1 3 5 items >>= exchange (1 + (5 - 3)) 5 6).toOption =
      (exchange 1 3 6 items).toOption ∧
    (Guarded.exchange (2 ^ 64) 1 3 8).on items.toArray =
      (.error (.fault (.badBounds 1 3 8 7)), items.toArray) := by
  intro items
  obtain ⟨hwithin, _, hfurther⟩ := exchange_blocks 1 3 5 items
  obtain ⟨_, houtside, _⟩ := exchange_blocks 1 3 8 items
  obtain ⟨hmoved, _, hback⟩ := hwithin (by decide)
  exact ⟨hmoved, hback, hfurther 6 (by decide) (by decide), (houtside (by decide)).2 (by decide)⟩

end OptionScan
