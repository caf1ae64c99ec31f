import OptionScan.Proofs.BlockExchange
import OptionScan.Reading

/-!
How a vector lies while it is being walked. Behind the part that the walk started after come the
option elements that were read and the operands that were passed over; the block says where the
operands stand among the options. Whatever the walk does keeps the two lists in their order, and at
the end of the walk the operands lie behind the options.
-/

namespace OptionScan

/-- The walk has left `front` alone, has read the elements `options` and passed over `operands`,
and `ahead` is what it has not seen yet. -/
inductive Laid (front options operands ahead : List String) (w : Walk) : Prop
  | clear (hblock : w.block = .absent) (hoperands : operands = [])
      (hargs : w.args = front ++ options ++ ahead)
      (hcursor : w.cursor = (front ++ options).length)
  | opened (hblock : w.block = .opened (front ++ options).length) (hoperands : operands ≠ [])
      (hargs : w.args = front ++ options ++ operands ++ ahead)
      (hcursor : w.cursor = (front ++ options ++ operands).length)
  | closed (moved passed : List String) (hoptions : options = moved ++ passed)
      (hblock : w.block =
        .closed (front ++ moved).length (front ++ moved ++ operands).length)
      (hoperands : operands ≠ [])
      (hargs : w.args = front ++ moved ++ operands ++ passed ++ ahead)
      (hcursor : w.cursor = (front ++ moved ++ operands ++ passed).length)

def Walk.Shut (w : Walk) : Prop :=
  ∀ start, w.block ≠ .opened start

theorem Walk.shut_of_absent {w : Walk} (h : w.block = .absent) : w.Shut := by
  intro start hopened
  rw [h] at hopened
  cases hopened

theorem Walk.shut_of_closed {w : Walk} {start stop : Nat} (h : w.block = .closed start stop) :
    w.Shut := by
  intro start' hopened
  rw [h] at hopened
  cases hopened

namespace Laid

variable {front options operands ahead : List String} {w : Walk}

/-- A walk that has seen nothing yet. -/
theorem start {args : List String} {k : Nat} (hk : k ≤ args.length) :
    Laid (args.take k) [] [] (args.drop k) { args, cursor := k } := by
  apply Laid.clear
  · rfl
  · rfl
  · rw [List.append_nil, List.take_append_drop]
  · rw [List.append_nil, List.length_take_of_le hk]

/-- What is ahead of the walk stands at the cursor. -/
theorem drop_cursor (h : Laid front options operands ahead w) :
    w.args.drop w.cursor = ahead := by
  cases h with
  | clear _ _ hargs hcursor => rw [hargs, hcursor, List.drop_left]
  | opened _ _ hargs hcursor => rw [hargs, hcursor, List.drop_left]
  | closed moved passed _ _ _ hargs hcursor => rw [hargs, hcursor, List.drop_left]

theorem getElem?_cursor_add (h : Laid front options operands ahead w) (n : Nat) :
    w.args[w.cursor + n]? = ahead[n]? := by
  rw [← h.drop_cursor, List.getElem?_drop]

theorem length_args (h : Laid front options operands ahead w) :
    w.args.length = w.cursor + ahead.length := by
  cases h with
  | clear _ _ hargs hcursor => rw [hargs, hcursor, List.length_append]
  | opened _ _ hargs hcursor => rw [hargs, hcursor, List.length_append]
  | closed moved passed _ _ _ hargs hcursor => rw [hargs, hcursor, List.length_append]

theorem length_front_le (h : Laid front options operands ahead w) : front.length ≤ w.cursor := by
  cases h with
  | clear _ _ _ hcursor => simp [hcursor]
  | opened _ _ _ hcursor => simp [hcursor]
  | closed moved passed _ _ _ _ hcursor => simp [hcursor]

/-- Where no operand was passed over, no block waits. -/
theorem block_eq_absent (h : Laid front options [] ahead w) : w.block = .absent := by
  cases h with
  | clear hblock _ _ _ => exact hblock
  | opened _ hoperands _ _ => exact absurd rfl hoperands
  | closed _ _ _ _ hoperands _ _ => exact absurd rfl hoperands

/-- What was let out on the way says nothing about how the vector lies. -/
theorem of_outputs (h : Laid front options operands ahead w) (outputs : List Output) :
    Laid front options operands ahead { w with outputs } := by
  cases h with
  | clear hblock hoperands hargs hcursor => exact .clear hblock hoperands hargs hcursor
  | opened hblock hoperands hargs hcursor => exact .opened hblock hoperands hargs hcursor
  | closed moved passed hoptions hblock hoperands hargs hcursor =>
    exact .closed moved passed hoptions hblock hoperands hargs hcursor

end Laid

namespace Walk

/-- A closed block and the options behind it change places. -/
theorem moveBlock_append (w : Walk) (before operands passed ahead : List String)
    (hargs : w.args = before ++ operands ++ passed ++ ahead)
    (hcursor : w.cursor = (before ++ operands ++ passed).length) :
    ∃ outputs, w.moveBlock before.length (before ++ operands).length =
      .ok ({ w with args := before ++ passed ++ operands ++ ahead, outputs },
        (before ++ passed).length) := by
  have hexchange : exchange before.length (before ++ operands).length w.cursor w.args =
      .ok (before ++ passed ++ operands ++ ahead) := by
    rw [hargs, hcursor]
    simpa only [List.length_append] using
      BlockExchange.exchange_append before operands passed ahead
  have hsize : (before ++ operands).length - before.length ≤ w.cursor := by
    rw [hcursor]
    simp only [List.length_append]
    omega
  have hback : w.cursor - ((before ++ operands).length - before.length) =
      (before ++ passed).length := by
    rw [hcursor]
    simp only [List.length_append]
    omega
  unfold moveBlock
  rw [hexchange]
  simp only [bind, Except.bind, if_pos hsize, hback]
  exact ⟨_, rfl⟩

end Walk

namespace Laid

variable {front options operands ahead : List String} {w : Walk}

/-- At the end of a walk the operands lie behind the options, and the cursor is at the first. -/
theorem settle (h : Laid front options operands ahead w) :
    ∃ w', w.settle = .ok w' ∧ w'.args = front ++ options ++ operands ++ ahead ∧
      w'.cursor = (front ++ options).length ∧ w'.block = .absent := by
  cases h with
  | clear hblock hoperands hargs hcursor =>
    refine ⟨w, ?_, ?_, hcursor, hblock⟩
    · simp only [Walk.settle, hblock]
    · rw [hargs, hoperands, List.append_nil]
  | opened hblock _ hargs hcursor =>
    refine ⟨{ w with cursor := (front ++ options).length, block := .absent }, ?_, hargs, rfl, rfl⟩
    simp only [Walk.settle, hblock]
  | closed moved passed hoptions hblock _ hargs hcursor =>
    obtain ⟨outputs, hmove⟩ :=
      Walk.moveBlock_append w (front ++ moved) operands passed ahead hargs hcursor
    refine ⟨{
      args := front ++ moved ++ passed ++ operands ++ ahead
      cursor := (front ++ moved ++ passed).length
      block := .absent
      outputs := outputs }, ?_, ?_, ?_, rfl⟩
    · simp only [Walk.settle, hblock, hmove, bind, Except.bind]
    · simp only [hoptions, List.append_assoc]
    · simp only [hoptions, List.append_assoc]

/-- An operand that is passed over joins those before it. -/
theorem passOperand {text : String} (h : Laid front options operands (text :: ahead) w) :
    ∃ w', w.passOperand = .ok w' ∧ Laid front options (operands ++ [text]) ahead w' := by
  cases h with
  | clear hblock hoperands hargs hcursor =>
    refine ⟨w.skip w.cursor, ?_, ?_⟩
    · simp only [Walk.passOperand, hblock]
    · apply Laid.opened
      · simp only [Walk.skip, hcursor]
      · exact List.concat_ne_nil text operands
      · simp only [Walk.skip, hargs, hoperands, List.append_assoc, List.nil_append,
          List.cons_append]
      · simp only [Walk.skip, hcursor, hoperands, List.length_append, List.nil_append,
          List.length_singleton]
  | opened hblock _ hargs hcursor =>
    refine ⟨w.skip (front ++ options).length, ?_, ?_⟩
    · simp only [Walk.passOperand, hblock]
    · apply Laid.opened
      · simp only [Walk.skip]
      · exact List.concat_ne_nil text operands
      · simp only [Walk.skip, hargs, List.append_assoc, List.nil_append, List.cons_append]
      · simp only [Walk.skip, hcursor, List.length_append, List.length_singleton, Nat.add_assoc]
  | closed moved passed hoptions hblock _ hargs hcursor =>
    obtain ⟨outputs, hmove⟩ :=
      Walk.moveBlock_append w (front ++ moved) operands passed (text :: ahead) hargs hcursor
    let moved' : Walk := { w with
      args := front ++ moved ++ passed ++ operands ++ text :: ahead, outputs := outputs }
    refine ⟨moved'.skip (front ++ moved ++ passed).length, ?_, ?_⟩
    · simp only [Walk.passOperand, hblock, hmove, bind, Except.bind, moved']
    · apply Laid.opened
      · simp only [Walk.skip, moved', hoptions, List.append_assoc]
      · exact List.concat_ne_nil text operands
      · simp only [Walk.skip, moved', hoptions, List.append_assoc, List.nil_append,
          List.cons_append]
      · simp only [Walk.skip, moved', hcursor, hoptions, List.length_append,
          List.length_singleton]
        omega

/-- An option closes the block of the operands before it. -/
theorem closeBlock (h : Laid front options operands ahead w) :
    Laid front options operands ahead w.closeBlock ∧ w.closeBlock.Shut := by
  cases h with
  | clear hblock hoperands hargs hcursor =>
    have hsame : w.closeBlock = w := by simp only [Walk.closeBlock, hblock]
    rw [hsame]
    exact ⟨.clear hblock hoperands hargs hcursor, Walk.shut_of_absent hblock⟩
  | opened hblock hoperands hargs hcursor =>
    have hclosed : w.closeBlock = { w with block := .closed (front ++ options).length w.cursor } := by
      simp only [Walk.closeBlock, hblock]
    rw [hclosed]
    refine ⟨?_, Walk.shut_of_closed rfl⟩
    apply Laid.closed options []
    · rw [List.append_nil]
    · simp only [hcursor]
    · exact hoperands
    · simp only [hargs, List.append_nil]
    · simp only [hcursor, List.append_nil]
  | closed moved passed hoptions hblock hoperands hargs hcursor =>
    have hsame : w.closeBlock = w := by simp only [Walk.closeBlock, hblock]
    rw [hsame]
    exact ⟨.closed moved passed hoptions hblock hoperands hargs hcursor,
      Walk.shut_of_closed hblock⟩

/-- An element that was read joins the options before it. -/
theorem advance {element : String} (h : Laid front options operands (element :: ahead) w)
    (hshut : w.Shut) : Laid front (options ++ [element]) operands ahead w.advance := by
  cases h with
  | clear hblock hoperands hargs hcursor =>
    apply Laid.clear
    · exact hblock
    · exact hoperands
    · simp only [Walk.advance, hargs, List.append_assoc, List.cons_append, List.nil_append]
    · simp only [Walk.advance, hcursor, List.length_append, List.length_singleton, Nat.add_assoc]
  | opened hblock _ _ _ => exact absurd hblock (hshut _)
  | closed moved passed hoptions hblock hoperands hargs hcursor =>
    apply Laid.closed moved (passed ++ [element])
    · rw [hoptions, List.append_assoc]
    · exact hblock
    · exact hoperands
    · simp only [Walk.advance, hargs, List.append_assoc, List.cons_append, List.nil_append]
    · simp only [Walk.advance, hcursor, List.length_append, List.length_singleton, Nat.add_assoc]

end Laid

theorem Walk.Shut.advance {w : Walk} (h : w.Shut) : w.advance.Shut := h

end OptionScan
