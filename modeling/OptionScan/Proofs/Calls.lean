import OptionScan.Proofs.Quiet
import OptionScan.Proofs.ScanSteps

/-!
What one call can do. A call may start from whatever an earlier one left behind, also when the
vector or the grammar was replaced in between, so that nothing is known of what was read before.
It leaves the walk past an option with its arguments, inside an element with letters to go, at the
end of the options, or where it was, at an operand at which the options stop.
-/

namespace OptionScan

def Walk.Behind (w : Walk) : Prop :=
  ∀ start stop, w.block = .closed start stop → stop < w.cursor

@[simp] theorem Walk.args_closeBlock (w : Walk) : w.closeBlock.args = w.args := by
  unfold closeBlock
  split
  · rfl
  · rfl

@[simp] theorem Walk.cursor_closeBlock (w : Walk) : w.closeBlock.cursor = w.cursor := by
  unfold closeBlock
  split
  · rfl
  · rfl

section Lying

variable {front options operands ahead : List String} {w : Walk}

/-- A block that waits is not empty and lies between the front and the cursor. -/
theorem Laid.closed_bounds {start stop : Nat} (h : Laid front options operands ahead w)
    (hblock : w.block = .closed start stop) :
    front.length ≤ start ∧ start < stop ∧ stop ≤ w.cursor := by
  cases h with
  | clear habsent _ _ _ =>
    rw [habsent] at hblock
    cases hblock
  | opened hopened _ _ _ =>
    rw [hopened] at hblock
    cases hblock
  | closed moved passed _ hclosed hoperands _ hcursor =>
    rw [hclosed] at hblock
    have hpos := List.length_pos_iff.mpr hoperands
    obtain ⟨rfl, rfl⟩ := Block.closed.inj hblock
    simp only [hcursor, List.length_append]
    omega

theorem Laid.cursor_eq (h : Laid front options operands ahead w) :
    w.cursor = front.length + options.length + operands.length := by
  cases h with
  | clear _ hoperands _ hcursor => simp [hcursor, hoperands]
  | opened _ _ _ hcursor => simp only [hcursor, List.length_append]
  | closed moved passed hoptions _ _ _ hcursor =>
    simp only [hcursor, hoptions, List.length_append]
    omega

theorem Laid.length_args_eq (h : Laid front options operands ahead w) :
    w.args.length = front.length + options.length + operands.length + ahead.length := by
  rw [h.length_args, h.cursor_eq]

/-- A block that lies in the vector before the cursor leaves the operands in their place among the
options, whoever put them there. -/
theorem Laid.of_closed {start stop : Nat} (hblock : w.block = .closed start stop)
    (hstart : start < stop) (hstop : stop ≤ w.cursor) (hcursor : w.cursor ≤ w.args.length) :
    Laid (w.args.take start) ((w.args.take w.cursor).drop stop) ((w.args.take stop).drop start)
      (w.args.drop w.cursor) w := by
  have hfront : (w.args.take start).length = start := List.length_take_of_le (by omega)
  have hblocks : w.args.take start ++ (w.args.take stop).drop start = w.args.take stop := by
    have htake : w.args.take start = (w.args.take stop).take start := by
      rw [List.take_take, Nat.min_eq_left (by omega)]
    rw [htake, List.take_append_drop]
  have hread : w.args.take stop ++ (w.args.take w.cursor).drop stop = w.args.take w.cursor := by
    have htake : w.args.take stop = (w.args.take w.cursor).take stop := by
      rw [List.take_take, Nat.min_eq_left hstop]
    rw [htake, List.take_append_drop]
  apply Laid.closed [] ((w.args.take w.cursor).drop stop)
  · rfl
  · rw [List.append_nil, hfront, hblocks, List.length_take_of_le (by omega), hblock]
  · intro hnil
    have hlength := congrArg List.length hnil
    simp only [List.length_drop, List.length_take, List.length_nil] at hlength
    omega
  · rw [List.append_nil, hblocks, hread, List.take_append_drop]
  · rw [List.append_nil, hblocks, hread, List.length_take_of_le hcursor]

theorem Laid.behind_of_le {index : Nat} (h : Laid front options operands ahead w)
    (hindex : w.cursor ≤ index) : Walk.Behind { w with cursor := index + 1 } := by
  intro start stop hblock
  have hbounds := h.closed_bounds hblock
  exact Nat.lt_succ_of_le (Nat.le_trans hbounds.2.2 hindex)

theorem Laid.behind_advance (h : Laid front options operands ahead w) : w.advance.Behind :=
  h.behind_of_le (Nat.le_refl _)

end Lying

/-- The ways in which a call leaves the walk, which had `ahead` before it. The operands `passed`
have joined those that wait, the elements `taken` have joined the options. A byte position that is
left inside an element is greater than `least`. -/
inductive Reading.Leaves (front options operands ahead : List String) (least : Nat)
    (r : Reading) : Prop
  /-- Past an option and its arguments, or an operand that counts. -/
  | past (passed taken rest : List String) (hahead : ahead = passed ++ taken ++ rest)
      (htaken : taken ≠ []) (hfound : r.outcome ≠ .ended) (hoffset : r.offset = none)
      (hlaid : Laid front (options ++ taken) (operands ++ passed) rest r.walk)
      (hshut : r.walk.Shut) (hbehind : r.walk.Behind)
  /-- Inside an element whose letters from `letter` on are to be read. -/
  | inside (passed rest : List String) (element : String) (before : List Char) (letter : Char)
      (after : List Char) (hahead : ahead = passed ++ element :: rest)
      (hfound : r.outcome ≠ .ended) (hoffset : r.offset = some (byteWidth before))
      (helement : element.toList = before ++ letter :: after) (hleast : least < byteWidth before)
      (hlaid : Laid front options (operands ++ passed) (element :: rest) r.walk)
      (hshut : r.walk.Shut)
  /-- At the end of the vector, or past the elements that end the options. -/
  | ends (passed taken rest : List String) (hahead : ahead = passed ++ taken ++ rest)
      (hends : r.Ends front (options ++ taken) (operands ++ passed) rest)
  /-- At an operand at which the options stop. -/
  | stops (passed rest : List String) (hahead : ahead = passed ++ rest) (hrest : rest ≠ [])
      (hended : r.outcome = .ended) (hoffset : r.offset = none)
      (hlaid : Laid front options (operands ++ passed) rest r.walk) (hshut : r.walk.Shut)
      (hbehind : r.walk.Behind)

section Leaving

variable {front options operands ahead : List String} {element : String} {w : Walk} {least : Nat}

/-- An operand that was passed over is one of those that wait. -/
theorem Reading.Leaves.of_passed {r : Reading}
    (h : r.Leaves front options (operands ++ [element]) ahead least) :
    r.Leaves front options operands (element :: ahead) least := by
  cases h with
  | past passed taken rest hahead htaken hfound hoffset hlaid hshut hbehind =>
    refine .past (element :: passed) taken rest ?_ htaken hfound hoffset ?_ hshut hbehind
    · rw [hahead, List.cons_append, List.cons_append]
    · simpa using hlaid
  | inside passed rest half before letter after hahead hfound hoffset helement hleast hlaid hshut =>
    refine .inside (element :: passed) rest half before letter after ?_ hfound hoffset helement
      hleast ?_ hshut
    · rw [hahead, List.cons_append]
    · simpa using hlaid
  | ends passed taken rest hahead hends =>
    refine .ends (element :: passed) taken rest ?_ ?_
    · rw [hahead, List.cons_append, List.cons_append]
    · simpa using hends
  | stops passed rest hahead hrest hended hoffset hlaid hshut hbehind =>
    refine .stops (element :: passed) rest ?_ hrest hended hoffset ?_ hshut hbehind
    · rw [hahead, List.cons_append]
    · simpa using hlaid

/-- A call that reads one element and nothing more. -/
theorem leaves_advance {outcome : Outcome}
    (hlaid : Laid front options operands (element :: ahead) w) (hshut : w.Shut)
    (hfound : outcome ≠ .ended) :
    Reading.Leaves front options operands (element :: ahead) least ⟨w.advance, none, outcome⟩ := by
  refine .past [] [element] ahead rfl (List.cons_ne_nil _ _) hfound rfl ?_ hshut.advance
    hlaid.behind_advance
  rw [List.append_nil]
  exact hlaid.advance hshut

/-- Where the cursor has moved on from the walk that a call came to, it is behind the block. -/
theorem Reading.Follows.behind {grammar : Grammar} {r : Reading} (h : r.Follows grammar w)
    (hlaid : Laid front options operands ahead w) (hfound : r.outcome ≠ .ended)
    (hcursor : w.cursor < r.walk.cursor) : r.walk.Behind := by
  cases h with
  | settles _ _ hended => exact absurd hended hfound
  | moves cursor hwalk _ =>
    rw [hwalk] at hcursor ⊢
    intro start stop hblock
    have hbounds := hlaid.closed_bounds hblock
    exact Nat.lt_of_le_of_lt hbounds.2.2 hcursor

theorem Reading.Covers.leaves {meaning : Meaning} {r : Reading} (least : Nat)
    (h : r.Covers front options operands ahead element meaning) (hbehind : r.walk.Behind) :
    r.Leaves front options operands (element :: ahead) least := by
  refine .past [] (element :: ahead.take meaning.taken) (ahead.drop meaning.taken) ?_
    (List.cons_ne_nil _ _) h.found h.offset_eq ?_ h.shut hbehind
  · rw [List.nil_append, List.cons_append, List.take_append_drop]
  · rw [List.append_nil]
    exact h.laid

/-- A call that reads an option, or what is left of it, at which a walk came to a halt. -/
theorem Reading.Reads.leaves {grammar : Grammar} {meaning : Meaning} {r : Reading}
    (h : r.Reads grammar front options operands ahead element least meaning)
    (hlaid : Laid front options operands (element :: ahead) w) (hfollows : r.Follows grammar w) :
    r.Leaves front options operands (element :: ahead) least := by
  cases h with
  | whole hcovers =>
    refine hcovers.leaves least (hfollows.behind hlaid hcovers.found ?_)
    rw [hlaid.cursor_eq, hcovers.laid.cursor_eq, List.length_append, List.length_cons]
    omega
  | part finding before letter after helement hfinding hoffset hleast _ hleft hshut =>
    refine .inside [] ahead element before letter after rfl (Reading.outcome_ne_ended hfinding)
      hoffset helement hleast ?_ hshut
    rw [List.append_nil]
    exact hleft
  | ends more hahead _ hlast =>
    refine .ends [] [element, ""] more (by simp [hahead]) ?_
    rw [List.append_nil]
    exact hlast

/-- An option under the cursor is read, behind its one dash or its two. -/
theorem readNext_option_leaves (grammar : Grammar) (policy : OperandPolicy)
    (hoption : ¬ isOperand element) (hmarker : element ≠ endMarker)
    (hlaid : Laid front options operands (element :: ahead) w) :
    ∃ r, w.readNext grammar policy = .ok r ∧
      r.Leaves front options operands (element :: ahead) 1 := by
  obtain ⟨r, hread, hreads⟩ := readNext_option_reads grammar policy hoption hmarker hlaid
  obtain ⟨landed, landing, hseek, hfollows⟩ := Walk.readNext_follows hread
  obtain ⟨halt, hhalt⟩ := seek_option policy hoption ahead w
  rw [hlaid.drop_cursor, hhalt] at hseek
  cases hseek
  exact ⟨r, hread, hreads.leaves hlaid.closeBlock.1 hfollows⟩

end Leaving

/-- What a call does that starts at an element to be looked at afresh. -/
theorem readNext_leaves {front options operands : List String} {w : Walk} (grammar : Grammar)
    (policy : OperandPolicy) (ahead : List String) (hlaid : Laid front options operands ahead w)
    (hshut : policy ≠ .move → w.Shut) (hbehind : policy ≠ .move → w.Behind) :
    ∃ r, w.readNext grammar policy = .ok r ∧ r.Leaves front options operands ahead 1 := by
  -- Only where operands are moved does the walk go on behind one, with its block open.
  induction ahead generalizing operands w with
  | nil =>
    obtain ⟨last, hread, hends⟩ := readNext_nil grammar policy hlaid
    refine ⟨last, hread, .ends [] [] [] rfl ?_⟩
    simpa using hends
  | cons element ahead ih =>
    by_cases hoperand : isOperand element
    · cases policy with
      | move =>
        obtain ⟨w', hread, hlaid'⟩ := readNext_pass grammar hoperand hlaid
        obtain ⟨r, hread', hleaves⟩ := ih hlaid' (fun h => absurd rfl h) (fun h => absurd rfl h)
        exact ⟨r, hread.trans hread', hleaves.of_passed⟩
      | report =>
        refine ⟨_, readNext_report grammar hoperand hlaid, ?_⟩
        exact leaves_advance hlaid (hshut (by decide)) Outcome.noConfusion
      | stop =>
        refine ⟨⟨w, none, .ended⟩, readNext_halt grammar hoperand hlaid, ?_⟩
        refine .stops [] (element :: ahead) rfl (List.cons_ne_nil _ _) rfl rfl ?_
          (hshut (by decide)) (hbehind (by decide))
        rw [List.append_nil]
        exact hlaid
    · by_cases hmarker : element = endMarker
      · subst element
        obtain ⟨last, hread, hends⟩ := readNext_marker grammar policy hlaid
        refine ⟨last, hread, .ends [] [endMarker] ahead rfl ?_⟩
        rw [List.append_nil]
        exact hends
      · exact readNext_option_leaves grammar policy hoperand hmarker hlaid

/-- What a call does that goes on at a byte position of the element under the cursor: it reads a
letter there, or gives the element up if it has none there. -/
theorem resume_leaves {front options operands ahead : List String} {element : String} {w : Walk}
    {offset : Nat} (grammar : Grammar) (policy : OperandPolicy)
    (hlaid : Laid front options operands (element :: ahead) w) (hshut : w.Shut) :
    ∃ r, w.resume grammar policy offset = .ok r ∧
      (r.Leaves front options operands (element :: ahead) offset ∨
        r.Leaves front (options ++ [element]) operands ahead 1) := by
  have hget : w.args[w.cursor]? = some element := by
    simpa using hlaid.getElem?_cursor_add 0
  have hgiven : ∃ r, w.advance.readNext grammar policy = .ok r ∧
      r.Leaves front (options ++ [element]) operands ahead 1 :=
    readNext_leaves grammar policy ahead (hlaid.advance hshut) (fun _ => hshut.advance)
      (fun _ => hlaid.behind_advance)
  unfold Walk.resume
  simp only [hget]
  split
  · next letter rest hdrop =>
    obtain ⟨before, helement, rfl⟩ := eq_append_of_dropBytes? hdrop
    obtain ⟨r, hread, hreads⟩ := readLetter_reads grammar hlaid hshut helement
    exact ⟨r, hread, Or.inl (hreads.leaves hlaid (Walk.readLetter_follows hread))⟩
  · obtain ⟨r, hread, hleaves⟩ := hgiven
    exact ⟨r, hread, Or.inr hleaves⟩
  · obtain ⟨r, hread, hleaves⟩ := hgiven
    exact ⟨r, hread, Or.inr hleaves⟩

end OptionScan
