import OptionScan.Proofs.Histories
import OptionScan.Proofs.Modes

/-!
What a call leaves alone. Whatever state it starts from, also with a block that was found in another
vector, a call only puts elements before the cursor in another order; the first element of the
vector is not one of them. A call that does not move operands, and finds none waiting to be moved,
does not touch the vector.
-/

namespace OptionScan

/-- What a reading did to a vector: behind `front` it shuffled the elements up to `rest`, and if it
found something it stopped in front of `rest`. -/
inductive Reading.Shuffles (args : List String) (r : Reading) : Prop
  | intro (front middle shuffled rest : List String) (hfront : args ≠ [] → front ≠ [])
      (hargs : args = front ++ middle ++ rest) (hleft : r.walk.args = front ++ shuffled ++ rest)
      (hperm : shuffled.Perm middle)
      (hcursor : r.outcome ≠ .ended → r.walk.cursor = (front ++ shuffled).length)

section Shuffled

variable {front options operands ahead : List String} {w : Walk} {r : Reading}

/-- Where operands wait among the options, they stand between the front and the cursor. -/
theorem Laid.exists_middle (h : Laid front options operands ahead w) :
    ∃ middle, middle.Perm (options ++ operands) ∧ w.args = front ++ middle ++ ahead ∧
      w.cursor = (front ++ middle).length := by
  cases h with
  | clear _ hoperands hargs hcursor =>
    refine ⟨options, ?_, hargs, hcursor⟩
    rw [hoperands, List.append_nil]
  | opened _ _ hargs hcursor =>
    refine ⟨options ++ operands, .refl _, ?_, ?_⟩
    · rw [hargs, List.append_assoc front]
    · rw [hcursor, List.append_assoc]
  | closed moved passed hoptions _ _ hargs hcursor =>
    refine ⟨moved ++ operands ++ passed, ?_, ?_, ?_⟩
    · rw [hoptions, List.append_assoc, List.append_assoc]
      exact List.perm_append_comm.append_left moved
    · simp only [hargs, List.append_assoc]
    · simp only [hcursor, List.append_assoc]

theorem perm_taken_passed (options operands taken passed : List String) :
    ((options ++ taken) ++ (operands ++ passed)).Perm
      (options ++ operands ++ (passed ++ taken)) := by
  rw [List.perm_iff_count]
  intro element
  simp only [List.count_append]
  omega

/-- However a call leaves the walk, what it read of the elements ahead has joined those between the
front and the cursor. -/
theorem Reading.Leaves.exists_middle {least : Nat}
    (h : r.Leaves front options operands ahead least) :
    ∃ used rest shuffled, ahead = used ++ rest ∧
      shuffled.Perm (options ++ operands ++ used) ∧ r.walk.args = front ++ shuffled ++ rest ∧
      (r.outcome ≠ .ended → r.walk.cursor = (front ++ shuffled).length) := by
  cases h with
  | past passed taken rest hahead htaken hfound hoffset hlaid hshut hbehind =>
    obtain ⟨shuffled, hperm, hargs, hcursor⟩ := hlaid.exists_middle
    exact ⟨passed ++ taken, rest, shuffled, hahead,
      hperm.trans (perm_taken_passed options operands taken passed), hargs, fun _ => hcursor⟩
  | inside passed rest element before letter after hahead hfound hoffset helement hleast hlaid
      hshut =>
    obtain ⟨shuffled, hperm, hargs, hcursor⟩ := hlaid.exists_middle
    rw [← List.append_assoc] at hperm
    exact ⟨passed, element :: rest, shuffled, hahead, hperm, hargs, fun _ => hcursor⟩
  | ends passed taken rest hahead hends =>
    refine ⟨passed ++ taken, rest, (options ++ taken) ++ (operands ++ passed), hahead,
      perm_taken_passed options operands taken passed, ?_, ?_⟩
    · rw [hends.args_eq]
      simp only [List.append_assoc]
    · exact fun hfound => absurd hends.outcome_eq hfound
  | stops passed rest hahead hrest hended hoffset hlaid hshut hbehind =>
    obtain ⟨shuffled, hperm, hargs, hcursor⟩ := hlaid.exists_middle
    rw [← List.append_assoc] at hperm
    exact ⟨passed, rest, shuffled, hahead, hperm, hargs, fun _ => hcursor⟩

theorem Reading.Leaves.shuffles {least : Nat} (hfront : 0 < front.length)
    (hlaid : Laid front options operands ahead w)
    (h : r.Leaves front options operands ahead least) : r.Shuffles w.args := by
  obtain ⟨middle, hmiddle, hargs, _⟩ := hlaid.exists_middle
  obtain ⟨used, rest, shuffled, hahead, hperm, hleft, hcursor⟩ := h.exists_middle
  refine .intro front (middle ++ used) shuffled rest ?_ ?_ hleft ?_ hcursor
  · exact fun _ => List.length_pos_iff.mp hfront
  · rw [hargs, hahead]
    simp only [List.append_assoc]
  · exact hperm.trans (hmiddle.symm.append_right used)

end Shuffled

namespace Reading.Shuffles

variable {args : List String} {r : Reading}

theorem perm (h : r.Shuffles args) : r.walk.args.Perm args := by
  obtain ⟨front, middle, shuffled, rest, _, hargs, hleft, hperm, _⟩ := h
  rw [hargs, hleft]
  exact (hperm.append_left front).append_right rest

theorem getElem?_zero (h : r.Shuffles args) : r.walk.args[0]? = args[0]? := by
  by_cases hempty : args = []
  · have hnil : r.walk.args = [] := (hempty ▸ h.perm).eq_nil
    rw [hempty, hnil]
  · obtain ⟨front, middle, shuffled, rest, hfront, hargs, hleft, _, _⟩ := h
    obtain ⟨first, more, rfl⟩ := List.exists_cons_of_ne_nil (hfront hempty)
    rw [hargs, hleft]
    rfl

theorem getElem?_ahead (h : r.Shuffles args) (hfound : r.outcome ≠ .ended) {i : Nat}
    (hi : r.walk.cursor ≤ i) : r.walk.args[i]? = args[i]? := by
  obtain ⟨front, middle, shuffled, rest, _, hargs, hleft, hperm, hcursor⟩ := h
  rw [hcursor hfound] at hi
  have hlength : (front ++ shuffled).length = (front ++ middle).length := by
    rw [List.length_append, List.length_append, hperm.length_eq]
  rw [hargs, hleft, List.getElem?_append_right hi, List.getElem?_append_right (hlength ▸ hi),
    hlength]

end Reading.Shuffles

/-- A reading only shuffles the vector, from whatever sound state it starts. -/
theorem Host.reading_shuffles {h : Host} {grammar : Grammar} {r : Reading}
    (hsound : h.session.Sound) (hreading : h.reading grammar = .ok r) : r.Shuffles h.args := by
  rcases Nat.lt_or_ge h.args.length h.start.cursor with hpast | hwithin
  · rcases reading_past hsound hpast grammar with ⟨_, hread⟩ | ⟨_, _, _, herror⟩
    · obtain rfl := Except.ok.inj (hreading.symm.trans hread)
      refine .intro h.args [] [] [] id ?_ ?_ (.refl _) (fun hfound => absurd rfl hfound)
      · simp
      · simp [Host.start]
    · rw [herror] at hreading
      cases hreading
  · obtain ⟨front, options, operands, r', hfront, hlaid, hread, hleaves⟩ :=
      reading_leaves hsound hwithin grammar
    obtain rfl := Except.ok.inj (hreading.symm.trans hread)
    rcases hleaves with hleaves | ⟨element, rest, hahead, hleaves⟩
    · exact hleaves.shuffles hfront hlaid
    · rw [hahead] at hlaid
      exact hleaves.shuffles hfront (hlaid.advance (start_shut hsound))

/-! Without a block to move, only an operand that is passed over could lead to one. -/

namespace Walk

variable {w w' : Walk} {r : Reading} (hblock : w.block = .absent)
include hblock

theorem settle_of_absent : w.settle = .ok w := by
  simp only [settle, hblock]

theorem closeBlock_of_absent : w.closeBlock = w := by
  simp only [closeBlock, hblock]

theorem seek_of_absent {policy : OperandPolicy} {unread : List String} {landing : Landing}
    (hpolicy : policy ≠ .move) (hseek : seek policy unread w = .ok (w', landing)) : w' = w := by
  cases unread with
  | nil =>
    rw [seek, settle_of_absent hblock] at hseek
    cases hseek
    rfl
  | cons element rest =>
    rw [seek.eq_def] at hseek
    simp only [closeBlock_of_absent hblock] at hseek
    split at hseek
    · cases hseek
      rfl
    · cases hseek
      rfl
    · cases policy with
      | move => exact absurd rfl hpolicy
      | report =>
        cases hseek
        rfl
      | stop =>
        cases hseek
        rfl

theorem args_follows {grammar : Grammar} (hfollows : r.Follows grammar w) :
    r.walk.args = w.args := by
  cases hfollows with
  | moves cursor hwalk => rw [hwalk]
  | settles cursor hsettle =>
    rw [settle_of_absent (w := { w with cursor }) hblock] at hsettle
    rw [← Except.ok.inj hsettle]

theorem args_readNext {grammar : Grammar} {policy : OperandPolicy} (hpolicy : policy ≠ .move)
    (hread : w.readNext grammar policy = .ok r) : r.walk.args = w.args := by
  obtain ⟨landed, landing, hseek, hfollows⟩ := readNext_follows hread
  obtain rfl := seek_of_absent hblock hpolicy hseek
  exact args_follows hblock hfollows

theorem args_resume {grammar : Grammar} {policy : OperandPolicy} {offset : Nat}
    (hpolicy : policy ≠ .move) (hread : w.resume grammar policy offset = .ok r) :
    r.walk.args = w.args := by
  rcases resume_follows hread with hfollows | hread
  · exact args_follows hblock hfollows
  · exact args_readNext (w := w.advance) hblock hpolicy hread

end Walk

namespace Host

variable {h : Host} {grammar : Grammar}

/-- Where no operand is moved and none waits, a reading leaves the vector as it is. -/
theorem args_reading {r : Reading} (hpolicy : h.session.config.policy grammar.letters ≠ .move)
    (hblock : h.start.block = .absent) (hreading : h.reading grammar = .ok r) :
    r.walk.args = h.args := by
  rw [reading_eq] at hreading
  split at hreading
  · exact Walk.args_readNext hblock hpolicy hreading
  · exact Walk.args_resume hblock hpolicy hreading

/-- From every state a history leads to, an answered call leaves the elements of the vector, in some
order, and the first in its place. If it found something, none of the elements from the cursor on
was moved. And if operands are not to be moved, because the settings or the option string say so,
and none waits to be moved, the vector is as it was. -/
theorem call_frame (hreach : h.Reachable) {reply : Reply} (hcall : h.call grammar = .ok reply) :
    reply.host.args.Perm h.args ∧
    reply.host.args[0]? = h.args[0]? ∧
    (reply.code ≠ none →
      ∀ i, reply.host.session.cursor ≤ i → reply.host.args[i]? = h.args[i]?) ∧
    ((h.session.config.strict = true ∨ ¬ grammar.letters.Plain) →
      (h.session.block = .absent ∨ h.session.resetRequested = true) →
      reply.host.args = h.args) := by
  obtain ⟨r, hreading, rfl⟩ := exists_reading_of_call hcall
  have hshuffles := reading_shuffles hreach.sound hreading
  rw [reply_args, reply_cursor]
  refine ⟨hshuffles.perm, hshuffles.getElem?_zero, ?_, ?_⟩
  · intro hcode i hi
    have hfound : r.outcome ≠ .ended := fun hended => hcode ((code_reply h grammar r).mpr hended)
    exact hshuffles.getElem?_ahead hfound hi
  · intro hstays hclear
    apply args_reading ?_ ?_ hreading
    · rw [Ne, Config.policy_eq_move_iff]
      rintro ⟨hstrict, hplain⟩
      rcases hstays with hstays | hstays
      · rw [hstrict] at hstays
        cases hstays
      · exact hstays hplain
    · rcases hclear with hclear | hreset
      · simp [start, hclear]
      · simp [start, hreset]

/-- An operand waits and an element is left half read. In the vector that replaces this one there is
a dash alone in its place, and the block is moved behind it; or a reset is requested, and the first
operand ends the scan. -/
theorem call_frame_replaced_vector :
    (∃ replies h reply,
      Host.run { args := ["prog", "in", "-ab"] }
        [.call ⟨⟨"ab"⟩, []⟩, .setArgs ["prog", "x", "-", "y", "-a", "z"]] = .ok (replies, h) ∧
      h.call ⟨⟨"a"⟩, []⟩ = .ok reply ∧ reply.code = some (.ofChar 'a') ∧
      reply.host.session.cursor = 5 ∧
      reply.host.args.Perm ["prog", "x", "-", "y", "-a", "z"] ∧
      reply.host.args[0]? = some "prog" ∧ reply.host.args[5]? = some "z") ∧
    ∃ replies h reply,
      Host.run { args := ["prog", "in", "-ab"] }
        [.call ⟨⟨"ab"⟩, []⟩, .setArgs ["prog", "x", "-", "y", "-a", "z"], .requestReset] =
          .ok (replies, h) ∧
      h.session.block = .closed 1 2 ∧ h.call ⟨⟨"+a"⟩, []⟩ = .ok reply ∧
      reply.host.args = ["prog", "x", "-", "y", "-a", "z"] := by
  constructor
  · obtain ⟨replies, h, reply, hrun, hcall, hcode, hcursor, hargs⟩ : ∃ replies h reply,
        Host.run { args := ["prog", "in", "-ab"] }
          [.call ⟨⟨"ab"⟩, []⟩, .setArgs ["prog", "x", "-", "y", "-a", "z"]] = .ok (replies, h) ∧
        h.call ⟨⟨"a"⟩, []⟩ = .ok reply ∧ reply.code = some (.ofChar 'a') ∧
        reply.host.session.cursor = 5 ∧ h.args = ["prog", "x", "-", "y", "-a", "z"] :=
      ⟨_, _, _, rfl, rfl, rfl, rfl, rfl⟩
    have hreach : h.Reachable := ⟨_, _, _, _, _, replies, hrun⟩
    obtain ⟨hperm, hfirst, hahead, _⟩ := call_frame hreach hcall
    rw [hargs] at hperm hfirst hahead
    exact ⟨replies, h, reply, hrun, hcall, hcode, hcursor, hperm, hfirst,
      hahead (by simp [hcode]) 5 (Nat.le_of_eq hcursor)⟩
  · obtain ⟨replies, h, reply, hrun, hcall, hreset, hblock, hargs⟩ : ∃ replies h reply,
        Host.run { args := ["prog", "in", "-ab"] }
          [.call ⟨⟨"ab"⟩, []⟩, .setArgs ["prog", "x", "-", "y", "-a", "z"], .requestReset] =
            .ok (replies, h) ∧
        h.call ⟨⟨"+a"⟩, []⟩ = .ok reply ∧ h.session.resetRequested = true ∧
        h.session.block = .closed 1 2 ∧ h.args = ["prog", "x", "-", "y", "-a", "z"] :=
      ⟨_, _, _, rfl, rfl, rfl, rfl, rfl⟩
    have hreach : h.Reachable := ⟨_, _, _, _, _, replies, hrun⟩
    obtain ⟨_, _, _, hstill⟩ := call_frame hreach hcall
    have hmode : ¬ (⟨"+a"⟩ : OptionString).Plain := fun hplain => hplain.2 rfl
    exact ⟨replies, h, reply, hrun, hblock, hcall,
      (hstill (Or.inr hmode) (Or.inr hreset)).trans hargs⟩

end Host

end OptionScan
