import OptionScan.Proofs.Outcomes
import OptionScan.Proofs.Steps

/-!
What reaches the diagnostic sink. A walk lets out events alone, whatever the state it starts from;
so the texts in the sink all come from the reporter.
-/

namespace OptionScan

def Walk.Quiet (w : Walk) : Prop :=
  Output.diagnostics w.outputs = ""

namespace Walk

variable {w w' : Walk} {r : Reading}

theorem Quiet.event (h : w.Quiet) (event : Event) :
    Output.diagnostics (w.outputs ++ [.event event]) = "" := by
  rw [Output.diagnostics_append, h]
  rfl

theorem moveBlock_quiet {start stop start' : Nat} (h : w.Quiet)
    (hmove : w.moveBlock start stop = .ok (w', start')) : w'.Quiet := by
  obtain ⟨args, _, hmoved⟩ := exists_of_bind_ok hmove
  by_cases hsize : stop - start ≤ w.cursor
  · rw [if_pos hsize] at hmoved
    cases hmoved
    exact h.event _
  · rw [if_neg hsize] at hmoved
    cases hmoved

theorem settle_quiet (h : w.Quiet) (hsettle : w.settle = .ok w') : w'.Quiet := by
  unfold settle at hsettle
  split at hsettle
  · cases hsettle
    exact h
  · cases hsettle
    exact h
  · obtain ⟨⟨moved, start⟩, hmove, hsettled⟩ := exists_of_bind_ok hsettle
    cases hsettled
    have hmoved : moved.Quiet := moveBlock_quiet h hmove
    exact hmoved

theorem closeBlock_quiet (h : w.Quiet) : w.closeBlock.Quiet := by
  unfold closeBlock
  split
  · exact h
  · exact h

theorem passOperand_quiet (h : w.Quiet) (hpass : w.passOperand = .ok w') : w'.Quiet := by
  unfold passOperand at hpass
  split at hpass
  · cases hpass
    exact h.event _
  · cases hpass
    exact h.event _
  · obtain ⟨⟨moved, start⟩, hmove, hpassed⟩ := exists_of_bind_ok hpass
    cases hpassed
    exact Quiet.event (w := moved) (moveBlock_quiet h hmove) _

theorem seek_quiet {policy : OperandPolicy} {unread : List String} {landing : Landing}
    (h : w.Quiet) (hseek : seek policy unread w = .ok (w', landing)) : w'.Quiet := by
  induction unread generalizing w with
  | nil =>
    rw [seek] at hseek
    obtain ⟨settled, hsettle, hlanded⟩ := exists_of_bind_ok hseek
    cases hlanded
    exact settle_quiet h hsettle
  | cons element rest ih =>
    rw [seek.eq_def] at hseek
    simp only at hseek
    split at hseek
    · cases hseek
      exact closeBlock_quiet h
    · cases hseek
      exact closeBlock_quiet h
    · cases policy with
      | report =>
        cases hseek
        exact h
      | stop =>
        cases hseek
        exact h
      | move =>
        obtain ⟨passed, hpass, hrest⟩ := exists_of_bind_ok hseek
        exact ih (passOperand_quiet h hpass) hrest

theorem follows_quiet {grammar : Grammar} (h : w.Quiet) (hfollows : r.Follows grammar w) :
    r.walk.Quiet := by
  cases hfollows with
  | moves cursor hwalk =>
    rw [hwalk]
    exact h
  | settles cursor hsettle => exact settle_quiet (w := { w with cursor }) h hsettle

theorem readNext_quiet {grammar : Grammar} {policy : OperandPolicy} (h : w.Quiet)
    (hread : w.readNext grammar policy = .ok r) : r.walk.Quiet := by
  obtain ⟨landed, landing, hseek, hfollows⟩ := readNext_follows hread
  exact follows_quiet (seek_quiet h hseek) hfollows

theorem resume_quiet {grammar : Grammar} {policy : OperandPolicy} {offset : Nat} (h : w.Quiet)
    (hread : w.resume grammar policy offset = .ok r) : r.walk.Quiet := by
  rcases resume_follows hread with hfollows | hread
  · exact follows_quiet h hfollows
  · exact readNext_quiet (w := w.advance) h hread

end Walk

/-- Whatever state a session is in, what a call lets out before the reporter has its say is
quiet. -/
theorem Session.read_quiet {s : Session} {grammar : Grammar} {args : List String} {r : Reading}
    (hread : s.read grammar args = .ok r) : r.walk.Quiet := by
  have hstart : Walk.Quiet { args, cursor := s.cursor, block := s.block } := rfl
  unfold Session.read at hread
  split at hread
  · exact Walk.readNext_quiet hstart hread
  · exact Walk.resume_quiet hstart hread

end OptionScan
