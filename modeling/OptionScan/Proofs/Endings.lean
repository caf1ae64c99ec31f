import OptionScan.Proofs.Histories

/-!
How a call ends: with a problem, with an option or an operand, or with nothing more to find. Each
of the three ways settles at once what the call answers, what it leaves in the session for its
caller to look at, and what it stores in the flag cells.
-/

namespace OptionScan

inductive Ending where
  | failed
  | found
  | ended
  deriving DecidableEq, Repr

def Reply.ending (reply : Reply) : Ending :=
  match reply.code, reply.host.session.lastError with
  | none, _ => .ended
  | some _, some _ => .failed
  | some _, none => .found

/-- What the ending of a call says about its reply, given the host before it. -/
inductive Host.Ends (h : Host) (grammar : Grammar) (reply : Reply) : Ending → Prop
  /-- A problem: the session knows it and its culprit, and nothing else was found or stored. -/
  | failed (error : OptionError) (culprit code : Code)
      (hfailure : grammar.Failure error culprit code) (hcode : reply.code = some code)
      (herror : reply.host.session.lastError = some error)
      (hculprit : reply.host.session.culprit = culprit)
      (hargument : reply.host.session.argument = none)
      (hentry : reply.host.session.entryIndex = none) (hcells : reply.host.cells = h.cells) :
      Ends h grammar reply .failed
  /-- No problem: the culprit stays, and at most one cell is written. -/
  | found (code : Code) (entryIndex : Option Nat) (store : Option Store)
      (hsuccess : grammar.Success code entryIndex store) (hcode : reply.code = some code)
      (herror : reply.host.session.lastError = none)
      (hculprit : reply.host.session.culprit = h.session.culprit)
      (hentry : reply.host.session.entryIndex = entryIndex)
      (hcells : reply.host.cells = Store.apply h.cells store) : Ends h grammar reply .found
  /-- Nothing was found, and nothing is left of what was found before. -/
  | ended (hcode : reply.code = none) (herror : reply.host.session.lastError = none)
      (hculprit : reply.host.session.culprit = h.session.culprit)
      (hargument : reply.host.session.argument = none)
      (hentry : reply.host.session.entryIndex = none) (hcells : reply.host.cells = h.cells) :
      Ends h grammar reply .ended

namespace Host

variable {h last : Host} {grammar : Grammar} {reply : Reply}

theorem reading_justified {r : Reading} (hreading : h.reading grammar = .ok r) :
    r.outcome.Justified grammar := by
  rw [reading_eq] at hreading
  split at hreading
  · exact Walk.readNext_justified hreading
  · rcases Walk.resume_follows hreading with hfollows | hread
    · exact hfollows.justified
    · exact Walk.readNext_justified hread

theorem ends_reply {r : Reading} (hjustified : r.outcome.Justified grammar) :
    ∃ ending, h.Ends grammar (h.reply grammar r) ending := by
  unfold reply Session.conclude
  cases houtcome : r.outcome with
  | ended => exact ⟨.ended, .ended rfl rfl rfl rfl rfl rfl⟩
  | failed error culprit =>
    rw [houtcome] at hjustified
    exact ⟨.failed, .failed error culprit _ hjustified rfl rfl rfl rfl rfl rfl⟩
  | found code argument entryIndex store =>
    rw [houtcome] at hjustified
    exact ⟨.found, .found code entryIndex store hjustified rfl rfl rfl rfl rfl⟩

theorem exists_ends (hcall : h.call grammar = .ok reply) :
    ∃ ending, h.Ends grammar reply ending := by
  obtain ⟨r, hreading, rfl⟩ := exists_reading_of_call hcall
  exact ends_reply (reading_justified hreading)

theorem Ends.ending_eq {ending : Ending} (hends : h.Ends grammar reply ending) :
    ending = reply.ending := by
  cases hends with
  | failed error culprit code _ hcode herror => simp [Reply.ending, hcode, herror]
  | found code entryIndex store _ hcode herror => simp [Reply.ending, hcode, herror]
  | ended hcode => simp [Reply.ending, hcode]

theorem existsUnique_ends (hcall : h.call grammar = .ok reply) :
    ∃! ending, h.Ends grammar reply ending := by
  obtain ⟨ending, hends⟩ := exists_ends hcall
  refine ⟨ending, hends, ?_⟩
  intro other hother
  rw [hother.ending_eq, hends.ending_eq]

end Host

end OptionScan
