import OptionScan.Proofs.Lockstep

/-!
What setting the cursor makes a session forget. Of an earlier scan the next call could still know
the block, the place in a half-read element, a reset that was asked for and the argument that was
found last; once the cursor is set none of them tells the session from a new one. Only the culprit
of the last problem is kept, until the next problem is found.
-/

namespace OptionScan

namespace Session

def keptOffset (s : Session) : Option Nat :=
  if s.resetRequested then none else s.offset

def keptBlock (s : Session) : Block :=
  if s.resetRequested then .absent else s.block

structure Alike (s s' : Session) : Prop where
  config_eq : s.config = s'.config
  cursor_eq : max 1 s.cursor = max 1 s'.cursor
  offset_eq : s.keptOffset = s'.keptOffset
  block_eq : s.keptBlock = s'.keptBlock
  reporter_eq : s.reporter = s'.reporter

theorem prepare_eq (s : Session) (size : Nat) :
    s.prepare size =
      { config := s.config
        cursor := max 1 s.cursor
        culprit := s.culprit
        offset := if size ≤ max 1 s.cursor then none else s.keptOffset
        block := s.keptBlock
        reporter := s.reporter } := by
  unfold prepare keptOffset keptBlock
  cases s.resetRequested <;> simp

@[simp] theorem keptOffset_setCursor (s : Session) (cursor : Nat) :
    (s.setCursor cursor).keptOffset = none := by
  unfold keptOffset
  split <;> rfl

@[simp] theorem keptBlock_setCursor (s : Session) (cursor : Nat) :
    (s.setCursor cursor).keptBlock = .absent := by
  unfold keptBlock
  split <;> rfl

variable {s s' : Session}

namespace Alike

theorem prepare_eq (h : s.Alike s') (size : Nat) :
    s'.prepare size = { s.prepare size with culprit := s'.culprit } := by
  rw [s.prepare_eq, s'.prepare_eq, h.config_eq, h.cursor_eq, h.offset_eq, h.block_eq, h.reporter_eq]

theorem of_culprit (s : Session) (culprit : Code) : s.Alike { s with culprit } :=
  ⟨rfl, rfl, rfl, rfl, rfl⟩

theorem setCursor (cursor : Nat) (hconfig : s.config = s'.config)
    (hreporter : s.reporter = s'.reporter) : (s.setCursor cursor).Alike (s'.setCursor cursor) :=
  ⟨hconfig, rfl, by simp, by simp, hreporter⟩

theorem requestReset (h : s.Alike s') : s.requestReset.Alike s'.requestReset :=
  ⟨h.config_eq, h.cursor_eq, rfl, rfl, h.reporter_eq⟩

/-- To ask for a reset is to set the cursor where it is. -/
theorem requestReset_setCursor (s : Session) : s.requestReset.Alike (s.setCursor s.cursor) :=
  ⟨rfl, rfl, s.keptOffset_setCursor s.cursor ▸ rfl, s.keptBlock_setCursor s.cursor ▸ rfl, rfl⟩

theorem setReportErrors (on : Bool) (h : s.Alike s') :
    (s.setReportErrors on).Alike (s'.setReportErrors on) := by
  refine ⟨?_, h.cursor_eq, h.offset_eq, h.block_eq, h.reporter_eq⟩
  simp only [Session.setReportErrors, h.config_eq]

theorem setReporter (reporter : Reporter) (h : s.Alike s') :
    (s.setReporter reporter).Alike (s'.setReporter reporter) :=
  ⟨h.config_eq, h.cursor_eq, h.offset_eq, h.block_eq, rfl⟩

end Alike

end Session

/-- What a caller sees of a reply, its outputs included. The culprit may be that of an earlier scan:
unless a problem is known to have been found since, it is left out. -/
def Reply.seen (blamed : Bool) (reply : Reply) : Option Code × Sight × List Output :=
  (reply.code,
    if blamed then reply.host.sight else { reply.host.sight with culprit := .unknown },
    reply.outputs)

def Reply.sights (blamed : Bool) : List Reply → List (Option Code × Sight × List Output)
  | [] => []
  | reply :: more =>
    let blamed := blamed || reply.host.session.lastError.isSome
    reply.seen blamed :: sights blamed more

namespace Host

def shows (h : Host) (blamed : Bool) (history : List Operation) :
    Except Fault (List (Option Code × Sight × List Output)) :=
  (h.run history).map fun answer => Reply.sights blamed answer.1

def withCulprit (h : Host) (culprit : Code) : Host :=
  { h with session := { h.session with culprit } }

variable {h h' : Host} {grammar : Grammar}

section Alike

variable (hargs : h.args = h'.args) (halike : h.session.Alike h'.session)
include hargs halike

theorem reading_of_alike (grammar : Grammar) : h'.reading grammar = h.reading grammar := by
  unfold reading
  rw [halike.prepare_eq, hargs]
  rfl

/-- Two sessions that start out the same answer the same. The culprits are those of the problem that
is found, or else they are left as they were. -/
theorem reply_of_alike (hcells : h.cells = h'.cells) (grammar : Grammar) (r : Reading) :
    ∃ culprit, h'.reply grammar r =
        { h.reply grammar r with host := (h.reply grammar r).host.withCulprit culprit } ∧
      (h.session.culprit = h'.session.culprit ∨
          (h.reply grammar r).host.session.lastError.isSome = true →
        culprit = (h.reply grammar r).host.session.culprit) := by
  unfold reply
  rw [halike.prepare_eq, hargs, hcells]
  unfold Session.conclude
  cases r.outcome with
  | ended =>
    refine ⟨h'.session.culprit, rfl, ?_⟩
    rintro (hsame | herror)
    · exact hsame.symm
    · cases herror
  | found code argument entryIndex store =>
    refine ⟨h'.session.culprit, rfl, ?_⟩
    rintro (hsame | herror)
    · exact hsame.symm
    · cases herror
  | failed error culprit => exact ⟨culprit, rfl, fun _ => rfl⟩

end Alike

end Host

def forgetting : Comparison Bool where
  hosts blamed h h' :=
    h.args = h'.args ∧ h.cells = h'.cells ∧ h.session.Alike h'.session ∧
      (blamed = true → h.session.culprit = h'.session.culprit)
  replies blamed reply reply' blamed' :=
    blamed' = (blamed || reply.host.session.lastError.isSome) ∧
      reply.seen blamed' = reply'.seen blamed'

theorem Reply.lastError_of_seen {blamed : Bool} {reply reply' : Reply}
    (h : reply.seen blamed = reply'.seen blamed) :
    reply.host.session.lastError = reply'.host.session.lastError := by
  have herror := congrArg (fun seen => seen.2.1.error) h
  cases blamed <;> exact herror

namespace forgetting

theorem sights_eq {blamed blamed' : Bool} {replies replies' : List Reply}
    (h : forgetting.Series blamed replies replies' blamed') :
    Reply.sights blamed replies = Reply.sights blamed replies' := by
  induction h with
  | nil => rfl
  | @cons blamed _ _ first first' more more' hfirst _ ih =>
    obtain ⟨rfl, hseen⟩ := hfirst
    rw [Reply.sights, Reply.sights, ← Reply.lastError_of_seen hseen, hseen, ih]

theorem calls (grammar : Grammar) : forgetting.Calls grammar grammar := by
  rintro blamed h h' ⟨hargs, hcells, halike, hculprit⟩
  refine Host.call_abreast (Host.reading_of_alike hargs halike grammar) fun r _ => ?_
  obtain ⟨culprit, hreply, hsame⟩ := Host.reply_of_alike hargs halike hcells grammar r
  rw [hreply]
  generalize h.reply grammar r = reply at hsame
  have hblamed : (blamed || reply.host.session.lastError.isSome) = true →
      culprit = reply.host.session.culprit := by
    intro hblamed
    rcases Bool.or_eq_true_iff.mp hblamed with hbefore | herror
    · exact hsame (Or.inl (hculprit hbefore))
    · exact hsame (Or.inr herror)
  refine ⟨Iff.rfl, _, ⟨rfl, ?_⟩, rfl, rfl, .of_culprit _ culprit, fun h => (hblamed h).symm⟩
  cases hfound : blamed || reply.host.session.lastError.isSome with
  | false => rfl
  | true =>
    obtain rfl := hblamed hfound
    rfl

theorem performs (operation : Operation) : forgetting.Performs operation (some operation) := by
  cases operation with
  | call grammar => exact Comparison.performs_call (calls grammar)
  | collect grammar limit => exact Comparison.performs_collect (calls grammar) limit
  | setCursor cursor =>
    rintro blamed h h' ⟨hargs, hcells, halike, hculprit⟩
    exact .ok ⟨blamed, .nil blamed, hargs, hcells,
      .setCursor cursor halike.config_eq halike.reporter_eq, hculprit⟩
  | requestReset =>
    rintro blamed h h' ⟨hargs, hcells, halike, hculprit⟩
    exact .ok ⟨blamed, .nil blamed, hargs, hcells, halike.requestReset, hculprit⟩
  | setArgs args =>
    rintro blamed h h' ⟨_, hcells, halike, hculprit⟩
    exact .ok ⟨blamed, .nil blamed, rfl, hcells, halike, hculprit⟩
  | setReportErrors on =>
    rintro blamed h h' ⟨hargs, hcells, halike, hculprit⟩
    exact .ok ⟨blamed, .nil blamed, hargs, hcells, halike.setReportErrors on, hculprit⟩
  | setReporter reporter =>
    rintro blamed h h' ⟨hargs, hcells, halike, hculprit⟩
    exact .ok ⟨blamed, .nil blamed, hargs, hcells, halike.setReporter reporter, hculprit⟩

/-- Whatever is done with them from then on, hosts that are alike show the same. -/
theorem shows_eq {blamed : Bool} {h h' : Host} (hhosts : forgetting.hosts blamed h h')
    (history : List Operation) : h.shows blamed history = h'.shows blamed history := by
  have hrun := Comparison.run_abreast performs history hhosts
  rw [List.filterMap_some] at hrun
  apply hrun.map_eq
  rintro answer answer' ⟨blamed', hreplies, _⟩
  exact sights_eq hreplies

end forgetting

/-- Once its cursor is set, a session answers every history of operations as a new session does that
has the same settings and the same reporter, and whose cursor is set to the same element. Of the
culprit this is said from the first problem on, which is the first that the new session has. And to
ask for a reset, in whatever state, does the same as to set the cursor to where it stands. -/
theorem Host.setCursor_forgets (h : Host) (cursor : Nat) (history : List Operation) :
    let new : Session := { config := h.session.config, reporter := h.session.reporter }
    Host.shows { h with session := h.session.setCursor cursor } false history =
        Host.shows { h with session := new.setCursor cursor } false history ∧
      Host.shows { h with session := h.session.requestReset } true history =
        Host.shows { h with session := h.session.setCursor h.session.cursor } true history := by
  intro new
  constructor
  · apply forgetting.shows_eq
    exact ⟨rfl, rfl, .setCursor cursor rfl rfl, Bool.noConfusion⟩
  · apply forgetting.shows_eq
    exact ⟨rfl, rfl, .requestReset_setCursor h.session, fun _ => rfl⟩

/-- The culprit is that of an earlier scan as long as no other is found. -/
example :
    (Host.run { args := ["prog", "-x", "-a"] }
        [.call ⟨⟨"a"⟩, []⟩, .setCursor 2, .call ⟨⟨"a"⟩, []⟩]).map (·.2.session.culprit) =
      .ok (.ofChar 'x') := by
  rfl

end OptionScan
