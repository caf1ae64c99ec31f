import OptionScan.Proofs.Lockstep

/-!
Reports have no say in a scan. Whether problems are reported and what a reporter does with them
shows in the outputs alone: two runs that differ in nothing else find the same, and leave the same
behind.
-/

namespace OptionScan

def Operation.setsReports : Operation → Bool
  | .setReportErrors _ | .setReporter _ => true
  | _ => false

namespace Host

def reporting (h : Host) (on : Bool) (reporter : Reporter) : Host :=
  { h with session := (h.session.setReportErrors on).setReporter reporter }

/-- What a caller sees who does not look at the outputs: the codes, the host after each call, and
the host after the last operation. -/
def watched (h : Host) (history : List Operation) :
    Except Fault (List (Option Code × Sight) × Sight) :=
  (h.run history).map fun answer =>
    (answer.1.map fun reply => (reply.code, reply.host.sight), answer.2.sight)

variable (h : Host) (on : Bool) (reporter : Reporter) (grammar : Grammar)

theorem reading_reporting : (h.reporting on reporter).reading grammar = h.reading grammar :=
  rfl

/-- Only the outputs of a reply hang on the reports. -/
theorem reply_reporting (r : Reading) :
    ((h.reporting on reporter).reply grammar r).code = (h.reply grammar r).code ∧
      ((h.reporting on reporter).reply grammar r).host =
        (h.reply grammar r).host.reporting on reporter := by
  unfold reply Session.conclude
  cases r.outcome <;> exact ⟨rfl, rfl⟩

end Host

def reports : Comparison Unit where
  hosts _ h h' := ∃ on reporter, h' = h.reporting on reporter
  replies _ reply reply' _ := reply.code = reply'.code ∧ reply.host.sight = reply'.host.sight

namespace reports

theorem codes_sights_eq {replies replies' : List Reply} {s t : Unit}
    (h : reports.Series s replies replies' t) :
    replies.map (fun reply => (reply.code, reply.host.sight)) =
      replies'.map (fun reply => (reply.code, reply.host.sight)) := by
  induction h with
  | nil => rfl
  | cons hfirst _ ih =>
    obtain ⟨hcode, hsight⟩ := hfirst
    rw [List.map_cons, List.map_cons, hcode, hsight, ih]

theorem calls (grammar : Grammar) : reports.Calls grammar grammar := by
  rintro s h _ ⟨on, reporter, rfl⟩
  refine Host.call_abreast (h.reading_reporting on reporter grammar) fun r _ => ?_
  obtain ⟨hcode, hhost⟩ := h.reply_reporting on reporter grammar r
  refine ⟨by rw [hcode], s, ⟨hcode.symm, ?_⟩, on, reporter, hhost⟩
  rw [hhost]
  rfl

/-- Where an operation sets the reports of one host, nothing need be done with the other. -/
theorem performs (operation : Operation) :
    reports.Performs operation
      (Option.guard (fun operation => !operation.setsReports) operation) := by
  cases operation with
  | call grammar => exact Comparison.performs_call (calls grammar)
  | collect grammar limit => exact Comparison.performs_collect (calls grammar) limit
  | setCursor cursor =>
    rintro s h _ ⟨on, reporter, rfl⟩
    exact .ok ⟨s, .nil s, on, reporter, rfl⟩
  | requestReset =>
    rintro s h _ ⟨on, reporter, rfl⟩
    exact .ok ⟨s, .nil s, on, reporter, rfl⟩
  | setArgs args =>
    rintro s h _ ⟨on, reporter, rfl⟩
    exact .ok ⟨s, .nil s, on, reporter, rfl⟩
  | setReportErrors _ =>
    rintro s h _ ⟨on, reporter, rfl⟩
    exact .ok ⟨s, .nil s, on, reporter, rfl⟩
  | setReporter _ =>
    rintro s h _ ⟨on, reporter, rfl⟩
    exact .ok ⟨s, .nil s, on, reporter, rfl⟩

/-- A history shows the same if the operations that set the reports are left out. -/
theorem watched_filter {h h' : Host} (hhosts : reports.hosts () h h') (history : List Operation) :
    h.watched history = h'.watched (history.filter fun operation => !operation.setsReports) := by
  have hrun := Comparison.run_abreast performs history hhosts
  rw [List.filterMap_eq_filter] at hrun
  apply hrun.map_eq
  rintro answer answer' ⟨t, hreplies, on, reporter, hlast⟩
  rw [codes_sights_eq hreplies, hlast]
  rfl

/-- Two whole scans that differ in the reports alone. -/
theorem drain_alike {h h' : Host} (hhosts : reports.hosts () h h') {grammar : Grammar}
    {replies replies' : List Reply} (hdrain : h.drain grammar = .ok replies)
    (hdrain' : h'.drain grammar = .ok replies') :
    reports.Series () replies replies' () ∧ reports.hosts () (h.after replies) (h'.after replies') := by
  have hbound : h'.callBound = h.callBound := by
    obtain ⟨on, reporter, rfl⟩ := hhosts
    rfl
  obtain ⟨_, hseries, hlast⟩ :=
    Comparison.answers_of_drain (calls grammar) hhosts hbound hdrain hdrain'
  exact ⟨hseries, hlast⟩

end reports

/-- Two runs of the same operations show the same codes, and the same host after every call and at
the end, so after every operation, if they differ only in the reports: in whether the session starts
out with reports and in its reporter, and in the operations that set the one or the other. -/
theorem Host.watched_reporting (h : Host) (on : Bool) (reporter : Reporter)
    {history history' : List Operation}
    (hsame : history'.filter (fun operation => !operation.setsReports) =
      history.filter (fun operation => !operation.setsReports)) :
    (h.reporting on reporter).watched history' = h.watched history := by
  have hfirst : reports.hosts () h h := ⟨h.session.config.reportErrors, h.session.reporter, rfl⟩
  have hsecond : reports.hosts () (h.reporting on reporter) h :=
    ⟨h.session.config.reportErrors, h.session.reporter, rfl⟩
  rw [reports.watched_filter hfirst history, reports.watched_filter hsecond history', hsame]

/-- One run reports to a sink that is full and then not at all, the other writes to the log and
then lines with a label; both find an unknown letter, a name that no entry has, and a missing
argument. -/
theorem Host.watched_reporting_sinks :
    let h : Host :=
      { session := { reporter := Reporter.failing "full" }
        args := ["prog", "in", "-xa", "--no", "-b"], cells := [7] }
    let grammar : Grammar := ⟨⟨"ab:"⟩, [⟨"name", .required, 110, some 0⟩]⟩
    let history : List Operation :=
      [.call grammar, .setReportErrors false, .collect grammar 9]
    let history' : List Operation :=
      [.setReporter Reporter.log, .call grammar, .setReporter (Reporter.lines "prog"),
        .setReportErrors true, .collect grammar 9]
    history'.filter (fun operation => !operation.setsReports) =
        history.filter (fun operation => !operation.setsReports) ∧
      (h.reporting false Reporter.log).watched history' = h.watched history ∧
      (h.watched history).map (fun shown => shown.1.map fun seen => (seen.1, seen.2.error)) =
        .ok [(some .unknown, some (.unknownLetter 'x')), (some (.ofChar 'a'), none),
          (some .unknown, some (.unknownName "no")),
          (some .unknown, some (.missingLetterArgument 'b')), (none, none)] := by
  intro h grammar history history'
  refine ⟨rfl, ?_, by decide +kernel⟩
  exact Host.watched_reporting h false Reporter.log rfl

end OptionScan
