import OptionScan.Proofs.Histories

/-!
The diagnostics of a call, and of a history. A call that ends with a problem lets the reporter have
its say once, if problems are reported and the option string is not silent. No other call puts
anything into the diagnostic sink. So over a whole history, in which reports are turned on and off
and the option strings change, a reporter that stays writes one line for each such call, in order.
-/

namespace OptionScan

def Reply.reported (config : Config) (letters : OptionString) (reply : Reply) :
    Option OptionError :=
  if config.reportErrors && !letters.silent then reply.item?.bind Item.error else none

namespace Host

variable {h : Host} {grammar : Grammar} {reply : Reply}

theorem call_diagnostics (hcall : h.call grammar = .ok reply) :
    Output.diagnostics reply.outputs =
      ((reply.reported h.session.config grammar.letters).map fun error =>
        Output.diagnostics (h.session.reporter error)).getD "" := by
  obtain ⟨r, hreading, rfl⟩ := exists_reading_of_call hcall
  have hquiet : r.walk.Quiet := Session.read_quiet hreading
  rw [diagnostics_reply h grammar r hquiet, Reply.reported, reply_item?]
  cases r.finding? with
  | none => simp
  | some finding =>
    cases finding with
    | found code argument entryIndex store => simp [Finding.diagnostics, Finding.item]
    | failed error culprit =>
      simp only [Option.map_some, Option.getD_some, Finding.diagnostics]
      split <;> rfl

theorem collect_diagnostics {limit : Nat} {replies : List Reply}
    (hcollect : h.collect grammar limit = .ok replies) :
    ∀ reply ∈ replies, Output.diagnostics reply.outputs =
      ((reply.reported h.session.config grammar.letters).map fun error =>
        Output.diagnostics (h.session.reporter error)).getD "" := by
  intro reply hreply
  obtain ⟨before, hcall, hconfig, hreporter, _⟩ := exists_call_of_collect hcollect reply hreply
  rw [← hconfig, ← hreporter]
  exact call_diagnostics hcall

end Host

def Operation.switch (before : Bool) : Operation → Bool
  | .setReportErrors on => on
  | _ => before

def Operation.audible : Operation → Bool
  | .call grammar | .collect grammar _ => !grammar.letters.silent
  | _ => false

/-- The problems that the calls of an operation have found, if they are to be reported. -/
def Operation.heard (on : Bool) (operation : Operation) (replies : List Reply) :
    List OptionError :=
  if on && operation.audible then replies.filterMap fun reply => reply.host.session.lastError
  else []

/-- The problems that the calls of a history find while problems are reported, with an option
string that is not silent. -/
def Host.heard (h : Host) (on : Bool) : List Operation → Except Fault (List OptionError)
  | [] => .ok []
  | operation :: history => do
    let (replies, next) ← h.perform operation
    let later ← next.heard (operation.switch on) history
    .ok (operation.heard on replies ++ later)

def diagnosticText (label : String) (problems : List OptionError) : String :=
  String.join (problems.map fun problem => label ++ ": " ++ problem.message ++ "\n")

theorem diagnosticText_append (label : String) (first more : List OptionError) :
    diagnosticText label (first ++ more) =
      diagnosticText label first ++ diagnosticText label more := by
  simp [diagnosticText, String.join_append]

/-- A list of calls of which each puts the line of its problem into the sink, if it has one. -/
theorem diagnostics_flatMap {label : String} {problem? : Reply → Option OptionError}
    {replies : List Reply} (heach : ∀ reply ∈ replies, Output.diagnostics reply.outputs =
      diagnosticText label (problem? reply).toList) :
    Output.diagnostics (replies.flatMap Reply.outputs) =
      diagnosticText label (replies.filterMap problem?) := by
  induction replies with
  | nil => rfl
  | cons reply rest ih =>
    obtain ⟨hfirst, hrest⟩ := List.forall_mem_cons.mp heach
    rw [List.flatMap_cons, Output.diagnostics_append, hfirst, ih hrest, ← diagnosticText_append]
    congr 1
    cases hproblem : problem? reply with
    | none => simp [hproblem]
    | some problem => simp [hproblem]

namespace Host

variable {h : Host} {grammar : Grammar} {reply : Reply} {replies : List Reply} {label : String}

theorem call_settings (hcall : h.call grammar = .ok reply) :
    reply.host.session.config = h.session.config ∧
      reply.host.session.reporter = h.session.reporter := by
  obtain ⟨r, _, rfl⟩ := exists_reading_of_call hcall
  exact ⟨reply_config h grammar r, reply_reporter h grammar r⟩

/-- The problem of a call is known to the session after it. -/
theorem call_lastError (hcall : h.call grammar = .ok reply) :
    reply.item?.bind Item.error = reply.host.session.lastError := by
  obtain ⟨r, _, rfl⟩ := exists_reading_of_call hcall
  unfold Host.reply Session.conclude
  cases r.outcome <;> rfl

end Host

def Reply.heard (on : Bool) (letters : OptionString) (reply : Reply) : Option OptionError :=
  if on && !letters.silent then reply.host.session.lastError else none

theorem Operation.heard_eq (on : Bool) {operation : Operation} {letters : OptionString}
    (haudible : operation.audible = !letters.silent) (replies : List Reply) :
    operation.heard on replies = replies.filterMap (Reply.heard on letters) := by
  unfold Operation.heard Reply.heard
  rw [haudible]
  split
  · rfl
  · simp

namespace Host

variable {h : Host} {grammar : Grammar} {reply : Reply} {replies : List Reply} {label : String}

theorem call_line (hreporter : h.session.reporter = .lines label)
    (hcall : h.call grammar = .ok reply) :
    Output.diagnostics reply.outputs = diagnosticText label
      (reply.heard h.session.config.reportErrors grammar.letters).toList := by
  rw [call_diagnostics hcall, Reply.reported, call_lastError hcall, Reply.heard, hreporter]
  split
  · cases reply.host.session.lastError with
    | none => rfl
    | some problem => simp [diagnosticText, Reporter.lines, Reporter.texts, Output.diagnostics]
  · rfl

theorem collect_lines {limit : Nat} (hreporter : h.session.reporter = .lines label)
    (hcollect : h.collect grammar limit = .ok replies) :
    Output.diagnostics (replies.flatMap Reply.outputs) = diagnosticText label
      (replies.filterMap (Reply.heard h.session.config.reportErrors grammar.letters)) := by
  apply diagnostics_flatMap
  intro reply hreply
  obtain ⟨before, hcall, hconfig, hreporter', _⟩ :=
    exists_call_of_collect hcollect reply hreply
  rw [← hconfig]
  exact call_line (hreporter'.trans hreporter) hcall

/-- What the calls of a scan leave of the settings and the reporter. -/
theorem collect_settings {limit : Nat} (hcollect : h.collect grammar limit = .ok replies) :
    (h.after replies).session.config = h.session.config ∧
      (h.after replies).session.reporter = h.session.reporter := by
  unfold after
  cases hlast : replies.getLast? with
  | none => exact ⟨rfl, rfl⟩
  | some last =>
    obtain ⟨before, hcall, hconfig, hreporter, _⟩ :=
      exists_call_of_collect hcollect last (List.mem_of_getLast? hlast)
    obtain ⟨hconfig', hreporter'⟩ := call_settings hcall
    exact ⟨hconfig'.trans hconfig, hreporter'.trans hreporter⟩

/-- An operation that leaves the reporter in place has it write a line for each problem that is to
be reported. -/
theorem perform_lines {operation : Operation} {next : Host}
    (hreporter : h.session.reporter = .lines label)
    (hkeeps : ∀ reporter, operation ≠ .setReporter reporter)
    (hperform : h.perform operation = .ok (replies, next)) :
    Output.diagnostics (replies.flatMap Reply.outputs) =
        diagnosticText label (operation.heard h.session.config.reportErrors replies) ∧
      next.session.reporter = .lines label ∧
      next.session.config.reportErrors = operation.switch h.session.config.reportErrors := by
  have hsilence (operation : Operation) (on : Bool) :
      Output.diagnostics [] = diagnosticText label (operation.heard on []) := by
    simp [Operation.heard, diagnosticText, Output.diagnostics]
  cases operation with
  | call grammar =>
    obtain ⟨reply, hcall, hreplies⟩ := exists_of_bind_ok hperform
    cases hreplies
    obtain ⟨hconfig, hsame⟩ := call_settings hcall
    refine ⟨?_, hsame.trans hreporter, congrArg Config.reportErrors hconfig⟩
    rw [Operation.heard_eq _ rfl]
    exact diagnostics_flatMap (List.forall_mem_singleton.mpr (call_line hreporter hcall))
  | collect grammar limit =>
    obtain ⟨all, hcollect, hreplies⟩ := exists_of_bind_ok hperform
    cases hreplies
    obtain ⟨hconfig, hsame⟩ := collect_settings hcollect
    refine ⟨?_, hsame.trans hreporter, congrArg Config.reportErrors hconfig⟩
    rw [Operation.heard_eq _ rfl]
    exact collect_lines hreporter hcollect
  | setReporter reporter => exact absurd rfl (hkeeps reporter)
  | _ =>
    cases hperform
    exact ⟨hsilence _ _, hreporter, rfl⟩

/-- A reporter that writes lines with a label stays in its place over a history of operations,
whatever came before. It writes one line for each call that ends with a problem while problems are
reported, with an option string that is not silent, in the order of the calls. -/
theorem run_reports {history : List Operation} {last : Host}
    (hreporter : h.session.reporter = .lines label)
    (hkeeps : ∀ reporter, .setReporter reporter ∉ history)
    (hrun : h.run history = .ok (replies, last)) :
    ∃ problems, h.heard h.session.config.reportErrors history = .ok problems ∧
      Output.diagnostics (replies.flatMap Reply.outputs) = diagnosticText label problems := by
  induction history generalizing h replies with
  | nil =>
    cases hrun
    exact ⟨[], rfl, rfl⟩
  | cons operation history ih =>
    obtain ⟨⟨first, next⟩, hperform, hrest⟩ := exists_of_bind_ok hrun
    obtain ⟨⟨more, last'⟩, hmore, hreplies⟩ := exists_of_bind_ok hrest
    cases hreplies
    have hstays (reporter : Reporter) : operation ≠ .setReporter reporter :=
      fun hsets => hkeeps reporter (hsets ▸ List.mem_cons_self)
    obtain ⟨hfirst, hnext, hswitch⟩ := perform_lines hreporter hstays hperform
    obtain ⟨later, hlater, hlines⟩ :=
      ih hnext (fun reporter hmem => hkeeps reporter (List.mem_cons_of_mem _ hmem)) hmore
    refine ⟨operation.heard h.session.config.reportErrors first ++ later, ?_, ?_⟩
    · simp only [heard, hperform, bind, Except.bind, ← hswitch, hlater]
    · rw [List.flatMap_append, Output.diagnostics_append, hfirst, hlines, diagnosticText_append]

/-- Reports are turned off for one call and on again, and one call is given a silent option string;
all three have a problem, and so have two of the calls of the scan that follows. -/
theorem run_reports_toggled :
    let h : Host :=
      { session := { reporter := .lines "prog" }
        args := ["prog", "-xyb", "in", "-b", "--name=v", "--no", "-z"] }
    let table : LongTable := [⟨"name", .none, 110, none⟩]
    let history : List Operation :=
      [.call ⟨⟨"ab:"⟩, table⟩, .setReportErrors false, .call ⟨⟨"ab:"⟩, table⟩,
        .setReportErrors true, .call ⟨⟨"-:ac:"⟩, table⟩, .collect ⟨⟨"ab:"⟩, table⟩ 3]
    ∃ replies last, (∀ reporter, .setReporter reporter ∉ history) ∧
      h.run history = .ok (replies, last) ∧
      replies.map (fun reply => reply.host.session.lastError) =
        [some (.unknownLetter 'x'), some (.unknownLetter 'y'), some (.unknownLetter 'b'), none,
          some (.unknownName "no"), some (.unknownLetter 'z')] ∧
      h.heard true history =
        .ok [.unknownLetter 'x', .unknownName "no", .unknownLetter 'z'] ∧
      Output.diagnostics (replies.flatMap Reply.outputs) =
        "prog: unknown option -- x\nprog: unknown option -- no\nprog: unknown option -- z\n" := by
  intro h table history
  have hkeeps (reporter : Reporter) : .setReporter reporter ∉ history := by simp [history]
  have hshown : (h.run history).map (fun answer =>
      answer.1.map fun reply => reply.host.session.lastError) =
        .ok [some (.unknownLetter 'x'), some (.unknownLetter 'y'), some (.unknownLetter 'b'), none,
          some (.unknownName "no"), some (.unknownLetter 'z')] := by
    decide +kernel
  have hheard : h.heard true history =
      .ok [.unknownLetter 'x', .unknownName "no", .unknownLetter 'z'] := by
    decide +kernel
  cases hrun : h.run history with
  | error fault =>
    rw [hrun] at hshown
    cases hshown
  | ok answer =>
    obtain ⟨replies, last⟩ := answer
    rw [hrun] at hshown
    have hreporter : h.session.reporter = .lines "prog" := rfl
    obtain ⟨problems, hproblems, hlines⟩ := run_reports hreporter hkeeps hrun
    obtain rfl := Except.ok.inj (hproblems.symm.trans hheard)
    exact ⟨replies, last, hkeeps, rfl, Except.ok.inj hshown, hheard, hlines⟩

end Host

end OptionScan
