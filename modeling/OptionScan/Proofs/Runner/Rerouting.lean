import OptionScan.Proofs.Reports
import OptionScan.Proofs.Runner.Printing

/-!
Options in front of a command line that only say where the problems of the scan go. They change the
reports of the session that is run and nothing else of it, so the session finds the same and the
runner exits as it did. What is printed changes only by the lines of the problems themselves, and
only where these go between the lines of the results.
-/

namespace OptionScan

namespace Reply

/-- A reply stands for the item that its code and the sight of its host make. -/
theorem item?_of_seen {reply reply' : Reply} (hcode : reply.code = reply'.code)
    (hsight : reply.host.sight = reply'.host.sight) : reply.item? = reply'.item? := by
  have hargument : reply.host.argumentText? = reply'.host.argumentText? :=
    congrArg Sight.argument hsight
  have hentry : reply.host.session.entryIndex = reply'.host.session.entryIndex :=
    congrArg Sight.entryIndex hsight
  have herror : reply.host.session.lastError = reply'.host.session.lastError :=
    congrArg Sight.error hsight
  unfold Host.argumentText? at hargument
  rw [item?, item?, hcode, hargument, hentry, herror]

end Reply

namespace Runner

theorem result?_of_seen {reply reply' : Reply} (hcode : reply.code = reply'.code)
    (hsight : reply.host.sight = reply'.host.sight) : result? reply = result? reply' := by
  have hculprit : reply.host.session.culprit = reply'.host.session.culprit :=
    congrArg Sight.culprit hsight
  rw [result?, result?, Reply.item?_of_seen hcode hsight, hculprit]

theorem printed_eq (mixed : Bool) (config : Config) (letters : OptionString) (reply : Reply) :
    printed mixed config letters reply =
      (if mixed && config.reportErrors && !letters.silent then
        ((reply.item?.bind Item.error).map diagnosticLine).toList else []) ++
        ((result? reply).map Result.line).toList := by
  unfold printed Reply.reported
  cases mixed with
  | false => rfl
  | true => by_cases hreported : config.reportErrors && !letters.silent <;> simp [hreported]

/-- What a call prints hangs on what is seen of it. -/
theorem flatMap_printed_of_series {replies replies' : List Reply} {t u : Unit}
    (h : reports.Series t replies replies' u) (mixed : Bool) (config : Config)
    (letters : OptionString) :
    replies.flatMap (printed mixed config letters) =
      replies'.flatMap (printed mixed config letters) := by
  induction h with
  | nil => rfl
  | cons hfirst _ ih =>
    obtain ⟨hcode, hsight⟩ := hfirst
    rw [List.flatMap_cons, List.flatMap_cons, ih, printed_eq, printed_eq,
      Reply.item?_of_seen hcode hsight, result?_of_seen hcode hsight]

/-- The option has a say in where the problems of the scan go, or in whether they are reported, and
in nothing else. -/
def Choice.routes : Choice → Bool
  | .switch .quiet | .switch .log | .parameter .sink _ => true
  | .switch .strict | .parameter .entry _ | .parameter .flag _ => false

namespace CommandLine

def prepend (line : CommandLine) (clusters : List Cluster) : CommandLine :=
  { line with clusters := clusters ++ line.clusters }

theorem elements_prepend (line : CommandLine) (clusters : List Cluster) :
    (line.prepend clusters).elements =
      clusters.flatMap Cluster.elements ++ line.elements := by
  simp only [elements, prepend, List.flatMap_append, List.append_assoc]
  rfl

theorem choices_prepend (line : CommandLine) (clusters : List Cluster) :
    (line.prepend clusters).choices = clusters.flatMap Cluster.choices ++ line.choices := by
  simp only [choices, prepend, List.flatMap_append]

end CommandLine

/-- Problems are reported, and to standard output. -/
def CommandLine.interleaves (line : CommandLine) (environment : Environment) : Bool :=
  environment.mixes line.sink && !line.has .quiet

/-- No option of a command line is a problem. -/
theorem usable_commandLine (line : CommandLine) :
    Usable ((parse grammar .stop line.elements).findings .stop) := by
  rw [findings_commandLine]
  intro finding hfinding
  obtain ⟨choice, _, rfl⟩ := List.mem_map.mp hfinding
  cases choice <;> rfl

/-- What stands behind an element of the runner is a command line if the whole is one. -/
theorem exists_commandLine_behind {cluster : Cluster} {args : List String}
    (h : ∃ line : CommandLine, line.elements = cluster.elements ++ args) :
    ∃ line : CommandLine, line.elements = args := by
  obtain ⟨line, hline⟩ := h
  have husable := usable_commandLine line
  have hrest : (parse grammar .stop line.elements).rest ≠ [] := by
    rw [parse_commandLine]
    exact List.cons_ne_nil _ _
  rw [hline, cluster.parse_elements] at husable hrest
  rw [Parse.findings_cons] at husable
  exact exists_commandLine args (List.forall_mem_append.mp husable).2 hrest

theorem exists_commandLine_prepend_iff (clusters : List Cluster) (args : List String) :
    (∃ line : CommandLine, line.elements = clusters.flatMap Cluster.elements ++ args) ↔
      ∃ line : CommandLine, line.elements = args := by
  constructor
  · intro h
    induction clusters with
    | nil => exact h
    | cons cluster more ih =>
      rw [List.flatMap_cons, List.append_assoc] at h
      exact ih (exists_commandLine_behind h)
  · rintro ⟨line, rfl⟩
    exact ⟨line.prepend clusters, line.elements_prepend clusters⟩

namespace CommandLine

section Prepend

variable {clusters : List Cluster}
  (hroutes : ∀ choice ∈ clusters.flatMap Cluster.choices, choice.routes)
include hroutes

theorem settings_prepend (line : CommandLine) (environment : Environment) :
    (line.prepend clusters).settings environment =
      { line.settings environment with
        config :=
          { strict := (line.settings environment).config.strict
            reportErrors := !(line.prepend clusters).has .quiet }
        sink := (line.prepend clusters).sink } := by
  have hstrict : (line.prepend clusters).has .strict = line.has .strict := by
    have hnot : Choice.switch .strict ∉ clusters.flatMap Cluster.choices := by
      intro hmem
      have hfalse := hroutes _ hmem
      cases hfalse
    simp [has, choices_prepend, hnot]
  have htexts (p : Parameter) (hp : p ≠ .sink) :
      (line.prepend clusters).texts p = line.texts p := by
    have hnone : (clusters.flatMap Cluster.choices).filterMap (Choice.text? p) = [] := by
      rw [List.filterMap_eq_nil_iff]
      intro choice hmem
      have hroute := hroutes choice hmem
      cases choice with
      | switch s => rfl
      | parameter q text =>
        cases q with
        | sink => exact if_neg (Ne.symm hp)
        | entry => cases hroute
        | flag => cases hroute
    rw [texts, choices_prepend, List.filterMap_append, hnone, List.nil_append, texts]
  rw [settings_eq, settings_eq, hstrict, htexts .entry (by decide), htexts .flag (by decide)]

theorem host_prepend (line : CommandLine) (environment : Environment) :
    (line.prepend clusters).host environment =
      (line.host environment).reporting (!(line.prepend clusters).has .quiet)
        (environment.reporter (line.prepend clusters).sink) := by
  rw [host, settings_prepend hroutes]
  rfl

theorem scanGrammar_prepend (line : CommandLine) (environment : Environment) :
    (line.prepend clusters).scanGrammar environment = line.scanGrammar environment := by
  rw [scanGrammar, settings_prepend hroutes]
  rfl

section Drained

variable {line : CommandLine} {environment : Environment} {replies replies' : List Reply}
  (hdrained : line.Drained environment replies)
  (hdrained' : (line.prepend clusters).Drained environment replies')
include hdrained hdrained'

/-- The sessions of a command line with and without more options in front, when both have come to
their end: the calls find the same, and leave the same behind. -/
theorem alike_prepend :
    (∀ mixed config letters, replies'.flatMap (printed mixed config letters) =
        replies.flatMap (printed mixed config letters)) ∧
      ((line.prepend clusters).finalTranscript environment replies').closing =
        (line.finalTranscript environment replies).closing := by
  have hhosts : reports.hosts () (line.host environment)
      ((line.prepend clusters).host environment) :=
    ⟨_, _, host_prepend hroutes line environment⟩
  have hdrain' := hdrained'.drain_eq
  rw [scanGrammar_prepend hroutes] at hdrain'
  obtain ⟨hseries, on, reporter, hlast⟩ := reports.drain_alike hhosts hdrained.drain_eq hdrain'
  constructor
  · intro mixed config letters
    exact (flatMap_printed_of_series hseries mixed config letters).symm
  · rw [finalTranscript, finalTranscript, hlast, settings_prepend hroutes]
    rfl

theorem outputText_apart (hmixes : environment.mixes line.sink = false)
    (hmixes' : environment.mixes (line.prepend clusters).sink = false) :
    outputText environment (line.prepend clusters).sink replies'
        ((line.prepend clusters).finalTranscript environment replies') =
      outputText environment line.sink replies (line.finalTranscript environment replies) := by
  obtain ⟨hcalls, hclosing⟩ := alike_prepend hroutes hdrained hdrained'
  have hresults := hcalls false {} ⟨""⟩
  rw [flatMap_printed_false, flatMap_printed_false] at hresults
  have hlines : ((line.prepend clusters).finalTranscript environment replies').lines =
      (line.finalTranscript environment replies).lines := by
    rw [Transcript.lines, Transcript.lines, hclosing]
    exact congrArg (· ++ _) hresults
  rw [outputText, outputText, hmixes, hmixes']
  exact congrArg unlines hlines

/-- Where both report their problems to standard output, or neither does, it is one session. -/
theorem outputText_mixed (hmixes : environment.mixes line.sink)
    (hmixes' : environment.mixes (line.prepend clusters).sink)
    (hquiet : (line.prepend clusters).has .quiet = line.has .quiet) :
    outputText environment (line.prepend clusters).sink replies'
        ((line.prepend clusters).finalTranscript environment replies') =
      outputText environment line.sink replies (line.finalTranscript environment replies) := by
  have hhost : (line.prepend clusters).host environment = line.host environment := by
    have hreporter : environment.reporter (line.prepend clusters).sink =
        environment.reporter line.sink := by
      rw [Environment.reporter_of_mixes hmixes, Environment.reporter_of_mixes hmixes']
    rw [host_prepend hroutes, hquiet, hreporter, host, line.settings_eq environment]
    rfl
  have hdrain' := hdrained'.drain_eq
  rw [hhost, scanGrammar_prepend hroutes, hdrained.drain_eq] at hdrain'
  obtain rfl : replies = replies' := Except.ok.inj hdrain'
  have hfinal : (line.prepend clusters).finalTranscript environment replies =
      line.finalTranscript environment replies := by
    rw [finalTranscript, hhost, settings_prepend hroutes]
    rfl
  rw [hfinal, outputText, outputText, hmixes, hmixes']

/-- The second session, with the lines that the calls of the first would add to its output. -/
theorem outputText_streams (hstreams : environment.Streams) :
    outputText environment (line.prepend clusters).sink replies'
        ((line.prepend clusters).finalTranscript environment replies') =
      unlines ((line.prepend clusters).callLines environment replies ++
        (line.finalTranscript environment replies).closing) := by
  obtain ⟨hcalls, hclosing⟩ := alike_prepend hroutes hdrained hdrained'
  rw [outputText_eq_unlines hdrained' fun _ => hstreams, callLines, hcalls, hclosing]
  rfl

/-- Both print the same if the problems stand between the lines in both or in neither. -/
theorem outputText_prepend
    (hsame : (line.prepend clusters).interleaves environment = line.interleaves environment)
    (hmixes : environment.mixes (line.prepend clusters).sink = environment.mixes line.sink ∨
      environment.Streams) :
    outputText environment (line.prepend clusters).sink replies'
        ((line.prepend clusters).finalTranscript environment replies') =
      outputText environment line.sink replies (line.finalTranscript environment replies) := by
  rcases hmixes with hmixes | hstreams
  · cases hown : environment.mixes line.sink with
    | false => exact outputText_apart hroutes hdrained hdrained' hown (hmixes.trans hown)
    | true =>
      apply outputText_mixed hroutes hdrained hdrained' hown (hmixes.trans hown)
      simpa [interleaves, hmixes, hown] using hsame
  · have hreports (other : CommandLine) :
        (environment.mixes other.sink && (other.settings environment).config.reportErrors) =
          other.interleaves environment := by
      rw [other.settings_eq environment]
      rfl
    have hprinted (letters : OptionString) :
        printed (environment.mixes (line.prepend clusters).sink)
            ((line.prepend clusters).settings environment).config letters =
          printed (environment.mixes line.sink) (line.settings environment).config letters := by
      funext reply
      rw [printed_eq, printed_eq, hreports, hreports, hsame]
    rw [outputText_streams hroutes hdrained hdrained' hstreams,
      outputText_eq_unlines hdrained fun _ => hstreams, callLines, callLines,
      scanGrammar_prepend hroutes, hprinted]

end Drained

end Prepend

end CommandLine

end Runner

end OptionScan
