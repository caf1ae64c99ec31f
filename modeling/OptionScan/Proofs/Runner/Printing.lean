import OptionScan.Proofs.Diagnostics
import OptionScan.Proofs.Runner.Acceptance

/-!
What the runner prints, line by line. Each call of the scan adds the line of its result; where the
diagnostics go to standard output as well, the diagnostic of a call stands in front of that line.
The lines of the flag cells, the cursor and the vector come last.
-/

namespace OptionScan

theorem exists_of_map_ok {α β : Type} {x : Except Fault α} {f : α → β} {b : β}
    (h : x.map f = .ok b) : ∃ a, x = .ok a ∧ f a = b := by
  cases x with
  | error fault => cases h
  | ok a => exact ⟨a, rfl, Except.ok.inj h⟩

theorem unlines_append (first second : List String) :
    unlines (first ++ second) = unlines first ++ unlines second := by
  induction first with
  | nil => exact String.empty_append.symm
  | cons line rest ih => simp only [List.cons_append, unlines, ih, String.append_assoc]

namespace Runner

def diagnosticLine (error : OptionError) : String :=
  Reporter.defaultLabel ++ ": " ++ error.message

/-- The lines that a call adds to standard output, its diagnostic among them or not. -/
def printed (mixed : Bool) (config : Config) (letters : OptionString) (reply : Reply) :
    List String :=
  (if mixed then ((reply.reported config letters).map diagnosticLine).toList else []) ++
    ((result? reply).map Result.line).toList

/-- Where the diagnostics go elsewhere, the lines are those of the results. -/
theorem flatMap_printed_false (config : Config) (letters : OptionString) (replies : List Reply) :
    replies.flatMap (printed false config letters) =
      (replies.filterMap result?).map Result.line := by
  rw [List.map_filterMap, List.filterMap_eq_flatMap_toList]
  rfl

namespace Piece

theorem stream_cons (piece : Piece) (rest : List Piece) :
    stream (piece :: rest) = piece.text ++ stream rest := by
  rw [stream, List.map_cons, String.join_cons]
  rfl

theorem stream_append (first second : List Piece) :
    stream (first ++ second) = stream first ++ stream second := by
  rw [stream, List.map_append, String.join_append]
  rfl

theorem stream_lines (lines : List String) : stream (lines.map line) = unlines lines := by
  induction lines with
  | nil => rfl
  | cons first rest ih =>
    rw [List.map_cons, stream_cons, ih]
    rfl

theorem stream_diagnostics (outputs : List Output) :
    stream (outputs.filterMap diagnosticPiece?) = Output.diagnostics outputs := by
  induction outputs with
  | nil => rfl
  | cons output rest ih =>
    cases output with
    | diagnostic text =>
      show stream (diagnostic text :: rest.filterMap diagnosticPiece?) = _
      rw [stream_cons, ih]
      rfl
    | event event => exact ih

end Piece

section Stream

variable {config : Config} {letters : OptionString}

/-- What a call writes to a stream is lines, the diagnostic in front. -/
theorem stream_replyPieces {reply : Reply}
    (hdiagnostics : Output.diagnostics reply.outputs =
      ((reply.reported config letters).map fun error =>
        Output.diagnostics (Reporter.lines Reporter.defaultLabel error)).getD "") :
    Piece.stream (replyPieces reply) = unlines (printed true config letters reply) := by
  have hresult : ((result? reply).map fun result => Piece.line result.line).toList =
      ((result? reply).map Result.line).toList.map Piece.line := by
    cases result? reply <;> rfl
  rw [replyPieces, hresult, Piece.stream_append, Piece.stream_diagnostics, Piece.stream_lines,
    hdiagnostics, printed, if_pos rfl, unlines_append]
  cases reply.reported config letters with
  | none => rfl
  | some error =>
    simp [Reporter.lines, Reporter.texts, Output.diagnostics, unlines, diagnosticLine]

theorem stream_flatMap_replyPieces {replies : List Reply}
    (hdiagnostics : ∀ reply ∈ replies, Output.diagnostics reply.outputs =
      ((reply.reported config letters).map fun error =>
        Output.diagnostics (Reporter.lines Reporter.defaultLabel error)).getD "") :
    Piece.stream (replies.flatMap replyPieces) =
      unlines (replies.flatMap (printed true config letters)) := by
  induction replies with
  | nil => rfl
  | cons reply rest ih =>
    obtain ⟨hreply, hrest⟩ := List.forall_mem_cons.mp hdiagnostics
    rw [List.flatMap_cons, List.flatMap_cons, Piece.stream_append, unlines_append,
      stream_replyPieces hreply, ih hrest]

end Stream

namespace Environment

variable {environment : Environment} {sink : Sink}

theorem reporter_of_mixes (hmixes : environment.mixes sink) :
    environment.reporter sink = .lines Reporter.defaultLabel := by
  rw [reporter, eq_of_beq hmixes]
  rfl

/-- What a scan leaves on standard output is lines, if that is a stream wherever the diagnostics go
there too. -/
theorem outputText_eq_unlines {config : Config} {letters : OptionString} {replies : List Reply}
    (hstreams : environment.mixes sink → environment.Streams)
    (hdiagnostics : ∀ reply ∈ replies, Output.diagnostics reply.outputs =
      ((reply.reported config letters).map fun error =>
        Output.diagnostics (environment.reporter sink error)).getD "")
    (t : Transcript) (hresults : t.results = replies.filterMap result?) :
    outputText environment sink replies t =
      unlines (replies.flatMap (printed (environment.mixes sink) config letters) ++ t.closing) := by
  cases hmixes : environment.mixes sink with
  | false =>
    rw [outputText, hmixes, flatMap_printed_false, ← hresults]
    rfl
  | true =>
    rw [reporter_of_mixes hmixes] at hdiagnostics
    rw [outputText, if_pos hmixes, hstreams hmixes, Piece.stream_append, Piece.stream_lines,
      stream_flatMap_replyPieces hdiagnostics, unlines_append]

end Environment

namespace CommandLine

variable (line : CommandLine) (environment : Environment)

def host : Host :=
  (line.settings environment).host environment line.args

def scanGrammar : Grammar :=
  ⟨⟨line.optionString⟩, (line.settings environment).boundTable⟩

/-- The lines of the calls of the session, as far as they go to standard output. -/
def callLines (replies : List Reply) : List String :=
  replies.flatMap (printed (environment.mixes line.sink) (line.settings environment).config
    (line.scanGrammar environment).letters)

def finalTranscript (replies : List Reply) : Transcript :=
  transcript (line.settings environment).flagNames replies
    ((line.host environment).after replies)

def Drained (replies : List Reply) : Prop :=
  let policy := (line.settings environment).config.policy (line.scanGrammar environment).letters
  (line.host environment).Drained (line.scanGrammar environment) 1 policy
    (parse (line.scanGrammar environment) policy line.args) replies

/-- A command line is run to its end, and what is printed is what the scan leaves. -/
theorem exists_run :
    ∃ replies report, line.Drained environment replies ∧
      run environment line.elements = .ok report ∧ report.exit = 0 ∧
      report.stdout = outputText environment line.sink replies
        (line.finalTranscript environment replies) := by
  obtain ⟨stderr, hrun⟩ := run_commandLine environment line
  obtain ⟨replies, hdrained, report, hscan, hexit, hstdout⟩ :=
    exists_scan environment (line.settings environment) line.optionString line.args
  rw [hscan] at hrun
  rw [line.sink_settings environment] at hstdout
  exact ⟨replies, _, hdrained, hrun, hexit, hstdout⟩

variable {line environment}

/-- What is printed is the lines of the calls and the closing lines. -/
theorem outputText_eq_unlines {replies : List Reply} (hdrained : line.Drained environment replies)
    (hstreams : environment.mixes line.sink → environment.Streams) :
    outputText environment line.sink replies (line.finalTranscript environment replies) =
      unlines (line.callLines environment replies ++
        (line.finalTranscript environment replies).closing) := by
  have hdiagnostics := Host.collect_diagnostics hdrained.drain_eq
  rw [CommandLine.host, Settings.host, line.sink_settings environment] at hdiagnostics
  exact Environment.outputText_eq_unlines hstreams hdiagnostics _ rfl

end CommandLine

end Runner

end OptionScan
