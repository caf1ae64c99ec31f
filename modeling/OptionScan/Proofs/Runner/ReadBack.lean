import OptionScan.Proofs.Cells
import OptionScan.Proofs.Quotations
import OptionScan.Proofs.Transcripts
import OptionScan.Proofs.Runner.Printing

/-!
What a run prints is read back. Every line that a call adds is a line of text without a key, as all
that it quotes is taken from the arguments; the closing lines name the flags and show numbers that
fit. So the lines of the calls, the cursor, the vector and the cells are those of the session.
-/

namespace OptionScan.Runner

theorem unkeyed_diagnosticLine (error : OptionError) : Unkeyed (diagnosticLine error) := by
  rw [diagnosticLine, String.append_assoc]
  exact unkeyed_front (by decide) _

theorem unbroken_diagnosticLine {error : OptionError} (hsubject : Unbroken error.subject) :
    Unbroken (diagnosticLine error) := by
  have hcomplaint : Unbroken error.complaint := by
    cases error <;> simp only [OptionError.complaint] <;> decide
  exact Unbroken.append (by decide) ((hcomplaint.append (by decide)).append hsubject)

section Printed

variable (mixed : Bool) (config : Config) (letters : OptionString) (reply : Reply)

theorem mem_printed {line : String} (h : line ∈ printed mixed config letters reply) :
    ∃ item ∈ reply.item?, (∃ error ∈ item.error, line = diagnosticLine error) ∨
      ∃ result : Result, result.argument = item.argument ∧ line = result.line := by
  rcases List.mem_append.mp h with h | h
  · split at h
    · obtain ⟨error, herror, rfl⟩ := Option.map_eq_some_iff.mp (Option.mem_toList.mp h)
      unfold Reply.reported at herror
      split at herror
      · obtain ⟨item, hitem, herror⟩ := Option.bind_eq_some_iff.mp herror
        exact ⟨item, hitem, Or.inl ⟨error, herror, rfl⟩⟩
      · cases herror
    · cases h
  · obtain ⟨result, hresult, rfl⟩ := Option.map_eq_some_iff.mp (Option.mem_toList.mp h)
    obtain ⟨item, hitem, rfl⟩ := Option.map_eq_some_iff.mp hresult
    exact ⟨item, hitem, Or.inr ⟨_, rfl, rfl⟩⟩

theorem unkeyed_printed : ∀ line ∈ printed mixed config letters reply, Unkeyed line := by
  intro line hline
  obtain ⟨item, _, ⟨error, _, rfl⟩ | ⟨result, _, rfl⟩⟩ :=
    mem_printed mixed config letters reply hline
  · exact unkeyed_diagnosticLine error
  · exact result.unkeyed_line

theorem unbroken_printed
    (hitem : ∀ item ∈ reply.item?, (∀ text ∈ item.argument, Unbroken text) ∧
      ∀ error ∈ item.error, Unbroken error.subject) :
    ∀ line ∈ printed mixed config letters reply, Unbroken line := by
  intro line hline
  obtain ⟨item, hmem, ⟨error, herror, rfl⟩ | ⟨result, hargument, rfl⟩⟩ :=
    mem_printed mixed config letters reply hline
  · exact unbroken_diagnosticLine ((hitem item hmem).2 error herror)
  · apply Result.unbroken_line
    rw [hargument]
    exact (hitem item hmem).1

end Printed

/-- The value next to the first occurrence of a name. -/
theorem lookup_zip (names : List String) (values : List Int) (name : String) :
    (names.zip values).lookup name = (names.idxOf? name).bind (values[·]?) := by
  induction names generalizing values with
  | nil => rfl
  | cons first rest ih =>
    cases values with
    | nil => simp
    | cons value more =>
      rw [List.zip_cons_cons, List.lookup_cons, List.idxOf?_cons]
      by_cases heq : name = first
      · simp [heq]
      · rw [beq_eq_false_iff_ne.mpr heq, beq_eq_false_iff_ne.mpr (Ne.symm heq)]
        simpa [Option.bind_map, Function.comp_def] using ih more

/-- The code of a character is small. -/
theorem firstCode_bounds (text : String) : 0 ≤ firstCode text ∧ firstCode text < 2 ^ 31 := by
  unfold firstCode
  split
  · decide
  · next c _ _ =>
    have hvalid := c.valid
    simp only [UInt32.isValidChar, Nat.isValidChar] at hvalid
    show 0 ≤ (c.val.toNat : Int) ∧ (c.val.toNat : Int) < 2 ^ 31
    omega

namespace CommandLine

section Drained

variable {line : CommandLine} {environment : Environment} {replies : List Reply}
  (hdrained : line.Drained environment replies)
include hdrained

/-- A scan puts the arguments into another order, at most. -/
theorem perm_args : (line.finalTranscript environment replies).args.Perm line.args :=
  Host.Drained.perm_drop hdrained (Nat.le_add_left 1 _)

theorem cursor_le : (line.finalTranscript environment replies).cursor ≤ line.args.length + 1 :=
  Host.Drained.cursor_le hdrained (Nat.le_add_left 1 _)

/-- The values of the declared entries are codes of characters, and nothing else is stored. -/
theorem cells_after :
    let cells := ((line.host environment).after replies).cells
    cells.length = (line.texts .flag).length ∧ ∀ value ∈ cells, 0 ≤ value ∧ value < 2 ^ 31 := by
  intro cells
  have hcells : cells = _ := Host.collect_cells hdrained.drain_eq
  have hsettings := line.settings_eq environment
  constructor
  · rw [hcells, Store.length_applyMatches]
    simp [host, Settings.host, hsettings]
  · intro value hvalue
    rw [hcells] at hvalue
    rcases Store.mem_applyMatches hvalue with hinitial | ⟨entry, hentry, rfl⟩
    · obtain ⟨_, _, rfl⟩ := List.mem_map.mp hinitial
      decide
    · obtain ⟨reply, _, hmatched⟩ := List.mem_flatMap.mp hentry
      obtain ⟨unbound, hunbound, rfl⟩ := List.mem_map.mp (Reply.mem_of_mem_matched hmatched)
      rw [hsettings] at hunbound
      obtain ⟨text, _, rfl⟩ := List.mem_map.mp hunbound
      exact firstCode_bounds _

/-- A call repeats nothing but pieces of the arguments. -/
theorem unbroken_callLines (hargs : ∀ text ∈ line.args, Unbroken text) :
    ∀ text ∈ line.callLines environment replies, Unbroken text := by
  intro text htext
  obtain ⟨reply, hreply, hprinted⟩ := List.mem_flatMap.mp htext
  have hpiece : ∀ piece, Quoted line.args piece → Unbroken piece := by
    intro piece hquoted
    obtain ⟨element, helement, hinfix⟩ := hquoted
    exact (hargs element helement).of_isInfix hinfix
  apply unbroken_printed _ _ _ reply _ text hprinted
  intro item hitem
  obtain ⟨hargument, herror⟩ := Host.Drained.quotes hdrained reply hreply item hitem
  constructor
  · intro argument hmem
    exact hpiece argument (hargument argument hmem)
  · intro error hmem
    exact hpiece error.subject (herror error hmem)

theorem unbroken_closing (hargs : ∀ text ∈ line.args, Unbroken text)
    (hnames : ∀ name ∈ line.texts .flag, Unbroken name) :
    ∀ text ∈ (line.finalTranscript environment replies).closing, Unbroken text := by
  apply Transcript.unbroken_closing
  · intro flag hflag
    have hmem := (List.of_mem_zip hflag).1
    rw [line.settings_eq environment] at hmem
    exact hnames flag.1 hmem
  · intro text htext
    exact hargs text ((perm_args hdrained).subset htext)

theorem flags_plain (hnames : ∀ name ∈ line.texts .flag, '=' ∉ name.toList) :
    ∀ flag ∈ (line.finalTranscript environment replies).flags,
      '=' ∉ flag.1.toList ∧ 0 ≤ flag.2 ∧ flag.2 < 2 ^ 31 := by
  intro flag hflag
  obtain ⟨hname, hvalue⟩ := List.of_mem_zip hflag
  rw [line.settings_eq environment] at hname
  exact ⟨hnames flag.1 hname, (cells_after hdrained).2 flag.2 hvalue⟩

end Drained

variable (line : CommandLine) (environment : Environment) (replies : List Reply)

theorem unkeyed_callLines : ∀ text ∈ line.callLines environment replies, Unkeyed text := by
  intro text htext
  obtain ⟨reply, _, hprinted⟩ := List.mem_flatMap.mp htext
  exact unkeyed_printed _ _ _ reply text hprinted

theorem lookup_flags (name : String) :
    (line.finalTranscript environment replies).flags.lookup name =
      ((line.texts .flag).idxOf? name).bind
        (((line.host environment).after replies).cells[·]?) := by
  have hflags : (line.settings environment).flagNames = line.texts .flag := by
    rw [line.settings_eq environment]
  rw [← hflags]
  exact lookup_zip _ _ name

end CommandLine

/-- Where the runner exits with 0 its arguments are a command line; and from what it prints, the
session is read back that the command line describes, if no argument and no name of a flag is
broken into lines. The lines of the calls are those of their results, unless the problems are sent
to standard output as well. Then standard output has to be a stream, and each problem stands in
front of the line of its call. The vector comes back if its elements are words. A flag is found
under a name without an equals sign if all names are such: the value is that of the first cell of
the name. -/
theorem run_readable (environment : Environment) {args : List String}
    (hsize : args.length < 2 ^ 64) {report : Report}
    (hrun : run environment args = .ok report) (hexit : report.exit = 0) :
    (∃ line : CommandLine, line.elements = args) ∧
      ∀ line : CommandLine, line.elements = args →
        (∀ text ∈ line.args ++ line.texts .flag, Unbroken text) →
        (environment.mixes line.sink → environment.Streams) →
        ∃ replies,
          (line.host environment).drain (line.scanGrammar environment) = .ok replies ∧
          let final := (line.host environment).after replies
          Transcript.readResults report.stdout = line.callLines environment replies ∧
          (environment.mixes line.sink = false →
            Transcript.readResults report.stdout =
              (replies.filterMap result?).map Result.line) ∧
          Transcript.readCursor report.stdout = .ok final.session.cursor ∧
          (∃ elements, Transcript.readArgs report.stdout = .ok elements ∧
            ((∀ text ∈ line.args, IsWord text) → elements = final.args.drop 1)) ∧
          final.cells.length = (line.texts .flag).length ∧
          ((∀ name ∈ line.texts .flag, '=' ∉ name.toList) → ∀ name, '=' ∉ name.toList →
            Transcript.readFlag? name report.stdout =
              ((line.texts .flag).idxOf? name).bind (final.cells[·]?)) := by
  have hline : ∃ line : CommandLine, line.elements = args := by
    by_contra hnot
    obtain ⟨stderr, hrefused⟩ := run_refused environment hnot
    rw [hrefused] at hrun
    cases hrun
    cases hexit
  refine ⟨hline, ?_⟩
  rintro line rfl hunbroken hstreams
  obtain ⟨hargs, hnames⟩ := List.forall_mem_append.mp hunbroken
  obtain ⟨replies, report', hdrained, hrun', _, hstdout⟩ := line.exists_run environment
  obtain rfl : report' = report := Except.ok.inj (hrun'.symm.trans hrun)
  have hprinted := hstdout.trans (CommandLine.outputText_eq_unlines hdrained hstreams)
  have hunkeyed := line.unkeyed_callLines environment replies
  have hlines := List.forall_mem_append.mpr
    ⟨CommandLine.unbroken_callLines hdrained hargs,
      CommandLine.unbroken_closing hdrained hargs hnames⟩
  have hcursor : (line.finalTranscript environment replies).cursor < 2 ^ 64 := by
    have hle := CommandLine.cursor_le hdrained
    simp only [CommandLine.elements, List.length_append, List.length_cons] at hsize
    omega
  have hresults := Transcript.readResults_unlines hunkeyed hlines
  refine ⟨replies, hdrained.drain_eq, ?_⟩
  intro final
  rw [hprinted]
  refine ⟨hresults, ?_, Transcript.readCursor_unlines hunkeyed hlines hcursor,
    ⟨_, Transcript.readArgs_unlines hunkeyed hlines, ?_⟩, (CommandLine.cells_after hdrained).1, ?_⟩
  · intro hmixes
    rw [hresults, CommandLine.callLines, hmixes]
    exact flatMap_printed_false _ _ replies
  · intro hclean
    apply words_intercalate
    intro text htext
    exact hclean text ((CommandLine.perm_args hdrained).subset htext)
  · intro hplain name hname
    have hflags := CommandLine.flags_plain hdrained hplain
    rw [Transcript.readFlag?_unlines hunkeyed hlines hname hflags]
    exact line.lookup_flags environment replies name

/-- Arguments that look like closing lines, two flags of which one name is the start of the other,
and one of the flags is set. -/
theorem run_readable_imitations :
    let line : CommandLine :=
      { clusters :=
          [⟨[.quiet], .attached .flag "fo" (by decide), by decide⟩,
            ⟨[], .detached .flag "foo", by decide⟩,
            ⟨[], .attached .entry "foo:=X" (by decide), by decide⟩]
        marked := false
        optionString := "-"
        args := ["argv", "--foo=optind", "flag"]
        unmarked := fun _ => by decide }
    let stdout := "operand arg=argv\nstored index=0 arg=optind\noperand arg=flag\n" ++
      "flag fo=0\nflag foo=88\noptind 4\nargv argv --foo=optind flag\n"
    line.elements = ["-qffo", "-f", "foo", "-lfoo:=X", "-", "argv", "--foo=optind", "flag"] ∧
      run {} line.elements = .ok { exit := 0, stdout, stderr := "" } ∧
      ∃ replies, (line.host {}).drain (line.scanGrammar {}) = .ok replies ∧
        let final := (line.host {}).after replies
        Transcript.readResults stdout = (replies.filterMap result?).map Result.line ∧
        Transcript.readCursor stdout = .ok final.session.cursor ∧
        Transcript.readArgs stdout = .ok (final.args.drop 1) ∧
        Transcript.readFlag? "foo" stdout = final.cells[1]? ∧
        Transcript.readFlag? "f" stdout = none := by
  intro line stdout
  have helements : line.elements =
      ["-qffo", "-f", "foo", "-lfoo:=X", "-", "argv", "--foo=optind", "flag"] := by
    decide
  have hrun : run {} line.elements = .ok { exit := 0, stdout, stderr := "" } := by
    decide +kernel
  obtain ⟨replies, hdrain, _, hresults, hcursor, ⟨elements, hargs, hclean⟩, _, hflags⟩ :=
    (run_readable {} (by rw [helements]; decide) hrun rfl).2 line rfl (by decide)
      (fun _ _ => rfl)
  refine ⟨helements, hrun, replies, hdrain, hresults (by decide +kernel), hcursor, ?_,
    hflags (by decide) "foo" (by decide), hflags (by decide) "f" (by decide)⟩
  rw [hargs, hclean (by decide +kernel)]

/-- Where the problems are sent to standard output, they are read as results. -/
theorem run_reads_diagnostics :
    let line : CommandLine :=
      { clusters := [⟨[], .detached .sink "/dev/stdout", by decide⟩]
        marked := true
        optionString := "a"
        args := ["-z"]
        unmarked := Bool.noConfusion }
    line.elements = ["-e", "/dev/stdout", "--", "a", "-z"] ∧
      (∀ text ∈ line.args ++ line.texts .flag, Unbroken text) ∧
      ∃ replies report, (line.host {}).drain (line.scanGrammar {}) = .ok replies ∧
        run {} line.elements = .ok report ∧ report.exit = 0 ∧
        Transcript.readResults report.stdout ≠
          (replies.filterMap result?).map Result.line := by
  intro line
  have hfound : ((line.host {}).drain (line.scanGrammar {})).map (fun replies =>
      (replies.filterMap result?).map Result.line) = .ok ["? optopt=z"] := by
    decide +kernel
  have hshown : (run {} line.elements).map (fun report =>
      (report.exit, Transcript.readResults report.stdout)) =
        .ok (0, ["getopt_long: unknown option -- z", "? optopt=z"]) := by
    decide +kernel
  obtain ⟨replies, hdrain, hlines⟩ := exists_of_map_ok hfound
  obtain ⟨report, hrun, hreport⟩ := exists_of_map_ok hshown
  obtain ⟨hexit, hresults⟩ := Prod.mk.inj hreport
  refine ⟨by decide, by decide, replies, report, hdrain, hrun, hexit, ?_⟩
  rw [hlines, hresults]
  decide

end OptionScan.Runner
