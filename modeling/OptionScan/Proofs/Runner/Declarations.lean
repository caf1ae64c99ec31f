import OptionScan.Proofs.Names
import OptionScan.Proofs.Runner.Printing

/-!
The session that a command line describes. Long options are declared as texts, and the runner reads
from them the entries that were meant. In which order the options of different kinds come, and how
they are written, makes no difference: the table has the entries in the order of their declarations,
and each is bound to the first flag cell of its name, wherever that was asked for.
-/

namespace OptionScan

def ArgumentRule.colons : ArgumentRule → String
  | .none => ""
  | .required => ":"
  | .optional => "::"

namespace Runner

structure Declaration where
  name : String
  argument : ArgumentRule
  /-- The character that is the value of the option, if it is not the first one of the name. -/
  code : Option Char
  name_ne : name.toList ≠ []
  equals_notMem : '=' ∉ name.toList
  colon_ne : name.toList.getLast? ≠ some ':'

namespace Declaration

def spec (d : Declaration) : String :=
  d.name ++ d.argument.colons

def text (d : Declaration) : String :=
  match d.code with
  | none => d.spec
  | some c => d.spec ++ "=" ++ String.singleton c

def entry (d : Declaration) : LongEntry where
  name := d.name
  argument := d.argument
  value := Code.ofChar (d.code.getD (d.name.toList.head d.name_ne))

theorem splitColons_spec (d : Declaration) : splitColons d.spec = (d.name, d.argument) := by
  obtain ⟨last, front, hreverse, hlast⟩ :
      ∃ last front, d.name.toList.reverse = last :: front ∧ last ≠ ':' := by
    obtain ⟨last, front, hreverse⟩ :=
      List.exists_cons_of_ne_nil (List.reverse_ne_nil_iff.mpr d.name_ne)
    refine ⟨last, front, hreverse, ?_⟩
    intro hcolon
    apply d.colon_ne
    rw [← List.head?_reverse, hreverse, hcolon]
    rfl
  have hname : String.ofList (last :: front).reverse = d.name := by
    rw [← hreverse, List.reverse_reverse, String.ofList_toList]
  unfold splitColons spec
  cases d.argument with
  | none => simp [ArgumentRule.colons, hreverse, hlast]
  | required => simpa [ArgumentRule.colons, hreverse, hlast] using hname
  | optional => simpa [ArgumentRule.colons, hreverse, hlast] using hname

theorem splitToken_text (d : Declaration) :
    LongTable.splitToken d.text = (d.spec, d.code.map String.singleton) := by
  have hspec : '=' ∉ d.spec.toList := by
    have hname := d.equals_notMem
    cases hargument : d.argument <;> simp [spec, ArgumentRule.colons, hargument, hname]
  unfold text
  cases d.code with
  | none => exact LongTable.splitToken_name hspec
  | some c => exact LongTable.splitToken_value hspec (String.singleton c)

/-- The runner reads a declaration as the entry that is meant. -/
theorem longOption_text (d : Declaration) : longOption d.text = d.entry := by
  have hvalue : firstCode ((d.code.map String.singleton).getD d.spec) =
      Code.ofChar (d.code.getD (d.name.toList.head d.name_ne)) := by
    cases d.code with
    | none =>
      obtain ⟨first, rest, hname⟩ := List.exists_cons_of_ne_nil d.name_ne
      have hspec : d.spec.toList = first :: (rest ++ d.argument.colons.toList) := by
        rw [spec, String.toList_append, hname, List.cons_append]
      simp [firstCode, hspec, hname]
    | some c => simp [firstCode]
  simp only [longOption, d.splitToken_text, d.splitColons_spec, hvalue, entry]

end Declaration

namespace CommandLine

/-- A command line whose long options are declarations, in whatever way it is written, runs the
session that they describe, and prints what draining it shows: the lines of the results, then the
flag cells by their names, the cursor and the vector. Where the problems are sent to standard output
as well, and that is a stream, each stands in front of the line of its call. The session is strict
if the environment or a switch says so, and its table has the declared entries in order, each bound
to the first flag cell of its name, if there is one. -/
theorem run_described (environment : Environment) (line : CommandLine)
    (declarations : List Declaration) (names : List String)
    (hentries : line.texts .entry = declarations.map Declaration.text)
    (hnames : line.texts .flag = names) :
    let config : Config :=
      { strict := environment.posixlyCorrect.isSome || line.has .strict
        reportErrors := !line.has .quiet }
    let grammar : Grammar :=
      { letters := ⟨line.optionString⟩
        table := declarations.map fun d => { d.entry with cell := names.idxOf? d.name } }
    let host : Host :=
      { session := { config, reporter := environment.reporter line.sink }
        args := "prog" :: line.args
        cells := names.map fun _ => 0 }
    ∃ replies report, host.drain grammar = .ok replies ∧
      replies.getLast?.map Reply.code = some none ∧
      run environment line.elements = .ok report ∧ report.exit = 0 ∧
      let closing :=
        ((names.zip (host.after replies).cells).map fun (name, value) =>
          "flag " ++ name ++ "=" ++ toString value) ++
        ["optind " ++ toString (host.after replies).session.cursor,
          "argv " ++ " ".intercalate ((host.after replies).args.drop 1)]
      (environment.mixes line.sink = false →
        report.stdout = unlines ((replies.filterMap result?).map Result.line ++ closing)) ∧
      (environment.mixes line.sink = true → environment.Streams →
        report.stdout =
          unlines (replies.flatMap (printed true config grammar.letters) ++ closing)) := by
  intro config grammar host
  obtain ⟨replies, report, hdrained, hrun, hexit, hstdout⟩ := line.exists_run environment
  have hprinted := fun hstreams => hstdout.trans (outputText_eq_unlines hdrained hstreams)
  have hsettings := line.settings_eq environment
  have hentry : longOption ∘ Declaration.text = Declaration.entry :=
    funext Declaration.longOption_text
  rw [hentries, hnames, List.map_map, hentry] at hsettings
  have hgrammar : line.scanGrammar environment = grammar := by
    rw [scanGrammar, hsettings]
    simp only [Settings.boundTable, List.map_map, grammar]
    rfl
  have hhost : line.host environment = host := by
    rw [CommandLine.host, hsettings]
    rfl
  have hdrain := hdrained.drain_eq
  rw [hhost, hgrammar] at hdrain
  rw [callLines, finalTranscript, hhost, hgrammar, hsettings] at hprinted
  refine ⟨replies, report, hdrain, hdrained.ended, hrun, hexit, ?_⟩
  intro closing
  have hclosing : (transcript names replies (host.after replies)).closing = closing := rfl
  rw [hclosing] at hprinted
  constructor
  · intro hmixes
    rw [hmixes, flatMap_printed_false] at hprinted
    exact hprinted Bool.noConfusion
  · intro hmixes hstreams
    rw [hmixes] at hprinted
    exact hprinted fun _ => hstreams

/-- A flag is asked for between two declarations, behind a switch and before the entry that it is
for; and the option string looks like an option. -/
theorem run_described_clustered :
    ∃ replies report,
      Host.drain
        { session := { config := { strict := true, reportErrors := false } }
          args := ["prog", "--foo", "--bar=1", "-a", "in"]
          cells := [0] }
        ⟨⟨"-a"⟩, [⟨"bar", .optional, 88, none⟩, ⟨"foo", .none, 102, some 0⟩]⟩ = .ok replies ∧
      run {} ["-qlbar::=X", "-pf", "foo", "-lfoo", "--", "-a", "--foo", "--bar=1", "-a", "in"] =
        .ok report ∧
      report.stdout = "stored index=1\noption X index=0 arg=1\noption a\n" ++
        "flag foo=102\noptind 4\nargv --foo --bar=1 -a in\n" := by
  let line : CommandLine :=
    { clusters :=
        [⟨[.quiet], .attached .entry "bar::=X" (by decide), by decide⟩,
          ⟨[.strict], .detached .flag "foo", by decide⟩,
          ⟨[], .attached .entry "foo" (by decide), by decide⟩]
      marked := true
      optionString := "-a"
      args := ["--foo", "--bar=1", "-a", "in"]
      unmarked := Bool.noConfusion }
  let declarations : List Declaration :=
    [⟨"bar", .optional, some 'X', by decide, by decide, by decide⟩,
      ⟨"foo", .none, none, by decide, by decide, by decide⟩]
  obtain ⟨replies, report, hdrain, _, hrun, _⟩ :=
    run_described {} line declarations ["foo"] (by decide) (by decide)
  have hshown : (run {} line.elements).map Report.stdout =
      .ok ("stored index=1\noption X index=0 arg=1\noption a\n" ++
        "flag foo=102\noptind 4\nargv --foo --bar=1 -a in\n") := by
    decide +kernel
  rw [hrun] at hshown
  exact ⟨replies, report, hdrain, hrun, Except.ok.inj hshown⟩

/-- Where the problems are sent to standard output, what is printed is not only what the scan
finds. -/
theorem run_mixes_diagnostics :
    let line : CommandLine :=
      { clusters := [⟨[], .detached .sink "/dev/stdout", by decide⟩]
        marked := true
        optionString := "a"
        args := ["-z"]
        unmarked := Bool.noConfusion }
    let host : Host := { args := ["prog", "-z"] }
    line.elements = ["-e", "/dev/stdout", "--", "a", "-z"] ∧
      ∃ replies report, host.drain ⟨⟨"a"⟩, []⟩ = .ok replies ∧
        run {} line.elements = .ok report ∧ report.exit = 0 ∧
        report.stdout ≠ unlines ((replies.filterMap result?).map Result.line ++
          (transcript [] replies (host.after replies)).closing) := by
  intro line host
  have hfound : (host.drain ⟨⟨"a"⟩, []⟩).map (fun replies =>
      unlines ((replies.filterMap result?).map Result.line ++
        (transcript [] replies (host.after replies)).closing)) =
      .ok "? optopt=z\noptind 2\nargv -z\n" := by
    decide +kernel
  have hshown : (run {} line.elements).map (fun report => (report.exit, report.stdout)) =
      .ok (0, "getopt_long: unknown option -- z\n? optopt=z\noptind 2\nargv -z\n") := by
    decide +kernel
  obtain ⟨replies, hdrain, hlines⟩ := exists_of_map_ok hfound
  obtain ⟨report, hrun, hreport⟩ := exists_of_map_ok hshown
  obtain ⟨hexit, hstdout⟩ := Prod.mk.inj hreport
  refine ⟨by decide, replies, report, hdrain, hrun, hexit, ?_⟩
  rw [hlines, hstdout]
  decide

end CommandLine

end Runner

end OptionScan
