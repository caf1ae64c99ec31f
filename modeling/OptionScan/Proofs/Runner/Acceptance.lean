import OptionScan.Proofs.Histories
import OptionScan.Proofs.Runner.CommandLine

/-!
What the runner makes of its arguments. It reads them with a scan of its own, which moves nothing,
and so what it does depends on the parse of the arguments alone: a command line is run with the
settings that its options choose, one after the other, and anything else is refused.
-/

namespace OptionScan.Runner

def Settings.choose (s : Settings) : Choice → Settings
  | .switch .strict => { s with config := { s.config with strict := true } }
  | .switch .quiet => { s with config := { s.config with reportErrors := false } }
  | .switch .log => { s with sink := .log }
  | .parameter .sink path => { s with sink := .file path }
  | .parameter .entry text => { s with table := s.table ++ [longOption text] }
  | .parameter .flag name => { s with flagNames := s.flagNames ++ [name] }

def Environment.settings (environment : Environment) : Settings where
  config := .ofVariable environment.posixlyCorrect

def Environment.host (environment : Environment) (args : List String) : Host where
  session :=
    { config := .ofVariable environment.posixlyCorrect, reporter := .lines "getopt-test" }
  args := "getopt-test" :: args

def CommandLine.settings (line : CommandLine) (environment : Environment) : Settings :=
  line.choices.foldl Settings.choose environment.settings

def Choice.text? (p : Parameter) : Choice → Option String
  | switch _ => none
  | parameter q text => if q = p then some text else none

def Choice.sink? : Choice → Option Sink
  | switch .log => some .log
  | parameter .sink path => some (.file path)
  | _ => none

namespace CommandLine

def has (line : CommandLine) (s : Switch) : Bool :=
  line.choices.contains (.switch s)

def texts (line : CommandLine) (p : Parameter) : List String :=
  line.choices.filterMap (Choice.text? p)

/-- Where the problems of the scan go: the last option that says so wins. -/
def sink (line : CommandLine) : Sink :=
  (line.choices.filterMap Choice.sink?).getLast?.getD .standardError

end CommandLine

theorem foldl_choose (s : Settings) (choices : List Choice) :
    choices.foldl Settings.choose s =
      { config :=
          { strict := s.config.strict || choices.contains (.switch .strict)
            reportErrors := s.config.reportErrors && !choices.contains (.switch .quiet) }
        sink := (choices.filterMap Choice.sink?).getLast?.getD s.sink
        table := s.table ++ (choices.filterMap (Choice.text? .entry)).map longOption
        flagNames := s.flagNames ++ choices.filterMap (Choice.text? .flag) } := by
  induction choices generalizing s with
  | nil => simp
  | cons choice rest ih =>
    rw [List.foldl_cons, ih]
    cases choice with
    | switch letter =>
      cases letter <;>
        simp [Settings.choose, Choice.text?, Choice.sink?, List.filterMap_cons,
          List.getLast?_cons]
    | parameter p text =>
      cases p <;>
        simp [Settings.choose, Choice.text?, Choice.sink?, List.filterMap_cons,
          List.getLast?_cons]

namespace CommandLine

theorem settings_eq (line : CommandLine) (environment : Environment) :
    line.settings environment =
      { config :=
          { strict := environment.posixlyCorrect.isSome || line.has .strict
            reportErrors := !line.has .quiet }
        sink := line.sink
        table := (line.texts .entry).map longOption
        flagNames := line.texts .flag } := by
  rw [settings, foldl_choose]
  simp [Environment.settings, Config.ofVariable, has, texts, sink]

theorem sink_settings (line : CommandLine) (environment : Environment) :
    (line.settings environment).sink = line.sink := by
  rw [settings_eq]

end CommandLine

namespace Settings

def addItem (s : Settings) (item : Item) : Option Settings :=
  s.add item.code (item.argument.getD "")

theorem addItem_choice (s : Settings) (choice : Choice) :
    s.addItem (choice.finding.item grammar.letters) = some (s.choose choice) := by
  cases choice with
  | switch s => cases s <;> rfl
  | parameter p text => cases p <;> rfl

theorem addItem_failed (s : Settings) (error : OptionError) (culprit : Code) :
    s.addItem ((Finding.failed error culprit).item grammar.letters) = none := by
  cases error <;> rfl

theorem foldlM_choices (s : Settings) (choices : List Choice) :
    (choices.map fun choice => choice.finding.item grammar.letters).foldlM addItem s =
      some (choices.foldl choose s) := by
  induction choices generalizing s with
  | nil => rfl
  | cons choice more ih =>
    rw [List.map_cons, List.foldlM_cons, addItem_choice]
    exact ih (s.choose choice)

/-- No settings come of findings with a problem among them. -/
theorem usable_of_foldlM {s final : Settings} {findings : List Finding}
    (h : (findings.map (Finding.item grammar.letters)).foldlM addItem s = some final) :
    Usable findings := by
  induction findings generalizing s with
  | nil => exact fun finding hfinding => absurd hfinding List.not_mem_nil
  | cons finding more ih =>
    rw [List.map_cons, List.foldlM_cons] at h
    obtain ⟨next, hnext, hrest⟩ := Option.bind_eq_some_iff.mp h
    refine List.forall_mem_cons.mpr ⟨?_, ih hrest⟩
    cases finding with
    | found code argument entryIndex store => rfl
    | failed error culprit =>
      rw [addItem_failed] at hnext
      cases hnext

/-- Of the replies of a scan the items alone count. -/
theorem fst_addAll_collect {h : Host} {grammar : Grammar} {limit : Nat} {replies : List Reply}
    (hcollect : h.collect grammar limit = .ok replies) (s : Settings) :
    (s.addAll replies).1 = (replies.filterMap Reply.item?).foldlM addItem s := by
  induction limit generalizing h replies s with
  | zero =>
    cases hcollect
    rfl
  | succ limit ih =>
    cases Host.collects_of_collect hcollect with
    | ended first _ hcode => simp [addAll, Reply.item?, hcode]
    | found first more _ hfound hmore =>
      obtain ⟨code, hcode⟩ := Option.ne_none_iff_exists'.mp hfound
      have hitem : first.item? = some
          { code
            argument := first.host.argumentText?
            entryIndex := first.host.session.entryIndex
            error := first.host.session.lastError } := by
        rw [Reply.item?, hcode]
        rfl
      rw [List.filterMap_cons_some hitem, List.foldlM_cons, addAll]
      simp only [hcode, addItem]
      cases s.add code (first.host.argumentText?.getD "") with
      | none => rfl
      | some next => exact ih hmore next

end Settings

/-- The arguments are parsed up to the option string; only then is anything scanned, and only if no
problem was found. -/
theorem run_eq (environment : Environment) (args : List String) :
    let p := parse grammar .stop args
    ∃ stderr, run environment args =
      match ((p.findings .stop).map (Finding.item grammar.letters)).foldlM Settings.addItem
          environment.settings, p.rest with
      | some settings, optionString :: rest =>
        scan environment settings optionString rest >>= fun report =>
          .ok { report with stderr := stderr ++ report.stderr }
      | _, _ => .ok { exit := 2, stdout := "", stderr := stderr ++ usage } := by
  intro p
  have hpolicy : (environment.host args).session.config.policy grammar.letters = .stop := by
    unfold Config.policy
    split <;> rfl
  obtain ⟨replies, hdrained⟩ := (environment.host args).exists_drained grammar 1 (Nat.le_refl 1)
    (Session.startsAt_new _ _) .stop hpolicy p rfl
  have hsettings := Settings.fst_addAll_collect hdrained.drain_eq environment.settings
  rw [hdrained.items_eq] at hsettings
  have hahead := hdrained.ahead_eq
  have hheld : p.held .stop = [] := by simp [Parse.held, Segment.held]
  rw [hheld, List.nil_append] at hahead
  refine ⟨errorText (environment.logText environment.logLevel) true
    (environment.settings.addAll replies).2, ?_⟩
  rw [← hsettings, ← hahead]
  show (environment.host args).drain grammar >>= _ = _
  rw [hdrained.drain_eq]
  rfl

/-- A command line is run with the settings that it describes. -/
theorem run_commandLine (environment : Environment) (line : CommandLine) :
    ∃ stderr, run environment line.elements =
      scan environment (line.settings environment) line.optionString line.args >>= fun report =>
        .ok { report with stderr := stderr ++ report.stderr } := by
  obtain ⟨stderr, hrun⟩ := run_eq environment line.elements
  have hsettings := environment.settings.foldlM_choices line.choices
  have hitems : (line.choices.map Choice.finding).map (Finding.item grammar.letters) =
      line.choices.map fun choice => choice.finding.item grammar.letters := List.map_map
  rw [findings_commandLine, hitems, hsettings, parse_commandLine] at hrun
  exact ⟨stderr, hrun⟩

/-- A scan comes to its end, whatever the settings. -/
theorem exists_scan (environment : Environment) (s : Settings) (optionString : String)
    (args : List String) :
    let letters : OptionString := ⟨optionString⟩
    let policy := s.config.policy letters
    let host := s.host environment args
    ∃ replies, host.Drained ⟨letters, s.boundTable⟩ 1 policy
        (parse ⟨letters, s.boundTable⟩ policy args) replies ∧
      ∃ report, scan environment s optionString args = .ok report ∧ report.exit = 0 ∧
        report.stdout = outputText environment s.sink replies
          (transcript s.flagNames replies (host.after replies)) := by
  intro letters policy host
  obtain ⟨replies, hdrained⟩ := host.exists_drained ⟨letters, s.boundTable⟩ 1
    (Nat.le_refl 1) (Session.startsAt_new _ _) policy rfl _ rfl
  refine ⟨replies, hdrained, ?_⟩
  unfold scan
  simp only [hdrained.drain_eq, letters, host]
  exact ⟨_, rfl, rfl, rfl⟩

/-- Arguments that are no command line are refused. -/
theorem run_refused (environment : Environment) {args : List String}
    (h : ¬ ∃ line : CommandLine, line.elements = args) :
    ∃ stderr, run environment args = .ok { exit := 2, stdout := "", stderr } := by
  obtain ⟨stderr, hrun⟩ := run_eq environment args
  split at hrun
  · next settings optionString rest hsettings hrest =>
    have hcommand := exists_commandLine args (Settings.usable_of_foldlM hsettings)
      (hrest ▸ List.cons_ne_nil optionString rest)
    exact absurd hcommand h
  · exact ⟨_, hrun⟩

/-- The runner comes to an end with every list of arguments. It accepts the command lines and no
others; where it does not, it prints nothing but on standard error, and writes no file. -/
theorem run_accepts (environment : Environment) (args : List String) :
    ∃ report, run environment args = .ok report ∧
      ((∃ line : CommandLine, line.elements = args) ∧ report.exit = 0 ∨
        (¬ ∃ line : CommandLine, line.elements = args) ∧
          report.exit = 2 ∧ report.stdout = "" ∧ report.file = none) := by
  by_cases hline : ∃ line : CommandLine, line.elements = args
  · obtain ⟨line, rfl⟩ := hline
    obtain ⟨stderr, hrun⟩ := run_commandLine environment line
    obtain ⟨_, _, report, hscan, hexit, _⟩ := exists_scan environment
      (line.settings environment) line.optionString line.args
    rw [hscan] at hrun
    exact ⟨_, hrun, Or.inl ⟨⟨line, rfl⟩, hexit⟩⟩
  · obtain ⟨stderr, hrun⟩ := run_refused environment hline
    exact ⟨_, hrun, Or.inr ⟨hline, rfl, rfl, rfl⟩⟩

end OptionScan.Runner
