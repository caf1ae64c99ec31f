import OptionScan.Proofs.Rendering
import OptionScan.Runner

/-!
Command lines of the runner. The options come first, as elements of letters after a dash, of which
the last may take an argument; then the option string, which needs the end marker in front of it if
it looks like an option itself; and then the arguments to be scanned. The elements of a command line
are parsed as it says, and where a parse finds no problem and an option string, there is a command
line to which the elements belong.
-/

namespace OptionScan.Runner

inductive Switch where
  | strict
  | quiet
  | log
  deriving DecidableEq, Repr

inductive Parameter where
  | sink
  | entry
  | flag
  deriving DecidableEq, Repr

def Switch.letter : Switch → Char
  | strict => 'p'
  | quiet => 'q'
  | log => 't'

def Parameter.letter : Parameter → Char
  | sink => 'e'
  | entry => 'l'
  | flag => 'f'

inductive Choice where
  | switch (switch : Switch)
  | parameter (parameter : Parameter) (text : String)
  deriving DecidableEq, Repr

def Choice.finding : Choice → Finding
  | switch s => .letter s.letter none
  | parameter p text => .letter p.letter (some text)

/-- What follows the switches of an element: nothing, or a letter whose argument is the rest of the
element, which is not empty, or the next element. -/
inductive Tail where
  | absent
  | attached (parameter : Parameter) (text : String) (text_ne : text ≠ "")
  | detached (parameter : Parameter) (text : String)

namespace Tail

def letters : Tail → List Char
  | absent => []
  | attached parameter text _ => parameter.letter :: text.toList
  | detached parameter _ => [parameter.letter]

def next : Tail → List String
  | absent | attached .. => []
  | detached _ text => [text]

def choices : Tail → List Choice
  | absent => []
  | attached parameter text _ | detached parameter text => [.parameter parameter text]

end Tail

structure Cluster where
  switches : List Switch
  tail : Tail
  letters_ne : switches.map Switch.letter ++ tail.letters ≠ []

namespace Cluster

def letters (c : Cluster) : List Char :=
  c.switches.map Switch.letter ++ c.tail.letters

def element (c : Cluster) : String :=
  String.ofList ('-' :: c.letters)

def elements (c : Cluster) : List String :=
  c.element :: c.tail.next

def choices (c : Cluster) : List Choice :=
  c.switches.map Choice.switch ++ c.tail.choices

end Cluster

/-- A command line of the runner, without the name of the program. -/
structure CommandLine where
  clusters : List Cluster
  /-- The end marker stands in front of the option string. -/
  marked : Bool
  optionString : String
  args : List String
  unmarked : marked = false → isOperand optionString

namespace CommandLine

def marker (line : CommandLine) : Option String :=
  if line.marked then some endMarker else none

def elements (line : CommandLine) : List String :=
  line.clusters.flatMap Cluster.elements ++ line.marker.toList ++ line.optionString :: line.args

def choices (line : CommandLine) : List Choice :=
  line.clusters.flatMap Cluster.choices

def cons (cluster : Cluster) (line : CommandLine) : CommandLine :=
  { line with clusters := cluster :: line.clusters }

theorem elements_cons (cluster : Cluster) (line : CommandLine) :
    (line.cons cluster).elements = cluster.elements ++ line.elements := by
  simp only [elements, cons, List.flatMap_cons, List.append_assoc]
  rfl

end CommandLine

section Letters

variable {letter : Char} {ahead : List String}

theorem kind?_switch (s : Switch) : grammar.letters.kind? s.letter = some .flag := by
  cases s <;> decide

theorem kind?_parameter (p : Parameter) : grammar.letters.kind? p.letter = some .required := by
  cases p <;> decide

theorem exists_letter_of_kind? {kind : LetterKind}
    (hkind : grammar.letters.kind? letter = some kind) :
    (∃ s : Switch, letter = s.letter) ∨ ∃ p : Parameter, letter = p.letter := by
  have hplus : grammar.letters.kind? '+' = none := by decide
  have hcolon : grammar.letters.kind? ':' = none := by decide
  have hmem : letter ∈ ['+', 'p', 'q', 't', 'e', ':', 'l', ':', 'f', ':'] :=
    OptionString.mem_text_of_kind? hkind
  simp only [List.mem_cons, List.not_mem_nil, or_false] at hmem
  rcases hmem with rfl | rfl | rfl | rfl | rfl | rfl | rfl | rfl | rfl | rfl
  · rw [hplus] at hkind
    cases hkind
  · exact Or.inl ⟨.strict, rfl⟩
  · exact Or.inl ⟨.quiet, rfl⟩
  · exact Or.inl ⟨.log, rfl⟩
  · exact Or.inr ⟨.sink, rfl⟩
  · rw [hcolon] at hkind
    cases hkind
  · exact Or.inr ⟨.entry, rfl⟩
  · rw [hcolon] at hkind
    cases hkind
  · exact Or.inr ⟨.flag, rfl⟩
  · rw [hcolon] at hkind
    cases hkind

theorem parseLetters_switches (switches : List Switch) (ahead : List String) (rest : List Char) :
    parseLetters grammar ahead (switches.map Switch.letter ++ rest) =
      { parseLetters grammar ahead rest with
        findings := switches.map (fun s => (Choice.switch s).finding) ++
          (parseLetters grammar ahead rest).findings } := by
  induction switches with
  | nil => rfl
  | cons s more ih =>
    rw [List.map_cons, List.cons_append, parseLetters_flag (kind?_switch s), ih]
    rfl

theorem parseLetters_tail (tail : Tail) (ahead : List String) :
    parseLetters grammar (tail.next ++ ahead) tail.letters =
      { findings := tail.choices.map Choice.finding, taken := tail.next.length } := by
  cases tail with
  | absent => rfl
  | attached parameter text text_ne =>
    have hrest : text.toList ≠ [] := by simpa using text_ne
    rw [Tail.letters, parseLetters_rest (Or.inl (kind?_parameter parameter)) hrest,
      String.ofList_toList]
    rfl
  | detached parameter text => exact parseLetters_required (kind?_parameter parameter) text ahead

theorem parseLetters_cluster (cluster : Cluster) (ahead : List String) :
    parseLetters grammar (cluster.tail.next ++ ahead) cluster.letters =
      { findings := cluster.choices.map Choice.finding, taken := cluster.tail.next.length } := by
  rw [Cluster.letters, parseLetters_switches, parseLetters_tail, Cluster.choices, List.map_append,
    List.map_map]
  rfl

def Usable (findings : List Finding) : Prop :=
  ∀ finding ∈ findings, (finding.item grammar.letters).error = none

theorem not_usable_cons (error : OptionError) (culprit : Code) (more : List Finding) :
    ¬ Usable (.failed error culprit :: more) := by
  intro husable
  have herror := husable _ (List.mem_cons_self ..)
  cases herror

/-- Letters in which no problem is found are those of an element of the runner. -/
theorem exists_tail_of_usable (letters : List Char)
    (husable : Usable (parseLetters grammar ahead letters).findings) :
    ∃ (switches : List Switch) (tail : Tail),
      letters = switches.map Switch.letter ++ tail.letters ∧
      (parseLetters grammar ahead letters).ends = false ∧
      tail.next ++ ahead.drop (parseLetters grammar ahead letters).taken = ahead := by
  induction letters with
  | nil => exact ⟨[], .absent, rfl, rfl, rfl⟩
  | cons letter rest ih =>
    cases hkind : grammar.letters.kind? letter with
    | none =>
      rw [parseLetters_unknown hkind] at husable
      exact absurd husable (not_usable_cons _ _ _)
    | some kind =>
      rcases exists_letter_of_kind? hkind with ⟨s, rfl⟩ | ⟨p, rfl⟩
      · have hletter := parseLetters_flag (kind?_switch s) ahead rest
        rw [hletter] at husable ⊢
        obtain ⟨switches, tail, hletters, hends, hnext⟩ :=
          ih (List.forall_mem_cons.mp husable).2
        exact ⟨s :: switches, tail, congrArg (s.letter :: ·) hletters, hends, hnext⟩
      · have hrequired := kind?_parameter p
        by_cases hrest : rest = []
        · subst rest
          cases ahead with
          | nil =>
            rw [parseLetters_missing (Or.inl hrequired)] at husable
            exact absurd husable (not_usable_cons _ _ _)
          | cons text more =>
            rw [parseLetters_required hrequired]
            exact ⟨[], .detached p text, rfl, rfl, rfl⟩
        · rw [parseLetters_rest (Or.inl hrequired) hrest]
          refine ⟨[], .attached p (String.ofList rest) (by simpa using hrest), ?_, rfl, rfl⟩
          simp [Tail.letters]

end Letters

namespace Cluster

theorem exists_letters (c : Cluster) :
    ∃ first rest, c.letters = first :: rest ∧ first ≠ '-' := by
  have hswitch : ∀ s : Switch, s.letter ≠ '-' := by
    intro s
    cases s <;> decide
  have hparameter : ∀ p : Parameter, p.letter ≠ '-' := by
    intro p
    cases p <;> decide
  obtain ⟨switches, tail, letters_ne⟩ := c
  cases switches with
  | cons s more => exact ⟨s.letter, _, rfl, hswitch s⟩
  | nil =>
    cases tail with
    | absent => exact absurd rfl letters_ne
    | attached parameter text _ => exact ⟨parameter.letter, _, rfl, hparameter parameter⟩
    | detached parameter text => exact ⟨parameter.letter, _, rfl, hparameter parameter⟩

/-- An element of the runner is parsed as it is meant, whatever comes after it. -/
theorem parse_elements (policy : OperandPolicy) (c : Cluster) (ahead : List String) :
    parse grammar policy (c.elements ++ ahead) =
      (parse grammar policy ahead).cons (.option c.elements (c.choices.map Choice.finding)) := by
  obtain ⟨first, rest, hletters, hfirst⟩ := c.exists_letters
  have hlist : c.element.toList = '-' :: first :: rest := by
    rw [element, String.toList_ofList, hletters]
  apply parse_whole
  · have hdash : c.element ≠ "-" := by
      intro heq
      rw [heq] at hlist
      cases hlist
    simp [isOperand, hlist, hdash]
  · intro heq
    rw [heq] at hlist
    exact hfirst (List.cons.inj (List.cons.inj hlist).2).1.symm
  · rw [parseOption_letters grammar hlist hfirst, ← hletters]
    exact parseLetters_cluster c ahead

end Cluster

/-- The elements of a command line are parsed as it says. -/
theorem parse_commandLine (line : CommandLine) :
    parse grammar .stop line.elements =
      { segments := line.clusters.map fun c => .option c.elements (c.choices.map Choice.finding)
        marker := line.marker
        rest := line.optionString :: line.args } := by
  obtain ⟨clusters, marked, optionString, args, unmarked⟩ := line
  induction clusters with
  | nil =>
    cases marked with
    | true => exact parse_marker
    | false => exact parse_stop (unmarked rfl)
  | cons cluster more ih =>
    have hcons : CommandLine.elements ⟨cluster :: more, marked, optionString, args, unmarked⟩ =
        cluster.elements ++ CommandLine.elements ⟨more, marked, optionString, args, unmarked⟩ :=
      CommandLine.elements_cons cluster ⟨more, marked, optionString, args, unmarked⟩
    rw [hcons, cluster.parse_elements, ih]
    rfl

theorem findings_commandLine (line : CommandLine) :
    (parse grammar .stop line.elements).findings .stop = line.choices.map Choice.finding := by
  rw [parse_commandLine]
  simp only [Parse.findings, List.flatMap_map, Segment.findings_option, CommandLine.choices,
    List.map_flatMap]

/-- A name is a problem, as the table of the runner has no entries. So an option in which no problem
is found is an element of the runner. -/
theorem exists_cluster {element : String} {ahead : List String} (hoption : ¬ isOperand element)
    (husable : Usable (parseOption grammar element ahead).findings) :
    ∃ cluster : Cluster, (parseOption grammar element ahead).ends = false ∧
      cluster.elements ++ ahead.drop (parseOption grammar element ahead).taken =
        element :: ahead := by
  obtain ⟨first, rest, hlist⟩ := exists_of_not_isOperand hoption
  by_cases hfirst : first = '-'
  · subst first
    have hunknown : grammar.table.resolve (String.ofList rest) =
        .error (.unknownName (String.ofList rest)) := rfl
    rw [parseOption_name grammar hlist, parseName_unresolved hunknown] at husable
    exact absurd husable (not_usable_cons _ _ _)
  · rw [parseOption_letters grammar hlist hfirst] at husable ⊢
    obtain ⟨switches, tail, hletters, hends, hnext⟩ := exists_tail_of_usable _ husable
    have letters_ne : switches.map Switch.letter ++ tail.letters ≠ [] :=
      hletters ▸ List.cons_ne_nil first rest
    refine ⟨⟨switches, tail, letters_ne⟩, hends, ?_⟩
    have helement : Cluster.element ⟨switches, tail, letters_ne⟩ = element := by
      rw [Cluster.element, Cluster.letters, ← hletters, ← hlist, String.ofList_toList]
    rw [Cluster.elements, helement, List.cons_append, hnext]

/-- Elements in which no problem is found and an option string is left are a command line. -/
theorem exists_commandLine (elements : List String)
    (husable : Usable ((parse grammar .stop elements).findings .stop))
    (hrest : (parse grammar .stop elements).rest ≠ []) :
    ∃ line : CommandLine, line.elements = elements := by
  induction elements using parse_induction grammar .stop with
  | nil => exact absurd (by simp [parse]) hrest
  | stop element ahead hoperand _ => exact ⟨⟨[], false, element, ahead, fun _ => hoperand⟩, rfl⟩
  | operand element ahead _ hpolicy => exact absurd rfl hpolicy
  | marker ahead =>
    rw [parse_marker] at hrest
    obtain ⟨optionString, args, rfl⟩ := List.exists_cons_of_ne_nil hrest
    exact ⟨⟨[], true, optionString, args, Bool.noConfusion⟩, rfl⟩
  | ends element ahead hoption hmarker hends =>
    rw [parse_ends hoption hmarker hends] at husable
    simp only [Parse.findings, List.flatMap_cons, List.flatMap_nil, List.append_nil,
      Segment.findings_option] at husable
    obtain ⟨_, hgoes, _⟩ := exists_cluster hoption husable
    rw [hgoes] at hends
    cases hends
  | option element ahead hoption hmarker hends ih =>
    rw [parse_option hoption hmarker hends] at husable hrest
    rw [Parse.findings_cons, Segment.findings_option] at husable
    obtain ⟨hfirst, hmore⟩ := List.forall_mem_append.mp husable
    obtain ⟨cluster, _, helements⟩ := exists_cluster hoption hfirst
    obtain ⟨line, hline⟩ := ih hmore hrest
    exact ⟨line.cons cluster, by rw [CommandLine.elements_cons, hline, helements]⟩

end OptionScan.Runner
