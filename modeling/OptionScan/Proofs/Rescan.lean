import OptionScan.Proofs.Partition

/-!
Scanning a vector a second time. A scan that moves operands leaves every option next to its
arguments, and behind the options the element that ended them or else nothing but operands; so an
option means there what it meant before. Only one that found no argument at the end of the vector
may have an operand behind it now, which it would take.
-/

namespace OptionScan

def OptionError.lacksArgument : OptionError → Bool
  | missingLetterArgument _ | missingNameArgument _ => true
  | unknownLetter _ | unknownName _ | ambiguousName _ | unwantedArgument _ => false

namespace Finding

def error? : Finding → Option OptionError
  | failed error _ => some error
  | found _ _ _ _ => none

def Complete (finding : Finding) : Prop :=
  ∀ error, finding.error? = some error → error.lacksArgument = false

theorem error?_eq_item (letters : OptionString) (finding : Finding) :
    finding.error? = (finding.item letters).error := by
  cases finding <;> rfl

end Finding

namespace Meaning

def Complete (meaning : Meaning) : Prop :=
  ∀ finding ∈ meaning.findings, finding.Complete

theorem not_complete {error : OptionError} (culprit : Code) (herror : error.lacksArgument = true) :
    ¬ Complete { findings := [.failed error culprit] } := by
  intro hcomplete
  have hfalse := hcomplete _ (List.mem_singleton_self _) error rfl
  rw [herror] at hfalse
  cases hfalse

theorem Complete.of_cons {finding : Finding} {meaning : Meaning}
    (h : (cons finding meaning).Complete) : meaning.Complete :=
  (List.forall_mem_cons.mp h).2

/-- How many of the elements after it decide what an option means: its arguments, or the empty name
that ends the options. -/
def reach (meaning : Meaning) : Nat :=
  meaning.taken + meaning.ends.toNat

theorem reach_eq_taken {meaning : Meaning} (h : meaning.ends = false) :
    meaning.reach = meaning.taken := by
  rw [reach, h]
  rfl

end Meaning

/-- The elements that are taken up, the first ones of those ahead, decide what an option means. -/
def Decided (read : List String → Meaning) (ahead : List String) : Prop :=
  ∃ used rest, ahead = used ++ rest ∧ used.length = (read ahead).reach ∧
    ∀ more, read (used ++ more) = read ahead

namespace Decided

variable {read : List String → Meaning} {meaning : Meaning} {ahead : List String}

theorem of_nothing (hread : ∀ ahead, read ahead = meaning) (hreach : meaning.reach = 0) :
    Decided read ahead := by
  refine ⟨[], ahead, rfl, ?_, ?_⟩
  · rw [hread, hreach]
    rfl
  · intro more
    rw [hread, hread]

theorem of_next {text : String} (hread : ∀ ahead, read (text :: ahead) = meaning)
    (hreach : meaning.reach = 1) : Decided read (text :: ahead) := by
  refine ⟨[text], ahead, rfl, ?_, ?_⟩
  · rw [hread, hreach]
    rfl
  · intro more
    rw [hread]
    exact hread more

theorem cons (finding : Finding) (h : Decided read ahead) :
    Decided (fun ahead => .cons finding (read ahead)) ahead := by
  obtain ⟨used, rest, hahead, hlength, hsame⟩ := h
  refine ⟨used, rest, hahead, hlength, ?_⟩
  intro more
  simp only [hsame]

end Decided

theorem decided_parseName {table : LongTable} {token : String} {ahead : List String}
    (hcomplete : (parseName table token ahead).Complete) :
    Decided (parseName table token) ahead := by
  cases hresolve : table.resolve token with
  | error error => exact .of_nothing (parseName_unresolved hresolve) rfl
  | ok resolved =>
    cases hvalue : resolved.value with
    | some text =>
      by_cases hrule : resolved.entry.argument = .none
      · exact .of_nothing (parseName_unwanted hresolve hvalue hrule) rfl
      · exact .of_nothing (parseName_attached hresolve hvalue hrule) rfl
    | none =>
      by_cases hrule : resolved.entry.argument = .required
      · cases ahead with
        | nil =>
          rw [parseName_missing hresolve hvalue hrule] at hcomplete
          exact absurd hcomplete (Meaning.not_complete _ rfl)
        | cons text ahead => exact .of_next (parseName_detached hresolve hvalue hrule text) rfl
      · exact .of_nothing (parseName_alone hresolve hvalue hrule) rfl

section Options

variable {grammar : Grammar} {ahead : List String}

/-- A letter that takes its argument from a name in the next element. -/
theorem decided_next_name {letter : Char} {token : String}
    (hkind : grammar.letters.kind? letter = some .introducesName) (htoken : token ≠ "")
    (h : Decided (parseName grammar.table token) ahead) :
    Decided (parseLetters grammar · [letter]) (token :: ahead) := by
  obtain ⟨used, rest, rfl, hlength, hsame⟩ := h
  refine ⟨token :: used, rest, rfl, ?_, ?_⟩
  · simp only [parseLetters_next_name hkind htoken, List.length_cons, hlength, Meaning.reach]
    omega
  · intro more
    simp only [List.cons_append, parseLetters_next_name hkind htoken, hsame]

theorem decided_parseLetters {text : List Char}
    (hcomplete : (parseLetters grammar ahead text).Complete) :
    Decided (parseLetters grammar · text) ahead := by
  induction text with
  | nil => exact .of_nothing (fun _ => by rw [parseLetters]) rfl
  | cons letter rest ih =>
    cases hkind : grammar.letters.kind? letter with
    | none =>
      rw [parseLetters_unknown hkind] at hcomplete
      simp only [parseLetters_unknown hkind]
      exact (ih hcomplete.of_cons).cons _
    | some kind =>
      cases kind with
      | flag =>
        rw [parseLetters_flag hkind] at hcomplete
        simp only [parseLetters_flag hkind]
        exact (ih hcomplete.of_cons).cons _
      | optional =>
        by_cases hrest : rest = []
        · subst rest
          exact .of_nothing (parseLetters_optional hkind) rfl
        · exact .of_nothing (parseLetters_rest (Or.inr hkind) hrest) rfl
      | required =>
        by_cases hrest : rest = []
        · subst rest
          cases ahead with
          | nil =>
            rw [parseLetters_missing (Or.inl hkind)] at hcomplete
            exact absurd hcomplete (Meaning.not_complete _ rfl)
          | cons text ahead => exact .of_next (parseLetters_required hkind text) rfl
        · exact .of_nothing (parseLetters_rest (Or.inl hkind) hrest) rfl
      | introducesName =>
        by_cases hrest : rest = []
        · subst rest
          cases ahead with
          | nil =>
            rw [parseLetters_missing (Or.inr hkind)] at hcomplete
            exact absurd hcomplete (Meaning.not_complete _ rfl)
          | cons token ahead =>
            by_cases htoken : token = ""
            · subst token
              exact .of_next (parseLetters_empty_name hkind) rfl
            · rw [parseLetters_next_name hkind htoken] at hcomplete
              exact decided_next_name hkind htoken (decided_parseName hcomplete)
        · rw [parseLetters_name hkind hrest] at hcomplete
          simp only [parseLetters_name hkind hrest]
          exact decided_parseName hcomplete

/-- The elements that an option takes, and the empty name if it ends the options, decide what it
means, as long as it does not lack an argument. -/
theorem decided_parseOption {element : String} (hoption : ¬ isOperand element)
    (hcomplete : (parseOption grammar element ahead).Complete) :
    Decided (parseOption grammar element) ahead := by
  obtain ⟨first, rest, hlist⟩ := exists_of_not_isOperand hoption
  by_cases hfirst : first = '-'
  · subst first
    rw [parseOption_name grammar hlist] at hcomplete ⊢
    exact decided_parseName hcomplete
  · rw [parseOption_letters grammar hlist hfirst] at hcomplete ⊢
    exact decided_parseLetters hcomplete

end Options

/-- A parse `q` under some policy has the options of `p`, which moved its operands, and the same
element ends them; what is ahead of the cursor then is `tail`. -/
structure Parse.Repeats (policy : OperandPolicy) (tail : List String) (p q : Parse) : Prop where
  findings_eq : q.findings policy = p.findings .move
  passed_eq : q.passed policy = p.passed .move
  marker_eq : q.marker = p.marker
  ahead_eq : q.held policy ++ q.rest = tail

namespace Parse.Repeats

variable {policy : OperandPolicy} {tail : List String} {p q : Parse}

theorem cons (elements : List String) (findings : List Finding) (h : Repeats policy tail p q) :
    Repeats policy tail (p.cons (.option elements findings))
      (q.cons (.option elements findings)) where
  findings_eq := by simp [h.findings_eq]
  passed_eq := by simp [h.passed_eq]
  marker_eq := h.marker_eq
  ahead_eq := by simpa using h.ahead_eq

/-- An operand in between makes no difference, as it was moved away. -/
theorem operand (text : String) (h : Repeats policy tail p q) :
    Repeats policy tail (p.cons (.operand text)) q :=
  ⟨h.findings_eq, h.passed_eq, h.marker_eq, h.ahead_eq⟩

end Parse.Repeats

section Parse

variable {grammar : Grammar} {policy : OperandPolicy} (hpolicy : policy ≠ .report)

/-- Behind an option with the elements it takes there may be others than there were. -/
theorem parse_again {element : String} {used rest more : List String}
    (hoption : ¬ isOperand element) (hmarker : element ≠ endMarker)
    (hends : (parseOption grammar element (used ++ rest)).ends = false)
    (hlength : used.length = (parseOption grammar element (used ++ rest)).taken)
    (hsame : parseOption grammar element (used ++ more) =
      parseOption grammar element (used ++ rest)) :
    parse grammar policy (element :: (used ++ more)) =
      (parse grammar policy more).cons
        (.option (element :: used) (parseOption grammar element (used ++ rest)).findings) := by
  rw [parse_option hoption hmarker (hsame ▸ hends), hsame, ← hlength, List.drop_left,
    List.take_left]

theorem isOperand_of_held {elements : List String} :
    ∀ element ∈ (parse grammar policy elements).held policy, isOperand element := by
  induction elements using parse_induction grammar policy with
  | nil => simp [parse, Parse.held]
  | stop element ahead hoperand hstop =>
    subst policy
    simp [parse_stop hoperand, Parse.held]
  | operand element ahead hoperand hnever ih =>
    rw [parse_operand hoperand hnever, Parse.held_cons]
    refine List.forall_mem_append.mpr ⟨?_, ih⟩
    simp [Segment.held, Segment.operands, hoperand]
  | marker ahead => simp [parse_marker, Parse.held]
  | ends element ahead hoption hmarked hends => simp [parse_ends hoption hmarked hends, Parse.held]
  | option element ahead hoption hmarked hends ih =>
    rw [parse_option hoption hmarked hends, Parse.held_cons, Segment.held_option]
    exact ih

/-- Where nothing ended the options, the vector was read to its end, or up to an operand at which
the options stop. -/
theorem rest_of_unmarked {elements : List String}
    (hmarker : (parse grammar policy elements).marker = none) :
    (parse grammar policy elements).rest = [] ∨
      policy = .stop ∧ ∃ element ahead,
        (parse grammar policy elements).rest = element :: ahead ∧ isOperand element := by
  induction elements using parse_induction grammar policy with
  | nil => exact Or.inl (by rw [parse])
  | stop element ahead hoperand hstop =>
    subst policy
    exact Or.inr ⟨rfl, element, ahead, by rw [parse_stop hoperand], hoperand⟩
  | operand element ahead hoperand hnever ih =>
    rw [parse_operand hoperand hnever] at hmarker ⊢
    exact ih hmarker
  | marker ahead =>
    rw [parse_marker] at hmarker
    cases hmarker
  | ends element ahead hoption hmarked hends =>
    rw [parse_ends hoption hmarked hends] at hmarker
    obtain ⟨_, hhead⟩ := parseOption_ends hends
    cases hhead.symm.trans hmarker
  | option element ahead hoption hmarked hends ih =>
    rw [parse_option hoption hmarked hends] at hmarker ⊢
    exact ih hmarker

/-- Where nothing ended the options, only operands are behind them. -/
theorem isOperand_of_unmarked {elements : List String}
    (hmarker : (parse grammar .move elements).marker = none) :
    ∀ element ∈ (parse grammar .move elements).held .move ++ (parse grammar .move elements).rest,
      isOperand element := by
  rcases rest_of_unmarked hmarker with hnil | ⟨hstop, _⟩
  · rw [hnil, List.append_nil]
    exact isOperand_of_held
  · cases hstop

include hpolicy

theorem repeats_operands {tail : List String} (htail : ∀ element ∈ tail, isOperand element) :
    Parse.Repeats policy tail {} (parse grammar policy tail) := by
  induction tail with
  | nil =>
    rw [parse]
    exact ⟨rfl, rfl, rfl, rfl⟩
  | cons element rest ih =>
    obtain ⟨hoperand, hrest⟩ := List.forall_mem_cons.mp htail
    cases policy with
    | report => exact absurd rfl hpolicy
    | stop =>
      rw [parse_stop hoperand]
      exact ⟨rfl, rfl, rfl, rfl⟩
    | move =>
      have hmore := ih hrest
      rw [parse_operand hoperand (by decide)]
      exact ⟨hmore.findings_eq, hmore.passed_eq, hmore.marker_eq,
        congrArg (element :: ·) hmore.ahead_eq⟩

/-- The options of a vector, with the element that ended them, are read again as they were, in
front of whatever may be there; if nothing ended them, it must be operands. -/
theorem parse_repeats {elements tail : List String}
    (hcomplete : ∀ finding ∈ (parse grammar .move elements).findings .move, finding.Complete)
    (htail : (parse grammar .move elements).marker = none → ∀ element ∈ tail, isOperand element) :
    (parse grammar .move elements).Repeats policy tail
      (parse grammar policy ((parse grammar .move elements).passed .move ++
        (parse grammar .move elements).marker.toList ++ tail)) := by
  induction elements using parse_induction grammar .move with
  | nil =>
    rw [parse] at htail ⊢
    exact repeats_operands hpolicy (htail rfl)
  | stop element ahead hoperand hnever => cases hnever
  | operand element ahead hoperand hnever ih =>
    rw [parse_operand hoperand hnever] at hcomplete htail ⊢
    exact (ih hcomplete htail).operand element
  | marker ahead =>
    rw [parse_marker]
    show Parse.Repeats policy tail _ (parse grammar policy (endMarker :: tail))
    rw [parse_marker]
    exact ⟨rfl, rfl, rfl, rfl⟩
  | ends element ahead hoption hmarker hends =>
    obtain ⟨htaken, hhead⟩ := parseOption_ends hends
    rw [parse_ends hoption hmarker hends, htaken] at hcomplete ⊢
    obtain ⟨used, rest, rfl, hlength, hsame⟩ := decided_parseOption hoption
      (fun finding hfinding => hcomplete finding (by simpa [Parse.findings] using hfinding))
    obtain rfl : used = [""] := by
      rw [Meaning.reach, htaken, hends] at hlength
      obtain ⟨token, rfl⟩ := List.length_eq_one_iff.mp hlength
      simpa using hhead
    have hmeaning := hsame tail
    show Parse.Repeats policy tail _ (parse grammar policy (element :: ([""] ++ tail)))
    rw [parse_ends hoption hmarker (hmeaning ▸ hends), hmeaning, htaken]
    refine ⟨?_, ?_, rfl, ?_⟩
    · simp [Parse.findings]
    · simp [Parse.passed]
    · simp [Parse.held]
  | option element ahead hoption hmarker hends ih =>
    have hmeaning : (parseOption grammar element ahead).Complete := by
      rw [parse_option hoption hmarker hends] at hcomplete
      exact (List.forall_mem_append.mp hcomplete).1
    obtain ⟨used, rest, rfl, hlength, hsame⟩ := decided_parseOption hoption hmeaning
    rw [Meaning.reach_eq_taken hends] at hlength
    rw [parse_again hoption hmarker hends hlength rfl] at hcomplete htail ⊢
    rw [← hlength, List.drop_left] at ih
    have hpieces :
        ((parse grammar .move rest).cons (.option (element :: used)
            (parseOption grammar element (used ++ rest)).findings)).passed .move ++
          (parse grammar .move rest).marker.toList ++ tail =
        element :: (used ++ ((parse grammar .move rest).passed .move ++
          (parse grammar .move rest).marker.toList ++ tail)) := by
      simp
    rw [Parse.marker_cons, hpieces, parse_again hoption hmarker hends hlength (hsame _)]
    exact (ih (List.forall_mem_append.mp hcomplete).2 htail).cons _ _

end Parse

namespace Host

/-- No option of a scan lacks an argument, if none of its items says so. -/
theorem Drained.complete {h : Host} {grammar : Grammar} {k : Nat} {policy : OperandPolicy}
    {p : Parse} {replies : List Reply} (hdrained : Drained h grammar k policy p replies)
    (hitems : ∀ item ∈ replies.filterMap Reply.item?, ∀ error ∈ item.error,
      error.lacksArgument = false) : ∀ finding ∈ p.findings policy, finding.Complete := by
  intro finding hfinding error herror
  apply hitems (finding.item grammar.letters)
  · rw [hdrained.items_eq]
    exact List.mem_map_of_mem hfinding
  · rw [← Finding.error?_eq_item, herror]
    rfl

/-- A second scan from element `k` on, of the vector that a scan which moved its operands has left.
If no option lacked an argument, it hands back the same items and stops at the same element, and
the vector stays as it is; it makes no difference whether it passes over operands as well or stops
at the first. -/
theorem drain_again (h : Host) (letters : OptionString) (table : LongTable) (k : Nat) (hk : 1 ≤ k)
    (hstart : h.session.StartsAt k) (hstrict : h.session.config.strict = false)
    (hplain : letters.Plain) :
    ∃ replies, h.drain ⟨letters, table⟩ = .ok replies ∧
      replies.getLast?.map Reply.code = some none ∧
      ((∀ item ∈ replies.filterMap Reply.item?, ∀ error ∈ item.error,
          error.lacksArgument = false) →
        ∀ (again : Host) (other : OptionString), again.args = (h.after replies).args →
          again.session.StartsAt k → other = letters ∨ other = letters.stopping →
          ∃ replies', again.drain ⟨other, table⟩ = .ok replies' ∧
            replies'.getLast?.map Reply.code = some none ∧
            replies'.filterMap Reply.item? = replies.filterMap Reply.item? ∧
            (again.after replies').args = again.args ∧
            (again.after replies').session.cursor = (h.after replies).session.cursor) := by
  obtain ⟨replies, hfirst⟩ := exists_drained h ⟨letters, table⟩ k hk hstart .move
    (Config.policy_of_plain hstrict hplain) _ rfl
  refine ⟨replies, hfirst.drain_eq, hfirst.ended, ?_⟩
  intro hcomplete again other hargs hagain hother
  generalize hp : parse ⟨letters, table⟩ .move (h.args.drop k) = p at hfirst
  obtain ⟨hletters, hmode⟩ : other.letters = letters.letters ∧ other.policy ≠ .report := by
    rcases hother with rfl | rfl
    · exact ⟨rfl, by simp [OptionString.policy_of_plain hplain]⟩
    · exact ⟨OptionString.letters_stopping hplain, by simp [OptionString.policy_stopping]⟩
  have hdrop : again.args.drop k =
      p.passed .move ++ p.marker.toList ++ (p.held .move ++ p.rest) := by
    rw [hargs, hfirst.args_eq]
    exact drop_scanned ⟨letters, table⟩ .move h.args k p hp.symm
  have hrepeats : p.Repeats (again.session.config.policy other) (p.held .move ++ p.rest)
      (parse ⟨other, table⟩ (again.session.config.policy other) (again.args.drop k)) := by
    rw [parse_of_letters hletters, hdrop, ← hp]
    apply parse_repeats (Config.policy_ne_report hmode)
    · rw [hp]
      exact hfirst.complete hcomplete
    · exact isOperand_of_unmarked
  obtain ⟨replies', hsecond⟩ :=
    exists_drained again ⟨other, table⟩ k hk hagain _ rfl _ rfl
  refine ⟨replies', hsecond.drain_eq, hsecond.ended, ?_, ?_, ?_⟩
  · rw [hsecond.items_eq, hrepeats.findings_eq, hfirst.items_eq, Finding.item_of_letters hletters]
  · rw [hsecond.args_eq, hrepeats.passed_eq, hrepeats.marker_eq, List.append_assoc,
      hrepeats.ahead_eq, List.append_assoc, List.append_assoc, ← List.append_assoc (p.passed .move),
      ← hdrop, List.take_append_drop]
  · rw [hsecond.cursor_eq, hrepeats.passed_eq, hrepeats.marker_eq, hfirst.cursor_eq]

/-- Operands between the options, one of them a dash, arguments in elements of their own, a letter
that is unknown, and a name that is one as well; the second scans are one of the same session and
one of a strict session with a `+` in front of the letters. -/
theorem drain_again_interleaved :
    let h : Host :=
      { args := ["prog", "in", "-axb", "-v", "-", "-W", "name", "--", "out", "--no", "-a"] }
    let grammar : Grammar := ⟨⟨"ab:W;"⟩, [⟨"name", .required, 110, none⟩]⟩
    ∃ replies, h.drain grammar = .ok replies ∧
      (h.after replies).args =
        ["prog", "-axb", "-v", "-W", "name", "--", "--no", "-a", "in", "-", "out"] ∧
      (∃ replies',
        Host.drain
          { session := (h.after replies).session.setCursor 1, args := (h.after replies).args }
          grammar = .ok replies' ∧
        replies'.filterMap Reply.item? = replies.filterMap Reply.item?) ∧
      ∃ replies',
        Host.drain { session := { config := { strict := true } }, args := (h.after replies).args }
          ⟨⟨"+ab:W;"⟩, grammar.table⟩ = .ok replies' ∧
        replies'.filterMap Reply.item? = replies.filterMap Reply.item? := by
  intro h grammar
  obtain ⟨replies, hdrain, _, hagain⟩ :=
    drain_again h grammar.letters grammar.table 1 (Nat.le_refl 1)
      (Session.startsAt_new {} (Reporter.lines Reporter.defaultLabel)) rfl ⟨by decide, by decide⟩
  have hitems : (h.drain grammar).toOption.map (List.filterMap Reply.item?) =
      some [⟨97, none, none, none⟩, ⟨63, none, none, some (.unknownLetter 'x')⟩,
        ⟨98, some "-v", none, none⟩, ⟨110, some "--", some 0, none⟩,
        ⟨63, none, none, some (.unknownName "no")⟩, ⟨97, none, none, none⟩] := by
    decide +kernel
  have hargs : (h.drain grammar).toOption.map (fun replies => (h.after replies).args) =
      some ["prog", "-axb", "-v", "-W", "name", "--", "--no", "-a", "in", "-", "out"] := by
    decide +kernel
  rw [show h.drain grammar = .ok replies from hdrain] at hitems hargs
  have hcomplete : ∀ item ∈ replies.filterMap Reply.item?, ∀ error ∈ item.error,
      error.lacksArgument = false := by
    rw [Option.some.inj hitems]
    decide
  obtain ⟨same, hsame, _, hsameItems, _⟩ := hagain hcomplete
    { session := (h.after replies).session.setCursor 1, args := (h.after replies).args }
    grammar.letters rfl (Session.startsAt_setCursor _ 1) (Or.inl rfl)
  obtain ⟨strict, hstrict, _, hstrictItems, _⟩ := hagain hcomplete
    { session := { config := { strict := true } }, args := (h.after replies).args }
    ⟨"+ab:W;"⟩ rfl (Session.startsAt_new _ _) (Or.inr rfl)
  exact ⟨replies, hdrain, Option.some.inj hargs, ⟨same, hsame, hsameItems⟩, strict, hstrict,
    hstrictItems⟩

/-- An option that lacks an argument is left in front of the operand, which is its argument then. -/
example :
    let items (args : List String) : Option (List Item) :=
      (Host.drain { args } ⟨⟨"b:"⟩, []⟩).toOption.map (List.filterMap Reply.item?)
    items ["prog", "in", "-b"] = some [⟨63, none, none, some (.missingLetterArgument 'b')⟩] ∧
      items ["prog", "-b", "in"] = some [⟨98, some "in", none, none⟩] := by
  decide +kernel

end Host

end OptionScan
