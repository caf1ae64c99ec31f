import OptionScan.Proofs.Accounts
import OptionScan.Proofs.Boundaries

/-!
Different ways to write the same options. A long option may be written behind two dashes or behind
the letter that introduces names, and letters that take nothing may share an element with the
letters after them or stand in one of their own. The vectors are scanned alike: the replies give the
same accounts, and the same elements are ahead of the cursor in the end.
-/

namespace OptionScan

section Options

variable {grammar : Grammar} {policy : OperandPolicy} {element element' : String}
  {ahead ahead' : List String}

theorem not_isOperand_of_dash {first : Char} {rest : List Char}
    (hlist : element.toList = '-' :: first :: rest) : ¬ isOperand element := by
  have hdash : element ≠ "-" := by
    rintro rfl
    cases hlist
  simp [isOperand, hlist, hdash]

theorem ne_endMarker_of_letter {first : Char} {rest : List Char}
    (hlist : element.toList = '-' :: first :: rest) (hfirst : first ≠ '-') :
    element ≠ endMarker := by
  rintro rfl
  obtain ⟨_, hrest⟩ := List.cons.inj hlist
  exact hfirst (List.cons.inj hrest).1.symm

/-- Two options that mean the same, with the same elements behind those that they take. -/
theorem alike_option (hoption : ¬ isOperand element) (hmarker : element ≠ endMarker)
    (hends : (parseOption grammar element ahead).ends = false)
    (hoption' : ¬ isOperand element') (hmarker' : element' ≠ endMarker)
    (hends' : (parseOption grammar element' ahead').ends = false)
    (hfindings : (parseOption grammar element ahead).findings =
      (parseOption grammar element' ahead').findings)
    (hdrop : ahead.drop (parseOption grammar element ahead).taken =
      ahead'.drop (parseOption grammar element' ahead').taken) :
    (parse grammar policy (element :: ahead)).Alike policy
      (parse grammar policy (element' :: ahead')) := by
  rw [parse_option hoption hmarker hends, parse_option hoption' hmarker' hends', hfindings, hdrop]
  constructor
  · simp
  · simp

end Options

section Introduced

variable {grammar : Grammar} (hkind : grammar.letters.kind? 'W' = some .introducesName)
  {text : String} (policy : OperandPolicy) (after : List String)

theorem toList_name (text : String) : ("--" ++ text).toList = '-' :: '-' :: text.toList := by
  simp

theorem toList_introduced (text : String) : ("-W" ++ text).toList = '-' :: 'W' :: text.toList := by
  simp

theorem name_ne_endMarker (htext : text ≠ "") : "--" ++ text ≠ endMarker := by
  intro hmarker
  apply htext
  have hlist := congrArg String.toList hmarker
  rw [toList_name] at hlist
  simpa [endMarker] using hlist

theorem parseOption_dashes (grammar : Grammar) (text : String) :
    parseOption grammar ("--" ++ text) = parseName grammar.table text := by
  rw [parseOption_name grammar (toList_name text), String.ofList_toList]

theorem parseOption_introducer (grammar : Grammar) :
    parseOption grammar "-W" = (parseLetters grammar · ['W']) :=
  parseOption_letters grammar rfl (by decide)

include hkind

theorem parseOption_next (htext : text ≠ "") :
    parseOption grammar "-W" (text :: after) =
      { parseName grammar.table text after with
        taken := (parseName grammar.table text after).taken + 1 } := by
  rw [parseOption_introducer]
  exact parseLetters_next_name hkind htext after

theorem parseOption_introduced (htext : text ≠ "") :
    parseOption grammar ("-W" ++ text) = parseName grammar.table text := by
  funext ahead
  rw [parseOption_letters grammar (toList_introduced text) (by decide)]
  simp only
  rw [parseLetters_name hkind (by simpa using htext), String.ofList_toList]

/-- The name stands in the element after the letter. -/
theorem alike_next (text : String) :
    (parse grammar policy ("-W" :: text :: after)).Alike policy
      (parse grammar policy (("--" ++ text) :: after)) := by
  by_cases htext : text = ""
  · -- An empty name ends the options as the end marker does.
    subst text
    have hmeaning : parseOption grammar "-W" ("" :: after) = { findings := [], ends := true } := by
      rw [parseOption_introducer]
      exact parseLetters_empty_name hkind after
    show (parse grammar policy ("-W" :: "" :: after)).Alike policy
      (parse grammar policy (endMarker :: after))
    rw [parse_marker, parse_ends (by decide) (by decide) (by rw [hmeaning]), hmeaning]
    exact ⟨rfl, by simp [Parse.held]⟩
  · have hnext := parseOption_next hkind after htext
    have hname := parseOption_dashes grammar text
    apply alike_option (by decide) (by decide) _ (not_isOperand_of_dash (toList_name text))
      (name_ne_endMarker htext)
    · rw [hname]
      exact parseName_goes_on ..
    · rw [hnext, hname]
    · rw [hnext, hname, List.drop_succ_cons]
    · rw [hnext]
      exact parseName_goes_on ..

/-- The name stands behind the letter. -/
theorem alike_introduced (htext : text ≠ "") :
    (parse grammar policy (("-W" ++ text) :: after)).Alike policy
      (parse grammar policy (("--" ++ text) :: after)) := by
  have hintroduced := parseOption_introduced hkind htext
  have hname := parseOption_dashes grammar text
  apply alike_option (not_isOperand_of_dash (toList_introduced text))
    (ne_endMarker_of_letter (toList_introduced text) (by decide)) _
    (not_isOperand_of_dash (toList_name text)) (name_ne_endMarker htext)
  · rw [hname]
    exact parseName_goes_on ..
  · rw [hintroduced, hname]
  · rw [hintroduced, hname]
  · rw [hintroduced]
    exact parseName_goes_on ..

end Introduced

namespace Host

/-- A name behind the letter `W`, where that introduces names, is scanned like the name behind two
dashes, whether it stands in the same element or in the next; an empty one, which can only stand in
the next, ends the options as the end marker does. -/
theorem drain_introduces_name {session : Session} {grammar : Grammar} {before : List String}
    (hbefore : before ≠ []) (hstart : session.StartsAt before.length)
    (hkind : grammar.letters.kind? 'W' = some .introducesName) (text : String)
    (after : List String) (cells : List Int) :
    let host (elements : List String) : Host :=
      { session, args := before ++ elements ++ after, cells }
    ScansAlike grammar (host ["-W", text]) (host ["--" ++ text]) ∧
      (text ≠ "" → ScansAlike grammar (host ["-W" ++ text]) (host ["--" ++ text])) ∧
      (text = "" → ∃ replies, (host ["--" ++ text]).drain grammar = .ok replies ∧
        replies.getLast?.map Reply.code = some none ∧ replies.filterMap Reply.item? = [] ∧
        ((host ["--" ++ text]).after replies).args.drop
          ((host ["--" ++ text]).after replies).session.cursor = after) := by
  intro host
  refine ⟨?_, ?_, ?_⟩
  · exact scansAlike_of_parse hbefore hstart cells (alike_next hkind _ after text)
  · intro htext
    exact scansAlike_of_parse hbefore hstart cells (alike_introduced hkind _ after htext)
  · rintro rfl
    have hdrop : (host [endMarker]).args.drop before.length = endMarker :: after := by
      simp only [host, List.append_assoc, List.drop_left]
      rfl
    obtain ⟨replies, hdrained⟩ := exists_drained (host [endMarker]) grammar before.length
      (List.length_pos_of_ne_nil hbefore) hstart _ rfl _ rfl
    rw [hdrop, parse_marker] at hdrained
    refine ⟨replies, hdrained.drain_eq, hdrained.ended, ?_, ?_⟩
    · rw [hdrained.items_eq]
      rfl
    · refine hdrained.ahead_eq.trans ?_
      simp [Parse.held]

/-- The name is short for that of an entry with a flag cell, and its argument looks like the letter
that introduces names. -/
theorem drain_introduces_name_abbreviated :
    let host (elements : List String) : Host :=
      { session := Session.setCursor {} 2
        args := ["prog", "in"] ++ elements ++ ["-W", "out", "-Wx", "-a"], cells := [0] }
    let grammar : Grammar := ⟨⟨"aW;"⟩, [⟨"née", .required, 300, some 0⟩]⟩
    ScansAlike grammar (host ["-W", "né"]) (host ["--" ++ "né"]) ∧
      ScansAlike grammar (host ["-W" ++ "né"]) (host ["--" ++ "né"]) ∧
      ((host ["-W", "né"]).drain grammar).toOption.map (List.map Reply.account) =
        some [⟨some ⟨0, some "-W", some 0, none⟩, none, [300], ""⟩,
          ⟨some ⟨63, none, none, some (.unknownName "x")⟩, some 0, [300],
            "getopt_long: unknown option -- x\n"⟩,
          ⟨some ⟨97, none, none, none⟩, none, [300], ""⟩, ⟨none, none, [300], ""⟩] := by
  intro host grammar
  have hkind : grammar.letters.kind? 'W' = some .introducesName := by decide
  have hbefore : ["prog", "in"] ≠ [] := List.cons_ne_nil _ _
  obtain ⟨hnext, hbehind, _⟩ := drain_introduces_name hbefore (Session.startsAt_setCursor {} 2)
    hkind "né" ["-W", "out", "-Wx", "-a"] [0]
  exact ⟨hnext, hbehind (by decide), by decide +kernel⟩

end Host

/-- Letters that take nothing are found one by one, whatever comes after them. -/
theorem exists_findings_of_flags {grammar : Grammar} {first : List Char}
    (hflags : ∀ letter ∈ first, grammar.letters.kind? letter = none ∨
      grammar.letters.kind? letter = some .flag) :
    ∃ found, ∀ ahead rest, parseLetters grammar ahead (first ++ rest) =
      (parseLetters grammar ahead rest).prepend found := by
  induction first with
  | nil => exact ⟨[], fun _ _ => rfl⟩
  | cons letter first ih =>
    obtain ⟨hletter, hlater⟩ := List.forall_mem_cons.mp hflags
    obtain ⟨found, hfound⟩ := ih hlater
    rcases hletter with hunknown | hflag
    · refine ⟨.failed (.unknownLetter letter) (.ofChar letter) :: found, ?_⟩
      intro ahead rest
      rw [List.cons_append, parseLetters_unknown hunknown, hfound]
      rfl
    · refine ⟨.letter letter none :: found, ?_⟩
      intro ahead rest
      rw [List.cons_append, parseLetters_flag hflag, hfound]
      rfl

theorem parseOption_dash (grammar : Grammar) {letters : String} (hnonempty : letters ≠ "")
    (hdash : letters.toList.head? ≠ some '-') :
    parseOption grammar ("-" ++ letters) = (parseLetters grammar · letters.toList) ∧
      ¬ isOperand ("-" ++ letters) ∧ "-" ++ letters ≠ endMarker := by
  cases hlist : letters.toList with
  | nil => exact absurd (by simpa using hlist) hnonempty
  | cons first rest =>
    have hfirst : first ≠ '-' := by simpa [hlist] using hdash
    have hwhole : ("-" ++ letters).toList = '-' :: first :: rest := by simp [hlist]
    exact ⟨parseOption_letters grammar hwhole hfirst, not_isOperand_of_dash hwhole,
      ne_endMarker_of_letter hwhole hfirst⟩

/-- An option that finds `found` and then what another one finds, against an option that finds
`found` alone, with that other one behind it. -/
theorem alike_prepend {grammar : Grammar} {policy : OperandPolicy} {joined front back : String}
    {after : List String} {found : List Finding}
    (hjoined : ¬ isOperand joined) (hmarker : joined ≠ endMarker)
    (hfront : ¬ isOperand front) (hfrontMarker : front ≠ endMarker)
    (hback : ¬ isOperand back) (hbackMarker : back ≠ endMarker)
    (hwhole : parseOption grammar joined after = (parseOption grammar back after).prepend found)
    (hfound : parseOption grammar front (back :: after) = { findings := found }) :
    (parse grammar policy (joined :: after)).Alike policy
      (parse grammar policy (front :: back :: after)) := by
  rw [parse_option hfront hfrontMarker (by rw [hfound]), hfound, List.drop_zero]
  cases hends : (parseOption grammar back after).ends with
  | false =>
    have hgoesOn : (parseOption grammar joined after).ends = false := by
      rw [hwhole]
      exact hends
    rw [parse_option hjoined hmarker hgoesOn, parse_option hback hbackMarker hends, hwhole]
    constructor
    · simp [Meaning.prepend]
    · simp [Meaning.prepend]
  | true =>
    have hstops : (parseOption grammar joined after).ends = true := by
      rw [hwhole]
      exact hends
    rw [parse_ends hjoined hmarker hstops, parse_ends hback hbackMarker hends, hwhole]
    constructor
    · simp [Meaning.prepend, Parse.findings, Parse.cons]
    · simp [Parse.held, Parse.cons]

theorem alike_split {grammar : Grammar} (policy : OperandPolicy) {first second : String}
    (hfirst : first ≠ "") (hsecond : second ≠ "") (hdash : first.toList.head? ≠ some '-')
    (hdash' : second.toList.head? ≠ some '-')
    (hflags : ∀ letter ∈ first.toList, grammar.letters.kind? letter = none ∨
      grammar.letters.kind? letter = some .flag) (after : List String) :
    (parse grammar policy (("-" ++ (first ++ second)) :: after)).Alike policy
      (parse grammar policy (("-" ++ first) :: ("-" ++ second) :: after)) := by
  have hjoined : first ++ second ≠ "" := by simp [hfirst]
  have hdashJoined : (first ++ second).toList.head? ≠ some '-' := by
    have hnil : first.toList ≠ [] := by simpa using hfirst
    rw [String.toList_append, List.head?_append_of_ne_nil _ hnil]
    exact hdash
  obtain ⟨found, hfound⟩ := exists_findings_of_flags hflags
  obtain ⟨hmeansJoined, hoptionJoined, hmarkerJoined⟩ :=
    parseOption_dash grammar hjoined hdashJoined
  obtain ⟨hmeansFirst, hoptionFirst, hmarkerFirst⟩ := parseOption_dash grammar hfirst hdash
  obtain ⟨hmeansSecond, hoptionSecond, hmarkerSecond⟩ := parseOption_dash grammar hsecond hdash'
  have hwhole : parseOption grammar ("-" ++ (first ++ second)) after =
      (parseOption grammar ("-" ++ second) after).prepend found := by
    simp only [hmeansJoined, hmeansSecond, String.toList_append, hfound]
  have halone : parseOption grammar ("-" ++ first) (("-" ++ second) :: after) =
      { findings := found } := by
    have hnothing := hfound (("-" ++ second) :: after) []
    rw [List.append_nil] at hnothing
    simp only [hmeansFirst, hnothing, parseLetters, Meaning.prepend, List.append_nil]
  exact alike_prepend hoptionJoined hmarkerJoined hoptionFirst hmarkerFirst hoptionSecond
    hmarkerSecond hwhole halone

namespace Host

/-- A cluster may be split in two behind letters that take nothing, whether they are options or
unknown; both parts must be letters still, with no dash in front of them. -/
theorem drain_splits_cluster {session : Session} {grammar : Grammar} {before : List String}
    (hbefore : before ≠ []) (hstart : session.StartsAt before.length) {first second : String}
    (hfirst : first ≠ "") (hsecond : second ≠ "") (hdash : first.toList.head? ≠ some '-')
    (hdash' : second.toList.head? ≠ some '-')
    (hflags : ∀ letter ∈ first.toList, grammar.letters.kind? letter = none ∨
      grammar.letters.kind? letter = some .flag) (after : List String) (cells : List Int) :
    let host (elements : List String) : Host :=
      { session, args := before ++ elements ++ after, cells }
    ScansAlike grammar (host ["-" ++ first ++ second]) (host ["-" ++ first, "-" ++ second]) := by
  intro host
  rw [String.append_assoc]
  exact scansAlike_of_parse hbefore hstart cells
    (alike_split _ hfirst hsecond hdash hdash' hflags after)

/-- An unknown letter of two bytes and a colon in the first part; the second ends in the letter that
introduces names, whose name is in the next element, and a block of operands follows. -/
theorem drain_splits_cluster_unknown :
    let host (elements : List String) : Host :=
      { args := ["prog"] ++ elements ++ ["name=v", "in", "-a", "--", "out"] }
    let grammar : Grammar := ⟨⟨"aW;"⟩, [⟨"name", .optional, 110, none⟩]⟩
    ScansAlike grammar (host ["-" ++ "aé:" ++ "aW"]) (host ["-" ++ "aé:", "-" ++ "aW"]) ∧
      ((host ["-" ++ "aé:", "-" ++ "aW"]).drain grammar).toOption.map
          (List.filterMap Reply.item?) =
        some [⟨97, none, none, none⟩, ⟨63, none, none, some (.unknownLetter 'é')⟩,
          ⟨63, none, none, some (.unknownLetter ':')⟩, ⟨97, none, none, none⟩,
          ⟨110, some "v", some 0, none⟩, ⟨97, none, none, none⟩] := by
  intro host grammar
  have hbefore : ["prog"] ≠ [] := List.cons_ne_nil _ _
  have hflags : ∀ letter ∈ "aé:".toList, grammar.letters.kind? letter = none ∨
      grammar.letters.kind? letter = some .flag := by
    have hlist : "aé:".toList = ['a', 'é', ':'] := by decide
    rw [hlist, List.forall_mem_cons, List.forall_mem_cons, List.forall_mem_singleton]
    exact ⟨Or.inr (by decide), Or.inl (by decide), Or.inl (by decide)⟩
  refine ⟨?_, by decide +kernel⟩
  exact drain_splits_cluster hbefore
    (Session.startsAt_new {} (Reporter.lines Reporter.defaultLabel)) (by decide) (by decide)
    (by decide) (by decide) hflags ["name=v", "in", "-a", "--", "out"] []

end Host

end OptionScan
