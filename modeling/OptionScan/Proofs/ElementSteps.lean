import OptionScan.Proofs.Names
import OptionScan.Proofs.Steps

/-!
The readings of one option element. A long option is read by one call. Option letters are read by
one call each, and the byte position that a call leaves behind is the width of the letters before
it; so the position always names the letters that are still to be read.
-/

namespace OptionScan

variable {front options operands ahead : List String} {element : String} {w : Walk}

/-- The option that stands at the cursor has been read by one call: what the call found is all that
the element means, and the walk is past the element and its arguments. -/
structure Reading.Covers (front options operands ahead : List String) (element : String)
    (meaning : Meaning) (r : Reading) : Prop where
  offset_eq : r.offset = none
  finding_eq : r.finding?.toList = meaning.findings
  found : r.outcome ≠ .ended
  goes_on : meaning.ends = false
  laid : Laid front (options ++ element :: ahead.take meaning.taken) operands
    (ahead.drop meaning.taken) r.walk
  shut : r.walk.Shut

theorem covers_alone {outcome : Outcome} {finding : Finding}
    (hlaid : Laid front (options ++ [element]) operands ahead w) (hshut : w.Shut)
    (hfinding : outcome.finding? w.args = some finding) :
    Reading.Covers front options operands ahead element { findings := [finding] }
      ⟨w, none, outcome⟩ := by
  refine ⟨rfl, ?_, ?_, rfl, ?_, hshut⟩
  · simp [Reading.finding?, hfinding]
  · exact Reading.outcome_ne_ended (r := ⟨w, none, outcome⟩) hfinding
  · simpa using hlaid

theorem covers_detached {outcome : Outcome} {finding : Finding} {text : String}
    (hlaid : Laid front (options ++ [element]) operands (text :: ahead) w) (hshut : w.Shut)
    (hfinding : outcome.finding? w.args = some finding) :
    Reading.Covers front options operands (text :: ahead) element
      { findings := [finding], taken := 1 } ⟨w.advance, none, outcome⟩ := by
  refine ⟨rfl, ?_, ?_, rfl, ?_, hshut.advance⟩
  · simp [Reading.finding?, Walk.advance, hfinding]
  · exact Reading.outcome_ne_ended (r := ⟨w, none, outcome⟩) hfinding
  · simpa using hlaid.advance hshut

theorem finding?_entry (args : List String) (resolved : Resolution)
    (argument : Option Location) :
    (Outcome.entry resolved argument).finding? args =
      some (.entry resolved (argument.bind (Location.text? args))) := by
  unfold Outcome.entry Finding.entry
  cases resolved.entry.cell <;> rfl

/-- The argument of an entry is the one that the parse gives it. -/
theorem readEntry_covers {token : String} {resolved : Resolution} (table : LongTable)
    (index offset : Nat) (hlaid : Laid front (options ++ [element]) operands ahead w)
    (hshut : w.Shut) (hresolve : table.resolve token = .ok resolved)
    (htext : ∀ value, resolved.value = some value →
      Location.text? w.args ⟨index, offset + byteWidth resolved.name.toList + 1⟩ = some value) :
    (w.readEntry index offset token resolved).Covers front options operands ahead element
      (parseName table token ahead) := by
  unfold Walk.readEntry parseName
  cases hrule : resolved.entry.argument with
  | none =>
    cases hvalue : resolved.value with
    | none =>
      simp only [hresolve, hrule, hvalue]
      exact covers_alone hlaid hshut (finding?_entry ..)
    | some value =>
      simp only [hresolve, hrule, hvalue]
      exact covers_alone hlaid hshut rfl
  | optional =>
    cases hvalue : resolved.value with
    | none =>
      simp only [hresolve, hrule, hvalue]
      exact covers_alone hlaid hshut (finding?_entry ..)
    | some value =>
      simp only [hresolve, hrule, hvalue]
      apply covers_alone hlaid hshut
      rw [finding?_entry, Option.bind_some, htext value hvalue]
  | required =>
    have hlength := hlaid.length_args
    cases hvalue : resolved.value with
    | some value =>
      simp only [hresolve, hrule, hvalue]
      apply covers_alone hlaid hshut
      rw [finding?_entry, Option.bind_some, htext value hvalue]
    | none =>
      cases ahead with
      | nil =>
        simp only [List.length_nil, Nat.add_zero] at hlength
        simp only [hresolve, hrule, hvalue, if_neg (show ¬ w.cursor < w.args.length by omega)]
        exact covers_alone hlaid hshut rfl
      | cons text more =>
        simp only [List.length_cons] at hlength
        have hget : w.args[w.cursor]? = some text := by
          simpa using hlaid.getElem?_cursor_add 0
        simp only [hresolve, hrule, hvalue, if_pos (show w.cursor < w.args.length by omega)]
        apply covers_detached hlaid hshut
        rw [finding?_entry, Option.bind_some, Location.text?_whole hget]

/-- A long option is read from the element at the cursor, where its text comes after `before`. -/
theorem readName_covers {before : List Char} {token : String} (table : LongTable)
    (hlaid : Laid front options operands (element :: ahead) w) (hshut : w.Shut)
    (helement : element.toList = before ++ token.toList) (htoken : token ≠ "") :
    ∃ r, w.readName table w.cursor (byteWidth before) = .ok r ∧
      r.Covers front options operands ahead element (parseName table token ahead) := by
  have hget : w.args[w.cursor]? = some element := by
    simpa using hlaid.getElem?_cursor_add 0
  have hwidth : ¬ byteWidth element.toList ≤ byteWidth before := by
    have hpos : byteWidth token.toList ≠ 0 := by
      rw [Ne, byteWidth_eq_zero]
      simpa using htoken
    rw [helement, byteWidth_append]
    omega
  have hdrop : dropBytes? element.toList (byteWidth before) = some token.toList := by
    rw [helement, dropBytes?_append]
  have hadvance : Laid front (options ++ [element]) operands ahead
      { w with cursor := w.cursor + 1 } := hlaid.advance hshut
  unfold Walk.readName
  simp only [hget, if_neg hwidth, hdrop, String.ofList_toList]
  cases hresolve : table.resolve token with
  | error error =>
    refine ⟨_, rfl, ?_⟩
    simp only [parseName, hresolve]
    exact covers_alone hadvance hshut rfl
  | ok resolved =>
    refine ⟨_, rfl, readEntry_covers table w.cursor (byteWidth before) hadvance hshut hresolve ?_⟩
    intro value hvalue
    have hsplit := LongTable.splitToken_of_resolve hresolve
    rw [hvalue] at hsplit
    have hparts : element.toList = (before ++ resolved.name.toList ++ ['=']) ++ value.toList := by
      simp [helement, LongTable.splitToken_eq_some hsplit]
    have hoffset : byteWidth before + byteWidth resolved.name.toList + 1 =
        byteWidth (before ++ resolved.name.toList ++ ['=']) := by
      simp only [byteWidth_append]
      rfl
    rw [hoffset, Location.text?_of_append hget hparts, String.ofList_toList]

/-- Where the calls that read an option element come to: before the next element, or at the end of
the scan if an empty name after the element ends the options. -/
inductive Lands (grammar : Grammar) (policy : OperandPolicy)
    (front options operands ahead : List String) (element : String) (meaning : Meaning) :
    Except Fault Reading → Prop
  | goesOn (w : Walk) (hends : meaning.ends = false)
      (hlaid : Laid front (options ++ element :: ahead.take meaning.taken) operands
        (ahead.drop meaning.taken) w)
      (hshut : w.Shut) :
      Lands grammar policy front options operands ahead element meaning
        (w.readNext grammar policy)
  | ends (last : Reading) (hends : meaning.ends = true)
      (hlast : last.Ends front
        (options ++ element :: ahead.take meaning.taken ++ ahead.head?.toList) operands
        ahead.tail) :
      Lands grammar policy front options operands ahead element meaning (.ok last)

theorem Lands.cons {grammar : Grammar} {policy : OperandPolicy} {meaning : Meaning}
    {target : Except Fault Reading} (finding : Finding)
    (h : Lands grammar policy front options operands ahead element meaning target) :
    Lands grammar policy front options operands ahead element (meaning.cons finding) target := by
  cases h with
  | goesOn w hends hlaid hshut => exact .goesOn w hends hlaid hshut
  | ends last hends hlast => exact .ends last hends hlast

def ReadsAs (grammar : Grammar) (policy : OperandPolicy)
    (front options operands ahead : List String) (element : String) (meaning : Meaning)
    (first : Except Fault Reading) : Prop :=
  ∃ rs target, Steps grammar policy first rs target ∧
    rs.filterMap Reading.finding? = meaning.findings ∧
    Lands grammar policy front options operands ahead element meaning target

theorem Reading.Covers.readsAs {grammar : Grammar} {policy : OperandPolicy} {meaning : Meaning}
    {r : Reading} (hfront : 0 < front.length)
    (h : r.Covers front options operands ahead element meaning) :
    ReadsAs grammar policy front options operands ahead element meaning (.ok r) := by
  have hcursor := h.laid.length_front_le
  have hnext : r.next grammar policy = Walk.readNext { r.walk with outputs := [] } grammar policy := by
    simp only [Reading.next, h.offset_eq]
  refine ⟨[r], _, .step h.found ⟨by omega, Or.inl h.offset_eq⟩ (.refl _), ?_, ?_⟩
  · rw [← h.finding_eq, List.filterMap_cons, List.filterMap_nil]
    cases r.finding? <;> rfl
  · rw [hnext]
    exact .goesOn _ h.goes_on (h.laid.of_outputs []) h.shut

/-- An empty name after the element ends the scan. -/
theorem readName_ends {more : List String} (table : LongTable)
    (hlaid : Laid front options operands (element :: "" :: more) w) (hshut : w.Shut) :
    ∃ last, w.readName table (w.cursor + 1) 0 = .ok last ∧
      last.Ends front (options ++ [element, ""]) operands more := by
  have hget : w.args[w.cursor + 1]? = some "" := by
    simpa using hlaid.getElem?_cursor_add 1
  have hpast : Laid front (options ++ [element] ++ [""]) operands more
      { w with cursor := w.cursor + 1 + 1 } :=
    (hlaid.advance hshut).advance hshut.advance
  obtain ⟨w', hsettle, hargs, hcursor, hblock⟩ := hpast.settle
  refine ⟨⟨w', none, .ended⟩, ?_, rfl, rfl, ?_, ?_, hblock⟩
  · unfold Walk.readName
    simp only [hget, hsettle]
    rfl
  · simpa using hargs
  · simpa using hcursor

/-- One of the calls that read an option element; from where it starts on, the element means
`meaning`. A byte position that it leaves is greater than `least`. -/
inductive Reading.Reads (grammar : Grammar) (front options operands ahead : List String)
    (element : String) (least : Nat) (meaning : Meaning) (r : Reading) : Prop
  /-- Nothing of the element is left. -/
  | whole (hcovers : r.Covers front options operands ahead element meaning)
  /-- The letters from `letter` on, which come after `before`, are left to the next calls. -/
  | part (finding : Finding) (before : List Char) (letter : Char) (after : List Char)
      (helement : element.toList = before ++ letter :: after)
      (hfinding : r.finding? = some finding) (hoffset : r.offset = some (byteWidth before))
      (hleast : least < byteWidth before)
      (hmeaning : meaning = .cons finding (parseLetters grammar ahead (letter :: after)))
      (hlaid : Laid front options operands (element :: ahead) r.walk) (hshut : r.walk.Shut)
  /-- An empty name after the element ends the scan. -/
  | ends (more : List String) (hahead : ahead = "" :: more)
      (hmeaning : meaning = { findings := [], ends := true })
      (hlast : r.Ends front (options ++ [element, ""]) operands more)

/-- A letter that takes nothing. -/
theorem afterLetter_reads {grammar : Grammar} {outcome : Outcome} {finding : Finding}
    {before rest : List Char} {letter : Char}
    (hlaid : Laid front options operands (element :: ahead) w) (hshut : w.Shut)
    (helement : element.toList = before ++ letter :: rest)
    (hfinding : outcome.finding? w.args = some finding) :
    (w.afterLetter (byteWidth before + letter.utf8Size) rest outcome).Reads grammar front options
      operands ahead element (byteWidth before)
      (.cons finding (parseLetters grammar ahead rest)) := by
  cases rest with
  | nil => exact .whole (covers_alone (hlaid.advance hshut) hshut.advance hfinding)
  | cons second more =>
    have hwidth : byteWidth before + letter.utf8Size = byteWidth (before ++ [letter]) := by
      simp [byteWidth]
    have hpos := Char.utf8Size_pos letter
    rw [hwidth]
    exact .part finding (before ++ [letter]) second more (by simp [helement]) hfinding rfl
      (by omega) rfl hlaid hshut

/-- A letter at the end of its element, with its name in the next one. -/
theorem readName_next_reads {grammar : Grammar} {letter : Char} {token : String} (least : Nat)
    (hkind : grammar.letters.kind? letter = some .introducesName)
    (hlaid : Laid front options operands (element :: token :: ahead) w) (hshut : w.Shut) :
    ∃ r, w.readName grammar.table (w.cursor + 1) 0 = .ok r ∧
      r.Reads grammar front options operands (token :: ahead) element least
        (parseLetters grammar (token :: ahead) [letter]) := by
  by_cases hempty : token = ""
  · subst token
    obtain ⟨last, hread, hlast⟩ := readName_ends grammar.table hlaid hshut
    rw [parseLetters_empty_name hkind]
    exact ⟨last, hread, .ends ahead rfl rfl hlast⟩
  · obtain ⟨r, hread, hcovers⟩ := readName_covers grammar.table (hlaid.advance hshut) hshut.advance
      (List.nil_append token.toList).symm hempty
    rw [parseLetters_next_name hkind hempty]
    refine ⟨r, hread, .whole ⟨hcovers.offset_eq, hcovers.finding_eq, hcovers.found,
      hcovers.goes_on, ?_, hcovers.shut⟩⟩
    simpa using hcovers.laid

/-- The last letter of an element. -/
theorem readLast_reads (grammar : Grammar) {before : List Char} {letter : Char}
    (hlaid : Laid front options operands (element :: ahead) w) (hshut : w.Shut)
    (helement : element.toList = before ++ [letter]) :
    ∃ r, w.readLetter grammar (byteWidth before) letter [] = .ok r ∧
      r.Reads grammar front options operands ahead element (byteWidth before)
        (parseLetters grammar ahead [letter]) := by
  have hlength := hlaid.length_args
  have hadvance := hlaid.advance hshut
  unfold Walk.readLetter
  cases hkind : grammar.letters.kind? letter with
  | none =>
    rw [parseLetters_unknown hkind]
    exact ⟨_, rfl, afterLetter_reads hlaid hshut helement rfl⟩
  | some kind =>
    cases kind with
    | flag =>
      rw [parseLetters_flag hkind]
      exact ⟨_, rfl, afterLetter_reads hlaid hshut helement rfl⟩
    | optional =>
      rw [parseLetters_optional hkind]
      exact ⟨_, rfl, .whole (covers_alone hadvance hshut.advance rfl)⟩
    | required =>
      cases ahead with
      | nil =>
        simp only [List.length_cons, List.length_nil] at hlength
        simp only [if_neg (show ¬ w.cursor + 1 < w.args.length by omega)]
        rw [parseLetters_missing (Or.inl hkind)]
        exact ⟨_, rfl, .whole (covers_alone hadvance hshut.advance rfl)⟩
      | cons text more =>
        simp only [List.length_cons] at hlength
        simp only [if_pos (show w.cursor + 1 < w.args.length by omega)]
        have hget : w.args[w.cursor + 1]? = some text := by
          simpa using hlaid.getElem?_cursor_add 1
        rw [parseLetters_required hkind]
        refine ⟨_, rfl, .whole (covers_detached hadvance hshut.advance ?_)⟩
        simp [Outcome.letter, Outcome.finding?, Walk.advance, Location.text?_whole hget,
          Finding.letter]
    | introducesName =>
      cases ahead with
      | nil =>
        simp only [List.length_cons, List.length_nil] at hlength
        simp only [if_neg (show ¬ w.cursor + 1 < w.args.length by omega)]
        rw [parseLetters_missing (Or.inr hkind)]
        exact ⟨_, rfl, .whole (covers_alone hadvance hshut.advance rfl)⟩
      | cons token more =>
        simp only [List.length_cons] at hlength
        simp only [if_pos (show w.cursor + 1 < w.args.length by omega)]
        exact readName_next_reads _ hkind hlaid hshut

/-- A letter of an element, of which `before` is what the element holds in front. -/
theorem readLetter_reads (grammar : Grammar) {before rest : List Char} {letter : Char}
    (hlaid : Laid front options operands (element :: ahead) w) (hshut : w.Shut)
    (helement : element.toList = before ++ letter :: rest) :
    ∃ r, w.readLetter grammar (byteWidth before) letter rest = .ok r ∧
      r.Reads grammar front options operands ahead element (byteWidth before)
        (parseLetters grammar ahead (letter :: rest)) := by
  cases rest with
  | nil => exact readLast_reads grammar hlaid hshut helement
  | cons second more =>
    have hadvance := hlaid.advance hshut
    have hwidth : byteWidth before + letter.utf8Size = byteWidth (before ++ [letter]) := by
      simp [byteWidth]
    have hparts : element.toList = (before ++ [letter]) ++ second :: more := by
      simp [helement]
    have hget : w.args[w.cursor]? = some element := by
      simpa using hlaid.getElem?_cursor_add 0
    have htext := Location.text?_of_append hget hparts
    rw [← hwidth] at htext
    unfold Walk.readLetter
    cases hkind : grammar.letters.kind? letter with
    | none =>
      rw [parseLetters_unknown hkind]
      exact ⟨_, rfl, afterLetter_reads hlaid hshut helement rfl⟩
    | some kind =>
      cases kind with
      | flag =>
        rw [parseLetters_flag hkind]
        exact ⟨_, rfl, afterLetter_reads hlaid hshut helement rfl⟩
      | required =>
        rw [parseLetters_rest (Or.inl hkind) (List.cons_ne_nil _ _)]
        refine ⟨_, rfl, .whole (covers_alone hadvance hshut.advance ?_)⟩
        simp [Outcome.letter, Outcome.finding?, Walk.advance, htext, Finding.letter]
      | optional =>
        rw [parseLetters_rest (Or.inr hkind) (List.cons_ne_nil _ _)]
        refine ⟨_, rfl, .whole (covers_alone hadvance hshut.advance ?_)⟩
        simp [Outcome.letter, Outcome.finding?, Walk.advance, htext, Finding.letter]
      | introducesName =>
        have htoken : element.toList =
            (before ++ [letter]) ++ (String.ofList (second :: more)).toList := by
          rw [hparts, String.toList_ofList]
        obtain ⟨r, hread, hcovers⟩ :=
          readName_covers grammar.table hlaid hshut htoken (by simp)
        rw [← hwidth] at hread
        rw [parseLetters_name hkind (List.cons_ne_nil _ _)]
        exact ⟨r, hread, .whole hcovers⟩

/-- A call goes on with the letters that an earlier one left. -/
theorem resume_of_append {grammar : Grammar} {before after : List Char} {letter : Char}
    (policy : OperandPolicy) (hlaid : Laid front options operands (element :: ahead) w)
    (helement : element.toList = before ++ letter :: after) :
    w.resume grammar policy (byteWidth before) =
      w.readLetter grammar (byteWidth before) letter after := by
  have hget : w.args[w.cursor]? = some element := by
    simpa using hlaid.getElem?_cursor_add 0
  simp only [Walk.resume, hget, helement, dropBytes?_append]

/-- The calls that follow read what is left of the element. -/
theorem Reading.Reads.readsAs {grammar : Grammar} {least : Nat} {meaning : Meaning} {r : Reading}
    (policy : OperandPolicy) (hfront : 0 < front.length)
    (h : r.Reads grammar front options operands ahead element least meaning) :
    ReadsAs grammar policy front options operands ahead element meaning (.ok r) := by
  cases h with
  | whole hcovers => exact hcovers.readsAs hfront
  | ends more hahead hmeaning hlast =>
    subst ahead meaning
    exact ⟨[], _, .refl _, rfl, .ends r rfl (by simpa using hlast)⟩
  | part finding before letter after helement hfinding hoffset _ hmeaning hlaid hshut =>
    subst meaning
    obtain ⟨r', hread, hreads⟩ :=
      readLetter_reads grammar (hlaid.of_outputs []) hshut helement
    have hnext : r.next grammar policy = .ok r' := by
      rw [← hread, ← resume_of_append policy (hlaid.of_outputs []) helement]
      simp only [Reading.next, hoffset]
    have hcursor : 1 ≤ r.walk.cursor := Nat.le_trans hfront hlaid.length_front_le
    have hlength := hlaid.length_args
    simp only [List.length_cons] at hlength
    obtain ⟨rs, target, hsteps, hfindings, hlands⟩ := hreads.readsAs policy hfront
    refine ⟨r :: rs, target, .step (Reading.outcome_ne_ended hfinding) ⟨hcursor, Or.inr ?_⟩ ?_, ?_,
      hlands.cons finding⟩
    · omega
    · rw [hnext]
      exact hsteps
    · rw [List.filterMap_cons_some hfinding, hfindings]
      rfl
termination_by meaning.findings.length
decreasing_by
  subst meaning
  exact Nat.lt_succ_self _

end OptionScan
