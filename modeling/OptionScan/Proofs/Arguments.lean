import OptionScan.Proofs.Endings
import OptionScan.Proofs.Resolutions

/-!
Arguments. A call records where the argument of its option is, and the text is read later from the
vector that the call has left. Whatever the call did to the vector, the place that it records is the
end of the element before the cursor: all of it, or what follows the letter or the first `=` of the
name. So the text can always be read; and there is one just where the option is declared to have it.
-/

namespace OptionScan

def Stands (args : List String) (index : Nat) (before after : List Char) : Prop :=
  ∃ element, args[index]? = some element ∧ element.toList = before ++ after

/-- The argument is the text at the end of the last element that was read, and it can be read
back. -/
structure Takes (args : List String) (cursor : Nat) (argument : Option Location)
    (before : List Char) (text : String) : Prop where
  one_le_cursor : 1 ≤ cursor
  stands : Stands args (cursor - 1) before text.toList
  argument_eq : argument = some ⟨cursor - 1, byteWidth before⟩
  text_eq : argument.bind (Location.text? args) = some text

/-- The argument of an option that is read in the element at `index`, by the rule for it. Text that
is attached to the option comes with what is before it in the element. -/
inductive Supplied (args : List String) (cursor : Nat) (argument : Option Location)
    (index : Nat) : ArgumentRule → (attached : Option (List Char × String)) → Prop
  | never (attached : Option (List Char × String)) (hcursor : index ≤ cursor ∧ cursor ≤ index + 1)
      (hnone : argument = none) : Supplied args cursor argument index .none attached
  | attached (rule : ArgumentRule) (before : List Char) (text : String) (hrule : rule ≠ .none)
      (hcursor : cursor = index + 1) (htakes : Takes args cursor argument before text) :
      Supplied args cursor argument index rule (some (before, text))
  | detached (text : String) (hcursor : cursor = index + 2)
      (htakes : Takes args cursor argument [] text) :
      Supplied args cursor argument index .required none
  | omitted (hcursor : cursor = index + 1) (hnone : argument = none) :
      Supplied args cursor argument index .optional none

def LetterKind.rule? : LetterKind → Option ArgumentRule
  | flag => some .none
  | required => some .required
  | optional => some .optional
  | introducesName => none

def attachedRest (before : List Char) (letter : Char) :
    (rest : List Char) → Option (List Char × String)
  | [] => none
  | rest => some (before ++ [letter], String.ofList rest)

def Resolution.attachedValue (resolved : Resolution) (before : List Char) :
    Option (List Char × String) :=
  resolved.value.map fun value => (before ++ resolved.name.toList ++ ['='], value)

def LongEntry.code (entry : LongEntry) : Code :=
  match entry.cell with
  | none => entry.value
  | some _ => .stored

namespace Host

def leftOver (h : Host) : List Char :=
  (do
    let offset ← h.startOffset
    let element ← h.args[h.start.cursor]?
    dropBytes? element.toList offset).getD []

/-- A call looks for a letter behind `before` in the element at `index`: where an earlier call left
off, or else behind the dash of an option. -/
inductive Looks (h : Host) (index : Nat) (before : List Char) : Prop
  | leftOff (hleft : h.leftOver ≠ []) (hindex : index = h.start.cursor)
      (hoffset : h.startOffset = some (byteWidth before))
  | dash (hleft : h.leftOver = []) (hbefore : before = ['-'])

/-- A call finds a name behind `before` in the element at `index`: behind two dashes, or behind a
letter that introduces it, or in the element after such a letter. -/
inductive Names (h : Host) (grammar : Grammar) (args : List String) :
    (index : Nat) → (before : List Char) → (token : String) → Prop
  | dashes (index : Nat) (token : String) (hleft : h.leftOver = [])
      (hstands : Stands args index ['-', '-'] token.toList) :
      Names h grammar args index ['-', '-'] token
  | rest (index : Nat) (before : List Char) (letter : Char) (token : String)
      (hlooks : h.Looks index before) (hstands : Stands args index before (letter :: token.toList))
      (hkind : grammar.letters.kind? letter = some .introducesName) :
      Names h grammar args index (before ++ [letter]) token
  | next (index : Nat) (before : List Char) (letter : Char) (token : String)
      (hlooks : h.Looks index before) (hstands : Stands args index before [letter])
      (hkind : grammar.letters.kind? letter = some .introducesName)
      (hnext : args[index + 1]? = some token) : Names h grammar args (index + 1) [] token

inductive Finds (h : Host) (grammar : Grammar) (args : List String) (cursor : Nat) :
    (code : Code) → (argument : Option Location) → (entryIndex : Option Nat) → Prop
  | operand (argument : Option Location) (text : String) (hleft : h.leftOver = [])
      (hoperand : isOperand text)
      (hpolicy : h.session.config.policy grammar.letters = .report)
      (htakes : Takes args cursor argument [] text) :
      Finds h grammar args cursor .operand argument none
  | letter (argument : Option Location) (letter : Char) (kind : LetterKind) (rule : ArgumentRule)
      (index : Nat) (before rest : List Char) (hlooks : h.Looks index before)
      (hstands : Stands args index before (letter :: rest))
      (hkind : grammar.letters.kind? letter = some kind) (hrule : kind.rule? = some rule)
      (hsupplied : Supplied args cursor argument index rule (attachedRest before letter rest)) :
      Finds h grammar args cursor (.ofChar letter) argument none
  | entry (argument : Option Location) (token : String) (resolved : Resolution) (index : Nat)
      (before : List Char) (hnames : h.Names grammar args index before token)
      (hresolve : grammar.table.resolve token = .ok resolved)
      (hsplits : LongTable.Splits token resolved.name resolved.value)
      (hsupplied : Supplied args cursor argument index resolved.entry.argument
        (resolved.attachedValue before)) :
      Finds h grammar args cursor resolved.entry.code argument (some resolved.index)

end Host

def Reading.FoundBy (h : Host) (grammar : Grammar) (r : Reading) : Prop :=
  ∀ code argument entryIndex store, r.outcome = .found code argument entryIndex store →
    h.Finds grammar r.walk.args r.walk.cursor code argument entryIndex

theorem Stands.takes {args : List String} {index : Nat} {before : List Char} {text : String}
    (h : Stands args index before text.toList) :
    Takes args (index + 1) (some ⟨index, byteWidth before⟩) before text := by
  refine ⟨Nat.le_add_left .., h, rfl, ?_⟩
  obtain ⟨element, hget, helement⟩ := h
  rw [Option.bind_some, Location.text?_of_append hget helement, String.ofList_toList]

theorem takes_whole {args : List String} {index : Nat} {text : String}
    (hget : args[index]? = some text) : Takes args (index + 1) (some ⟨index, 0⟩) [] text := by
  have hstands : Stands args index [] text.toList := ⟨text, hget, rfl⟩
  exact hstands.takes

theorem Stands.dropBytes?_eq {args : List String} {index : Nat} {before after : List Char}
    {element : String} (h : Stands args index before after) (hget : args[index]? = some element) :
    dropBytes? element.toList (byteWidth before) = some after := by
  obtain ⟨element', hget', helement⟩ := h
  obtain rfl : element = element' := Option.some.inj (hget.symm.trans hget')
  rw [helement, dropBytes?_append]

theorem Host.Names.stands {h : Host} {grammar : Grammar} {args : List String} {index : Nat}
    {before : List Char} {token : String} (hnames : h.Names grammar args index before token) :
    Stands args index before token.toList := by
  cases hnames with
  | dashes _ _ _ hstands => exact hstands
  | rest _ before letter _ _ hstands _ =>
    obtain ⟨element, hget, helement⟩ := hstands
    exact ⟨element, hget, by simp [helement]⟩
  | next _ _ _ _ _ _ _ hnext => exact ⟨token, hnext, rfl⟩

theorem byteWidth_concat (before : List Char) (letter : Char) :
    byteWidth (before ++ [letter]) = byteWidth before + letter.utf8Size := by
  simp [byteWidth]

section Reading

variable {h : Host} {grammar : Grammar} {w : Walk} {r : Reading} {index : Nat}
  {before rest : List Char} {letter : Char} {token : String}

theorem foundBy_ended (hended : r.outcome = .ended) : r.FoundBy h grammar := by
  intro code argument entryIndex store houtcome
  rw [hended] at houtcome
  cases houtcome

theorem foundBy_failed {error : OptionError} {culprit : Code}
    (hfailed : r.outcome = .failed error culprit) : r.FoundBy h grammar := by
  intro code argument entryIndex store houtcome
  rw [hfailed] at houtcome
  cases houtcome

theorem splits_of_resolve {resolved : Resolution}
    (hresolve : grammar.table.resolve token = .ok resolved) :
    LongTable.Splits token resolved.name resolved.value := by
  obtain ⟨name, value, hsplits⟩ := LongTable.exists_splits token
  have hparts := hsplits.splitToken_eq.symm.trans (LongTable.splitToken_of_resolve hresolve)
  obtain ⟨rfl, rfl⟩ := Prod.mk.inj hparts
  exact hsplits

/-- An entry is found with the argument that it is supplied with. -/
theorem foundBy_entry {resolved : Resolution} {argument : Option Location}
    (hnames : h.Names grammar r.walk.args index before token)
    (hresolve : grammar.table.resolve token = .ok resolved)
    (houtcome : r.outcome = .entry resolved argument)
    (hsupplied : Supplied r.walk.args r.walk.cursor argument index resolved.entry.argument
      (resolved.attachedValue before)) : r.FoundBy h grammar := by
  intro code argument' entryIndex store hfound
  have hentry := Host.Finds.entry argument token resolved index before hnames hresolve
    (splits_of_resolve hresolve) hsupplied
  rw [houtcome, Outcome.entry] at hfound
  unfold LongEntry.code at hentry
  split at hfound
  · next hcell =>
    cases hfound
    rwa [hcell] at hentry
  · next cell hcell =>
    cases hfound
    rwa [hcell] at hentry

/-- A letter is found with the argument that it is supplied with. -/
theorem foundBy_letter {kind : LetterKind} {rule : ArgumentRule} {argument : Option Location}
    (hlooks : h.Looks index before) (hstands : Stands r.walk.args index before (letter :: rest))
    (hkind : grammar.letters.kind? letter = some kind) (hrule : kind.rule? = some rule)
    (houtcome : r.outcome = .letter letter argument)
    (hsupplied : Supplied r.walk.args r.walk.cursor argument index rule
      (attachedRest before letter rest)) : r.FoundBy h grammar := by
  intro code argument' entryIndex store hfound
  rw [houtcome] at hfound
  cases hfound
  exact .letter argument letter kind rule index before rest hlooks hstands hkind hrule hsupplied

/-- The value of a token stands behind its first `=`. -/
theorem stands_value {args : List String} {resolved : Resolution} {value : String}
    (hstands : Stands args index before token.toList)
    (hresolve : grammar.table.resolve token = .ok resolved) (hvalue : resolved.value = some value) :
    Stands args index (before ++ resolved.name.toList ++ ['=']) value.toList := by
  obtain ⟨element, hget, helement⟩ := hstands
  have hsplit := LongTable.splitToken_of_resolve hresolve
  rw [hvalue] at hsplit
  exact ⟨element, hget, by simp [helement, LongTable.splitToken_eq_some hsplit]⟩

theorem readEntry_foundBy {resolved : Resolution} (hcursor : w.cursor = index + 1)
    (hnames : h.Names grammar w.args index before token)
    (hresolve : grammar.table.resolve token = .ok resolved) :
    (w.readEntry index (byteWidth before) token resolved).FoundBy h grammar := by
  have hwidth : byteWidth before + byteWidth resolved.name.toList + 1 =
      byteWidth (before ++ resolved.name.toList ++ ['=']) := by
    rw [byteWidth_concat, byteWidth_append]
    rfl
  have hattached {value : String} (hvalue : resolved.value = some value) :
      Takes w.args w.cursor
        (some ⟨index, byteWidth before + byteWidth resolved.name.toList + 1⟩)
        (before ++ resolved.name.toList ++ ['=']) value := by
    rw [hwidth, hcursor]
    exact (stands_value hnames.stands hresolve hvalue).takes
  unfold Walk.readEntry
  cases hrule : resolved.entry.argument with
  | none =>
    cases hvalue : resolved.value with
    | some value => exact foundBy_failed rfl
    | none =>
      refine foundBy_entry hnames hresolve rfl ?_
      rw [hrule]
      exact .never _ (by simp only; omega) rfl
  | optional =>
    cases hvalue : resolved.value with
    | some value =>
      refine foundBy_entry hnames hresolve rfl ?_
      rw [hrule, Resolution.attachedValue, hvalue]
      exact .attached .optional _ value (by decide) hcursor (hattached hvalue)
    | none =>
      refine foundBy_entry hnames hresolve rfl ?_
      rw [hrule, Resolution.attachedValue, hvalue]
      exact .omitted hcursor rfl
  | required =>
    cases hvalue : resolved.value with
    | some value =>
      refine foundBy_entry hnames hresolve rfl ?_
      rw [hrule, Resolution.attachedValue, hvalue]
      exact .attached .required _ value (by decide) hcursor (hattached hvalue)
    | none =>
      simp only
      split
      · next hnext =>
        refine foundBy_entry hnames hresolve rfl ?_
        rw [hrule, Resolution.attachedValue, hvalue]
        refine .detached w.args[w.cursor] (congrArg (· + 1) hcursor) ?_
        exact takes_whole (List.getElem?_eq_getElem hnext)
      · exact foundBy_failed rfl

theorem readName_foundBy (hnames : h.Names grammar w.args index before token)
    (hread : w.readName grammar.table index (byteWidth before) = .ok r) :
    r.FoundBy h grammar := by
  unfold Walk.readName at hread
  split at hread
  · cases hread
  · next element hget =>
    simp only at hread
    split at hread
    · obtain ⟨settled, _, hended⟩ := exists_of_bind_ok hread
      cases hended
      exact foundBy_ended rfl
    · simp only [hnames.stands.dropBytes?_eq hget, String.ofList_toList] at hread
      split at hread
      · cases hread
        exact foundBy_failed rfl
      · next resolved hresolve =>
        cases hread
        exact readEntry_foundBy rfl hnames hresolve

theorem outcome_afterLetter (w : Walk) (next : Nat) (rest : List Char) (outcome : Outcome) :
    (w.afterLetter next rest outcome).outcome = outcome := by
  cases rest <;> rfl

/-- A letter that takes nothing. -/
theorem afterLetter_foundBy {next : Nat} (hlooks : h.Looks w.cursor before)
    (hstands : Stands w.args w.cursor before (letter :: rest))
    (hkind : grammar.letters.kind? letter = some .flag) :
    (w.afterLetter next rest (.letter letter none)).FoundBy h grammar := by
  cases rest with
  | nil =>
    refine foundBy_letter hlooks hstands hkind rfl rfl (.never _ ?_ rfl)
    exact ⟨Nat.le_succ w.cursor, Nat.le_refl _⟩
  | cons second more =>
    refine foundBy_letter hlooks hstands hkind rfl rfl (.never _ ?_ rfl)
    exact ⟨Nat.le_refl w.cursor, Nat.le_succ _⟩

/-- The rest of an element is the argument of a letter that takes one. -/
theorem foundBy_rest {kind : LetterKind} {rule : ArgumentRule} (hlooks : h.Looks w.cursor before)
    (hstands : Stands w.args w.cursor before (letter :: rest)) (hrest : rest ≠ [])
    (hkind : grammar.letters.kind? letter = some kind) (hrule : kind.rule? = some rule)
    (htakes : rule ≠ .none) :
    Reading.FoundBy h grammar ⟨w.advance, none,
      .letter letter (some ⟨w.cursor, byteWidth before + letter.utf8Size⟩)⟩ := by
  obtain ⟨second, more, rfl⟩ := List.exists_cons_of_ne_nil hrest
  have hbehind : Stands w.args w.cursor (before ++ [letter])
      (String.ofList (second :: more)).toList := by
    obtain ⟨element, hget, helement⟩ := hstands
    exact ⟨element, hget, by simp [helement]⟩
  refine foundBy_letter hlooks hstands hkind hrule rfl ?_
  rw [← byteWidth_concat]
  exact .attached rule _ _ htakes rfl hbehind.takes

theorem readLetter_foundBy (hlooks : h.Looks w.cursor before)
    (hstands : Stands w.args w.cursor before (letter :: rest))
    (hread : w.readLetter grammar (byteWidth before) letter rest = .ok r) :
    r.FoundBy h grammar := by
  unfold Walk.readLetter at hread
  simp only at hread
  split at hread
  · next hkind =>
    cases hread
    exact foundBy_failed (outcome_afterLetter ..)
  · next hkind =>
    cases hread
    exact afterLetter_foundBy hlooks hstands hkind
  · next hkind =>
    cases hread
    exact foundBy_rest hlooks hstands (List.cons_ne_nil _ _) hkind rfl (by decide)
  · next hkind =>
    cases hread
    exact foundBy_rest hlooks hstands (List.cons_ne_nil _ _) hkind rfl (by decide)
  · next hkind =>
    cases hread
    exact foundBy_letter hlooks hstands hkind rfl rfl (.omitted rfl rfl)
  · next hkind =>
    split at hread
    · next hnext =>
      cases hread
      refine foundBy_letter hlooks hstands hkind rfl rfl (.detached w.args[w.cursor + 1] rfl ?_)
      exact takes_whole (List.getElem?_eq_getElem hnext)
    · cases hread
      exact foundBy_failed rfl
  · next second more hkind =>
    rw [← byteWidth_concat] at hread
    have htoken : Stands w.args w.cursor before
        (letter :: (String.ofList (second :: more)).toList) := by
      simpa using hstands
    have hnames : h.Names grammar w.advance.args w.cursor (before ++ [letter])
        (String.ofList (second :: more)) :=
      .rest w.cursor before letter _ hlooks htoken hkind
    exact readName_foundBy hnames hread
  · next hkind =>
    split at hread
    · next hnext =>
      have hnames : h.Names grammar w.advance.args (w.cursor + 1) [] w.args[w.cursor + 1] :=
        .next w.cursor before letter _ hlooks hstands hkind (List.getElem?_eq_getElem hnext)
      exact readName_foundBy hnames hread
    · cases hread
      exact foundBy_failed rfl

end Reading

def Landing.Shows (policy : OperandPolicy) (w : Walk) : Landing → Prop
  | .finish => True
  | .operand => policy = .report ∧ ∃ text, w.args[w.cursor]? = some text ∧ isOperand text
  | .letters first rest => Stands w.args w.cursor ['-'] (first :: rest)
  | .name => ∃ token : String, Stands w.args w.cursor ['-', '-'] token.toList

section Landing

variable {front options operands ahead : List String} {w landed : Walk} {policy : OperandPolicy}
  {landing : Landing}

theorem seek_shows (hlaid : Laid front options operands ahead w)
    (hseek : Walk.seek policy ahead w = .ok (landed, landing)) : landing.Shows policy landed := by
  induction ahead generalizing operands w with
  | nil =>
    rw [Walk.seek] at hseek
    obtain ⟨settled, _, hlanded⟩ := exists_of_bind_ok hseek
    cases hlanded
    trivial
  | cons element ahead ih =>
    have hget : w.args[w.cursor]? = some element := by
      simpa using hlaid.getElem?_cursor_add 0
    have hclosed : w.closeBlock.args[w.closeBlock.cursor]? = some element := by simpa using hget
    by_cases hoperand : isOperand element
    · rw [Walk.seek.eq_def] at hseek
      simp only [ofString_of_isOperand hoperand] at hseek
      cases policy with
      | report =>
        cases hseek
        exact ⟨rfl, element, hget, hoperand⟩
      | stop =>
        cases hseek
        trivial
      | move =>
        obtain ⟨passed, hpass, hrest⟩ := exists_of_bind_ok hseek
        obtain ⟨passed', hpass', hlaid'⟩ := hlaid.passOperand
        obtain rfl : passed = passed' := Except.ok.inj (hpass.symm.trans hpass')
        exact ih hlaid' hrest
    · obtain ⟨first, rest, hlist⟩ := exists_of_not_isOperand hoperand
      by_cases hfirst : first = '-'
      · subst first
        rw [seek_name (ofString_name hlist)] at hseek
        cases hseek
        exact ⟨String.ofList rest, element, hclosed, by simp [hlist]⟩
      · rw [seek_letters (ofString_letters hlist hfirst)] at hseek
        cases hseek
        exact ⟨element, hclosed, hlist⟩

variable {h : Host} {grammar : Grammar} {r : Reading}

/-- A call that starts at an element to be looked at afresh. -/
theorem readNext_foundBy (hlaid : Laid front options operands ahead w) (hleft : h.leftOver = [])
    (hread : w.readNext grammar (h.session.config.policy grammar.letters) = .ok r) :
    r.FoundBy h grammar := by
  rw [readNext_eq hlaid] at hread
  obtain ⟨⟨landed, landing⟩, hseek, hland⟩ := exists_of_bind_ok hread
  have hshows := seek_shows hlaid hseek
  cases landing with
  | finish =>
    cases hland
    exact foundBy_ended rfl
  | operand =>
    obtain ⟨hpolicy, text, hget, hoperand⟩ := hshows
    cases hland
    intro code argument entryIndex store hfound
    cases hfound
    exact .operand _ text hleft hoperand hpolicy (takes_whole hget)
  | letters first rest =>
    have hlooks : h.Looks landed.cursor ['-'] := .dash hleft rfl
    exact readLetter_foundBy hlooks hshows hland
  | name =>
    obtain ⟨token, hstands⟩ := hshows
    have hnames : h.Names grammar landed.args landed.cursor ['-', '-'] token :=
      .dashes landed.cursor token hleft hstands
    exact readName_foundBy hnames hland

end Landing

namespace Host

variable {h : Host} {grammar : Grammar} {r : Reading} {reply : Reply}

/-- A call looks at an element afresh, or it goes on behind the letters of the one that was left. -/
theorem reading_starts (hsound : h.session.Sound) (hwithin : h.start.cursor < h.args.length)
    (hreading : h.reading grammar = .ok r) :
    (h.leftOver = [] ∧ ∃ front options operands ahead w, Laid front options operands ahead w ∧
        w.readNext grammar (h.session.config.policy grammar.letters) = .ok r) ∨
      ∃ before letter rest, h.Looks h.start.cursor before ∧
        Stands h.start.args h.start.cursor before (letter :: rest) ∧
        h.start.readLetter grammar (byteWidth before) letter rest = .ok r := by
  obtain ⟨front, options, operands, _, hlaid⟩ := start_laid hsound (Nat.le_of_lt hwithin)
  rw [reading_eq] at hreading
  cases hoffset : h.startOffset with
  | none =>
    rw [hoffset] at hreading
    exact .inl ⟨by simp [leftOver, hoffset], _, _, _, _, _, hlaid, hreading⟩
  | some offset =>
    rw [hoffset] at hreading
    obtain ⟨element, ahead, hahead⟩ :
        ∃ element ahead, h.args.drop h.start.cursor = element :: ahead :=
      List.exists_cons_of_ne_nil (by simpa using hwithin)
    rw [hahead] at hlaid
    have hget : h.start.args[h.start.cursor]? = some element := hlaid.getElem?_cursor_add 0
    have hgiven : h.args[h.start.cursor]? = some element := hget
    have hleft : h.leftOver = (dropBytes? element.toList offset).getD [] := by
      simp [leftOver, hoffset, hgiven]
    have hadvanced := hlaid.advance (start_shut hsound)
    simp only [Walk.resume, hget] at hreading
    split at hreading
    · next letter rest hdrop =>
      obtain ⟨before, helement, rfl⟩ := eq_append_of_dropBytes? hdrop
      have hlooks : h.Looks h.start.cursor before := .leftOff (by simp [hleft, hdrop]) rfl hoffset
      exact .inr ⟨before, letter, rest, hlooks, ⟨element, hget, helement⟩, hreading⟩
    · next hdrop => exact .inl ⟨by simp [hleft, hdrop], _, _, _, _, _, hadvanced, hreading⟩
    · next hdrop => exact .inl ⟨by simp [hleft, hdrop], _, _, _, _, _, hadvanced, hreading⟩

/-- Whatever was replaced before a call, what it finds comes with the argument that it takes. -/
theorem reading_foundBy (hsound : h.session.Sound) (hreading : h.reading grammar = .ok r) :
    r.FoundBy h grammar := by
  rcases Nat.lt_or_ge h.start.cursor h.args.length with hwithin | hpast
  · rcases reading_starts hsound hwithin hreading with
      ⟨hleft, _, _, _, _, _, hlaid, hread⟩ | ⟨before, letter, rest, hlooks, hstands, hread⟩
    · exact readNext_foundBy hlaid hleft hread
    · exact readLetter_foundBy hlooks hstands hread
  · rw [reading_of_past hpast] at hreading
    obtain ⟨settled, _, hended⟩ := exists_of_bind_ok hreading
    cases hended
    exact foundBy_ended rfl

/-- What a session records of an outcome. -/
theorem records_reply (h : Host) (grammar : Grammar) (r : Reading) :
    match r.outcome with
    | .ended => (h.reply grammar r).code = none ∧
        (h.reply grammar r).host.session.argument = none
    | .failed error _ => (h.reply grammar r).host.session.lastError = some error ∧
        (h.reply grammar r).host.session.argument = none
    | .found code argument entryIndex _ => (h.reply grammar r).code = some code ∧
        (h.reply grammar r).host.session.lastError = none ∧
        (h.reply grammar r).host.session.argument = argument ∧
        (h.reply grammar r).host.session.entryIndex = entryIndex := by
  unfold reply Session.conclude
  cases r.outcome with
  | ended => exact ⟨rfl, rfl⟩
  | failed error culprit => exact ⟨rfl, rfl⟩
  | found code argument entryIndex store => exact ⟨rfl, rfl, rfl, rfl⟩

/-- Where an option takes an argument, it is found there. -/
theorem takes_of_supplied {args : List String} {cursor index : Nat} {location : Location}
    {rule : ArgumentRule} {attached : Option (List Char × String)}
    (h : Supplied args cursor (some location) index rule attached) :
    ∃ before text, Takes args cursor (some location) before text := by
  cases h with
  | never _ _ hnone => cases hnone
  | attached _ before text _ _ htakes => exact ⟨before, text, htakes⟩
  | detached text _ htakes => exact ⟨[], text, htakes⟩
  | omitted _ hnone => cases hnone

theorem Finds.takes {args : List String} {cursor : Nat} {code : Code} {location : Location}
    {entryIndex : Option Nat}
    (hfinds : h.Finds grammar args cursor code (some location) entryIndex) :
    ∃ before text, Takes args cursor (some location) before text := by
  cases hfinds with
  | operand _ text _ _ _ htakes => exact ⟨[], text, htakes⟩
  | letter _ _ _ _ _ _ _ _ _ _ _ hsupplied => exact takes_of_supplied hsupplied
  | entry _ _ _ _ _ _ _ _ hsupplied => exact takes_of_supplied hsupplied

/-- From every state a history leads to, a call that finds no problem either ends the scan, with no
argument, or finds an operand, a letter or an entry, with the argument that its rule gives it. And
whatever the call was, if a place was recorded it is in the last element that was read, the one
before the cursor, and the text from there to the end of that element is what is read back. -/
theorem call_argument (hreach : h.Reachable) (hcall : h.call grammar = .ok reply) :
    (reply.host.session.lastError = none →
      reply.code = none ∧ reply.host.argumentText? = none ∨
        ∃ code, reply.code = some code ∧
          h.Finds grammar reply.host.args reply.host.session.cursor code
            reply.host.session.argument reply.host.session.entryIndex) ∧
      ∀ location, reply.host.session.argument = some location →
        location.index + 1 = reply.host.session.cursor ∧
        ∃ before text, Stands reply.host.args location.index before text.toList ∧
          byteWidth before = location.offset ∧ reply.host.argumentText? = some text := by
  obtain ⟨r, hreading, rfl⟩ := exists_reading_of_call hcall
  have hfoundBy := reading_foundBy hreach.sound hreading
  have hrecords := records_reply h grammar r
  cases houtcome : r.outcome with
  | ended =>
    rw [houtcome] at hrecords
    obtain ⟨hcode, hnone⟩ := hrecords
    refine ⟨fun _ => .inl ⟨hcode, by simp [argumentText?, Session.argumentText?, hnone]⟩, ?_⟩
    simp [hnone]
  | failed error culprit =>
    rw [houtcome] at hrecords
    obtain ⟨herror, hnone⟩ := hrecords
    simp [herror, hnone]
  | found code argument entryIndex store =>
    rw [houtcome] at hrecords
    obtain ⟨hcode, -, hargument, hentry⟩ := hrecords
    have hfinds := hfoundBy code argument entryIndex store houtcome
    rw [reply_args, reply_cursor, hargument, hentry]
    refine ⟨fun _ => .inr ⟨code, hcode, hfinds⟩, ?_⟩
    rintro location rfl
    obtain ⟨before, text, htakes⟩ := hfinds.takes
    obtain rfl := Option.some.inj htakes.argument_eq
    refine ⟨Nat.sub_add_cancel htakes.one_le_cursor, before, text, htakes.stands, rfl, ?_⟩
    rw [argumentText?, Session.argumentText?, hargument, reply_args, htakes.text_eq]

/-- The two letters that are read leave an offset inside an element that is then replaced: behind
the same letter of two bytes, the rest of the new one begins. -/
theorem call_argument_replaced_vector :
    ∃ replies h reply,
      Host.run { args := ["prog", "in", "-aéb"] }
        [.call ⟨⟨"aéb"⟩, []⟩, .call ⟨⟨"aéb"⟩, []⟩, .setArgs ["prog", "-", "xyézü", "-a"]] =
          .ok (replies, h) ∧
      h.call ⟨⟨"z:"⟩, []⟩ = .ok reply ∧
      h.Finds ⟨⟨"z:"⟩, []⟩ reply.host.args 3 (.ofChar 'z') (some ⟨2, 5⟩) none ∧
      ∃ before text, Stands reply.host.args 2 before text.toList ∧ byteWidth before = 5 ∧
        reply.host.argumentText? = some text := by
  obtain ⟨replies, h, reply, hrun, hcall, hcode, herror, hargument, hcursor, hentry⟩ :
      ∃ replies h reply,
        Host.run { args := ["prog", "in", "-aéb"] }
          [.call ⟨⟨"aéb"⟩, []⟩, .call ⟨⟨"aéb"⟩, []⟩, .setArgs ["prog", "-", "xyézü", "-a"]] =
            .ok (replies, h) ∧
        h.call ⟨⟨"z:"⟩, []⟩ = .ok reply ∧ reply.code = some (.ofChar 'z') ∧
        reply.host.session.lastError = none ∧ reply.host.session.argument = some ⟨2, 5⟩ ∧
        reply.host.session.cursor = 3 ∧ reply.host.session.entryIndex = none :=
    ⟨_, _, _, rfl, rfl, rfl, rfl, rfl, rfl, rfl⟩
  have hreach : h.Reachable := ⟨_, _, _, _, _, replies, hrun⟩
  obtain ⟨hends, hplace⟩ := call_argument hreach hcall
  obtain ⟨hnone, _⟩ | ⟨code, hcode', hfinds⟩ := hends herror
  · cases hcode.symm.trans hnone
  · obtain rfl := Option.some.inj (hcode.symm.trans hcode')
    rw [hcursor, hargument, hentry] at hfinds
    exact ⟨replies, h, reply, hrun, hcall, hfinds, (hplace ⟨2, 5⟩ hargument).2⟩

end Host

end OptionScan
