import OptionScan.Proofs.Names
import OptionScan.Reading

/-!
What a reading can be. Once the walk has come to a halt, reading an option only moves the cursor
on, or else an empty token ends the walk; and whatever is found, or cannot be used, the grammar says
why.
-/

namespace OptionScan

theorem exists_of_bind_ok {α β : Type} {x : Except Fault α} {f : α → Except Fault β} {b : β}
    (h : x >>= f = .ok b) : ∃ a, x = .ok a ∧ f a = .ok b := by
  cases x with
  | error fault => cases h
  | ok a => exact ⟨a, rfl, h⟩

/-- Why an option cannot be used: the problem, the culprit, and the code of the answer. -/
inductive Grammar.Failure (grammar : Grammar) : OptionError → (culprit code : Code) → Prop
  | unknownLetter (letter : Char) (hkind : grammar.letters.kind? letter = none) :
      Failure grammar (.unknownLetter letter) (.ofChar letter) .unknown
  | unknownName (token : String)
      (hresolve : grammar.table.resolve token = .error (.unknownName token)) :
      Failure grammar (.unknownName token) 0 .unknown
  | ambiguousName (token name : String)
      (hresolve : grammar.table.resolve token = .error (.ambiguousName name)) :
      Failure grammar (.ambiguousName name) 0 .unknown
  | missingLetterArgument (letter : Char) (kind : LetterKind)
      (hkind : grammar.letters.kind? letter = some kind)
      (htakes : kind = .required ∨ kind = .introducesName) :
      Failure grammar (.missingLetterArgument letter) (.ofChar letter) grammar.letters.argumentCode
  | missingNameArgument (token : String) (resolved : Resolution)
      (hresolve : grammar.table.resolve token = .ok resolved)
      (hrule : resolved.entry.argument = .required) (hvalue : resolved.value = none) :
      Failure grammar (.missingNameArgument token) resolved.entry.culprit
        grammar.letters.argumentCode
  | unwantedArgument (token : String) (resolved : Resolution)
      (hresolve : grammar.table.resolve token = .ok resolved)
      (hrule : resolved.entry.argument = .none) (hvalue : resolved.value ≠ none) :
      Failure grammar (.unwantedArgument resolved.name) resolved.entry.culprit
        grammar.letters.argumentCode

/-- What is found: its code, the index of the entry that was matched, and what goes to a cell. -/
inductive Grammar.Success (grammar : Grammar) :
    (code : Code) → (entryIndex : Option Nat) → (store : Option Store) → Prop
  | operand : Success grammar .operand none none
  | letter (letter : Char) (kind : LetterKind) (hkind : grammar.letters.kind? letter = some kind)
      (hletter : kind ≠ .introducesName) : Success grammar (.ofChar letter) none none
  | answered (token : String) (resolved : Resolution)
      (hresolve : grammar.table.resolve token = .ok resolved) (hcell : resolved.entry.cell = none) :
      Success grammar resolved.entry.value (some resolved.index) none
  | stored (token : String) (resolved : Resolution) (cell : Nat)
      (hresolve : grammar.table.resolve token = .ok resolved)
      (hcell : resolved.entry.cell = some cell) :
      Success grammar .stored (some resolved.index) (some ⟨cell, resolved.entry.value⟩)

def Outcome.Justified (grammar : Grammar) : Outcome → Prop
  | .ended => True
  | .failed error culprit => grammar.Failure error culprit (error.code grammar.letters)
  | .found code _ entryIndex store => grammar.Success code entryIndex store

inductive Reading.Follows (grammar : Grammar) (w : Walk) (r : Reading) : Prop
  | moves (cursor : Nat) (hwalk : r.walk = { w with cursor })
      (hjustified : r.outcome.Justified grammar)
  | settles (cursor : Nat) (hsettle : Walk.settle { w with cursor } = .ok r.walk)
      (hended : r.outcome = .ended)

section Follows

variable {grammar : Grammar} {w : Walk} {r : Reading}

theorem Reading.Follows.justified (h : r.Follows grammar w) : r.outcome.Justified grammar := by
  cases h with
  | moves cursor _ hjustified => exact hjustified
  | settles cursor _ hended =>
    rw [hended]
    trivial

theorem Reading.Follows.of_cursor {cursor : Nat} (h : r.Follows grammar { w with cursor }) :
    r.Follows grammar w := by
  cases h with
  | moves cursor' hwalk hjustified => exact .moves cursor' hwalk hjustified
  | settles cursor' hsettle hended => exact .settles cursor' hsettle hended

theorem Outcome.justified_entry {token : String} {resolved : Resolution}
    (hresolve : grammar.table.resolve token = .ok resolved) (argument : Option Location) :
    (Outcome.entry resolved argument).Justified grammar := by
  unfold Outcome.entry
  split
  · next hcell => exact .answered token resolved hresolve hcell
  · next cell hcell => exact .stored token resolved cell hresolve hcell

theorem Outcome.justified_unresolved {token : String} {error : OptionError}
    (hresolve : grammar.table.resolve token = .error error) :
    (Outcome.failed error 0).Justified grammar := by
  rcases LongTable.error_of_resolve hresolve with rfl | rfl
  · exact .unknownName token hresolve
  · exact .ambiguousName token _ hresolve

theorem Outcome.justified_letter {letter : Char} {kind : LetterKind}
    (hkind : grammar.letters.kind? letter = some kind) (hletter : kind ≠ .introducesName)
    (argument : Option Location) : (Outcome.letter letter argument).Justified grammar :=
  .letter letter kind hkind hletter

namespace Walk

theorem readEntry_follows {index offset : Nat} {token : String} {resolved : Resolution}
    (hresolve : grammar.table.resolve token = .ok resolved) :
    (w.readEntry index offset token resolved).Follows grammar w := by
  unfold readEntry
  split
  · next hrule hvalue =>
    refine .moves w.cursor rfl ?_
    exact Grammar.Failure.unwantedArgument token resolved hresolve hrule (by simp [hvalue])
  · next hrule hvalue =>
    split
    · exact .moves (w.cursor + 1) rfl (Outcome.justified_entry hresolve _)
    · refine .moves w.cursor rfl ?_
      exact Grammar.Failure.missingNameArgument token resolved hresolve hrule hvalue
  all_goals exact .moves w.cursor rfl (Outcome.justified_entry hresolve _)

theorem readName_follows {index offset : Nat}
    (hread : w.readName grammar.table index offset = .ok r) : r.Follows grammar w := by
  unfold readName at hread
  split at hread
  · cases hread
  · simp only at hread
    split at hread
    · obtain ⟨settled, hsettle, hended⟩ := exists_of_bind_ok hread
      cases hended
      exact .settles (index + 1) hsettle rfl
    · split at hread
      · cases hread
      · split at hread
        · next hresolve =>
          cases hread
          exact .moves (index + 1) rfl (Outcome.justified_unresolved hresolve)
        · next hresolve =>
          cases hread
          exact .of_cursor (readEntry_follows hresolve)

theorem afterLetter_follows {next : Nat} {rest : List Char} {outcome : Outcome}
    (h : outcome.Justified grammar) : (w.afterLetter next rest outcome).Follows grammar w := by
  cases rest with
  | nil => exact .moves (w.cursor + 1) rfl h
  | cons letter rest => exact .moves w.cursor rfl h

theorem readLetter_follows {offset : Nat} {letter : Char} {rest : List Char}
    (hread : w.readLetter grammar offset letter rest = .ok r) : r.Follows grammar w := by
  unfold readLetter at hread
  simp only at hread
  split at hread
  · next hkind =>
    cases hread
    exact afterLetter_follows (Grammar.Failure.unknownLetter letter hkind)
  · next hkind =>
    cases hread
    exact afterLetter_follows (Outcome.justified_letter hkind (by decide) none)
  · next hkind =>
    cases hread
    exact .moves (w.cursor + 1) rfl (Outcome.justified_letter hkind (by decide) _)
  · next hkind =>
    cases hread
    exact .moves (w.cursor + 1) rfl (Outcome.justified_letter hkind (by decide) _)
  · next hkind =>
    cases hread
    exact .moves (w.cursor + 1) rfl (Outcome.justified_letter hkind (by decide) _)
  · next hkind =>
    split at hread
    · cases hread
      exact .moves (w.cursor + 2) rfl (Outcome.justified_letter hkind (by decide) _)
    · cases hread
      refine .moves (w.cursor + 1) rfl ?_
      exact Grammar.Failure.missingLetterArgument letter _ hkind (Or.inl rfl)
  · exact readName_follows hread
  · next hkind =>
    split at hread
    · exact readName_follows hread
    · cases hread
      refine .moves (w.cursor + 1) rfl ?_
      exact Grammar.Failure.missingLetterArgument letter _ hkind (Or.inr rfl)

/-- A reading first walks over operands, which alone can change more than the cursor. -/
theorem readNext_follows {policy : OperandPolicy} (hread : w.readNext grammar policy = .ok r) :
    ∃ landed landing, seek policy (w.args.drop w.cursor) w = .ok (landed, landing) ∧
      r.Follows grammar landed := by
  obtain ⟨⟨landed, landing⟩, hseek, hread⟩ := exists_of_bind_ok hread
  refine ⟨landed, landing, hseek, ?_⟩
  cases landing with
  | finish =>
    cases hread
    exact .moves landed.cursor rfl trivial
  | operand =>
    cases hread
    exact .moves (landed.cursor + 1) rfl .operand
  | letters first rest => exact readLetter_follows hread
  | name => exact readName_follows hread

theorem readNext_justified {policy : OperandPolicy}
    (hread : w.readNext grammar policy = .ok r) : r.outcome.Justified grammar := by
  obtain ⟨_, _, _, hfollows⟩ := readNext_follows hread
  exact hfollows.justified

theorem resume_follows {policy : OperandPolicy} {offset : Nat}
    (hread : w.resume grammar policy offset = .ok r) :
    r.Follows grammar w ∨ w.advance.readNext grammar policy = .ok r := by
  unfold resume at hread
  split at hread
  · cases hread
  · split at hread
    · exact Or.inl (readLetter_follows hread)
    · exact Or.inr hread
    · exact Or.inr hread

end Walk

end Follows

end OptionScan
