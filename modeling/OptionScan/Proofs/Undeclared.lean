import OptionScan.Proofs.Arguments
import OptionScan.Proofs.Letters

/-!
Letters that nothing declares. A call that comes to one, wherever it stands in its element, says
that the option is unknown, and no call answers with it. The marks of the letters that are declared
are no letters either, with one exception: behind a letter that introduces names the `;` is looked
up like a letter, and found.
-/

namespace OptionScan

namespace Host

/-- What a call looks at afresh, if nothing is left over for it: the elements from the cursor on, or
those behind an element that is given up. -/
def unread (h : Host) : List String :=
  match h.startOffset with
  | none => h.args.drop h.start.cursor
  | some _ => h.args.drop (h.start.cursor + 1)

/-- The first letter that a call comes to: where an earlier call left off, or behind the dash of the
next element that is an option, past operands that are moved. -/
inductive Meets (h : Host) (policy : OperandPolicy) (letter : Char) : Prop
  | leftOff (rest : List Char) (hleft : h.leftOver = letter :: rest)
  | dash (operands ahead : List String) (element : String) (rest : List Char)
      (hleft : h.leftOver = []) (hunread : h.unread = operands ++ element :: ahead)
      (hoperands : ∀ text ∈ operands, isOperand text) (hmoved : operands ≠ [] → policy = .move)
      (helement : element.toList = '-' :: letter :: rest) (hletter : letter ≠ '-')

def Refuses (h : Host) (grammar : Grammar) (letter : Char) : Prop :=
  ∃ reply, h.call grammar = .ok reply ∧ reply.code = some .unknown ∧
    reply.host.session.lastError = some (.unknownLetter letter) ∧
    reply.host.session.culprit = .ofChar letter

def Accepts (h : Host) (grammar : Grammar) (letter : Char) : Prop :=
  ∃ reply, h.call grammar = .ok reply ∧ reply.code = some (.ofChar letter) ∧
    reply.host.session.lastError = none ∧ reply.host.session.entryIndex = none

variable {h : Host} {grammar : Grammar} {letter : Char} {r : Reading}

/-- A call goes on where an earlier one left off. -/
theorem reading_of_leftOver (grammar : Grammar) {rest : List Char}
    (hleft : h.leftOver = letter :: rest) :
    ∃ offset, h.reading grammar = h.start.readLetter grammar offset letter rest := by
  unfold leftOver at hleft
  rw [reading_eq]
  cases hoffset : h.startOffset with
  | none =>
    rw [hoffset] at hleft
    cases hleft
  | some offset =>
    rw [hoffset] at hleft
    cases hget : h.args[h.start.cursor]? with
    | none =>
      rw [hget] at hleft
      cases hleft
    | some element =>
      have hget' : h.start.args[h.start.cursor]? = some element := hget
      cases hdrop : dropBytes? element.toList offset with
      | none => simp [hget, hdrop] at hleft
      | some left =>
        obtain rfl : left = letter :: rest := by simpa [hget, hdrop] using hleft
        exact ⟨offset, by simp only [Walk.resume, hget', hdrop]⟩

/-- A call for which nothing is left over looks at an element afresh. -/
theorem reading_of_unread (hsound : h.session.Sound) (grammar : Grammar) (hleft : h.leftOver = [])
    (hunread : h.unread ≠ []) :
    ∃ front options operands w, Laid front options operands h.unread w ∧
      h.reading grammar = w.readNext grammar (h.session.config.policy grammar.letters) := by
  rw [reading_eq]
  unfold unread at hunread ⊢
  cases hoffset : h.startOffset with
  | none =>
    rw [hoffset] at hunread
    have hwithin : h.start.cursor ≤ h.args.length := by
      by_contra hpast
      exact hunread (List.drop_eq_nil_of_le (by omega))
    obtain ⟨front, options, operands, _, hlaid⟩ := start_laid hsound hwithin
    exact ⟨front, options, operands, h.start, hlaid, rfl⟩
  | some offset =>
    obtain ⟨_, hwithin⟩ := offset_of_startOffset hoffset
    obtain ⟨front, options, operands, _, hlaid⟩ := start_laid hsound (Nat.le_of_lt hwithin)
    rw [List.drop_eq_getElem_cons hwithin] at hlaid
    have hget : h.start.args[h.start.cursor]? = some h.args[h.start.cursor] :=
      List.getElem?_eq_getElem hwithin
    refine ⟨front, _, operands, h.start.advance, hlaid.advance (start_shut hsound), ?_⟩
    simp only [Walk.resume, hget]
    split
    · next first rest hdrop => simp [leftOver, hoffset, hwithin, hdrop] at hleft
    · rfl
    · rfl

/-- The walk to the first letter of an option. -/
theorem readNext_letter {front options passed operands ahead : List String} {element : String}
    {w : Walk} {policy : OperandPolicy} {rest : List Char}
    (hlaid : Laid front options passed (operands ++ element :: ahead) w)
    (hoperands : ∀ text ∈ operands, isOperand text) (hmoved : operands ≠ [] → policy = .move)
    (helement : element.toList = '-' :: letter :: rest) (hletter : letter ≠ '-') :
    ∃ landed : Walk, w.readNext grammar policy = landed.readLetter grammar 1 letter rest := by
  induction operands generalizing passed w with
  | nil =>
    refine ⟨w.closeBlock, ?_⟩
    rw [readNext_eq hlaid, List.nil_append, seek_letters (ofString_letters helement hletter)]
    rfl
  | cons operand operands ih =>
    obtain rfl := hmoved (List.cons_ne_nil _ _)
    obtain ⟨hoperand, hrest⟩ := List.forall_mem_cons.mp hoperands
    obtain ⟨w', hread, hlaid'⟩ := readNext_pass grammar hoperand hlaid
    obtain ⟨landed, hland⟩ := ih hlaid' hrest fun _ => rfl
    exact ⟨landed, hread.trans hland⟩

theorem reading_of_meets (hsound : h.session.Sound)
    (hmeets : h.Meets (h.session.config.policy grammar.letters) letter) :
    ∃ (w : Walk) (offset : Nat) (rest : List Char),
      h.reading grammar = w.readLetter grammar offset letter rest := by
  cases hmeets with
  | leftOff rest hleft =>
    obtain ⟨offset, hreading⟩ := reading_of_leftOver grammar hleft
    exact ⟨_, offset, rest, hreading⟩
  | dash operands ahead element rest hleft hunread hoperands hmoved helement hletter =>
    obtain ⟨front, options, passed, w, hlaid, hreading⟩ :=
      reading_of_unread hsound grammar hleft (by simp [hunread])
    rw [hunread] at hlaid
    obtain ⟨landed, hland⟩ := readNext_letter hlaid hoperands hmoved helement hletter
    exact ⟨landed, 1, rest, hreading.trans hland⟩

/-- A call that comes to an unknown letter. -/
theorem refuses_of_meets (hsound : h.session.Sound)
    (hmeets : h.Meets (h.session.config.policy grammar.letters) letter)
    (hkind : grammar.letters.kind? letter = none) : h.Refuses grammar letter := by
  obtain ⟨w, offset, rest, hreading⟩ := reading_of_meets hsound hmeets
  unfold Walk.readLetter at hreading
  simp only [hkind] at hreading
  refine ⟨_, call_of_reading hreading, ?_⟩
  unfold reply Session.conclude
  rw [outcome_afterLetter]
  exact ⟨rfl, rfl, rfl⟩

/-- A call that comes to a letter that takes nothing. -/
theorem accepts_of_meets (hsound : h.session.Sound)
    (hmeets : h.Meets (h.session.config.policy grammar.letters) letter)
    (hkind : grammar.letters.kind? letter = some .flag) : h.Accepts grammar letter := by
  obtain ⟨w, offset, rest, hreading⟩ := reading_of_meets hsound hmeets
  unfold Walk.readLetter at hreading
  simp only [hkind] at hreading
  refine ⟨_, call_of_reading hreading, ?_⟩
  unfold reply Session.conclude
  rw [outcome_afterLetter]
  exact ⟨rfl, rfl, rfl⟩

/-- An answer that is the code of an unknown letter is the one for operands. -/
theorem Accepts.eq_operand (haccepts : h.Accepts grammar letter)
    (hkind : grammar.letters.kind? letter = none) : Code.ofChar letter = .operand := by
  obtain ⟨reply, hcall, hcode, herror, hentry⟩ := haccepts
  obtain ⟨ending, hends⟩ := exists_ends hcall
  cases hends with
  | failed error _ _ _ _ hfailed => cases herror.symm.trans hfailed
  | ended hended => cases hcode.symm.trans hended
  | found code entryIndex store hsuccess hfound _ _ hindex =>
    have hsame : Code.ofChar letter = code := Option.some.inj (hcode.symm.trans hfound)
    have hnone : entryIndex = none := hindex.symm.trans hentry
    cases hsuccess with
    | operand => exact hsame
    | letter other kind hother _ =>
      obtain rfl : letter = other := Code.ofChar_injective hsame
      cases hkind.symm.trans hother
    | answered => cases hnone
    | stored => cases hnone

end Host

namespace Declarations

/-- A character that is not declared is no letter, unless it is the `;` behind a letter that
introduces names: from every state a history leads to, a call that comes to it says that the option
is unknown, and the only answer of a call that could be taken for it is that of an operand. The `;`
of such a letter is an option that takes nothing, and a call that comes to it answers with it. -/
theorem refuses_undeclared (d : Declarations) {c : Char}
    (hundeclared : c ∉ d.letters.map DeclaredLetter.letter) :
    (¬ d.Misread c → d.optionString.kind? c = none ∧
      ∀ (h : Host) (table : LongTable), h.Reachable →
        (h.Meets (h.session.config.policy d.optionString) c → h.Refuses ⟨d.optionString, table⟩ c) ∧
        (h.Accepts ⟨d.optionString, table⟩ c → Code.ofChar c = .operand)) ∧
    (d.Misread c → d.optionString.kind? c = some .flag ∧
      ∀ (h : Host) (table : LongTable), h.Reachable →
        h.Meets (h.session.config.policy d.optionString) c →
          h.Accepts ⟨d.optionString, table⟩ c) := by
  constructor
  · intro hmisread
    have hkind := kind?_undeclared hundeclared hmisread
    refine ⟨hkind, ?_⟩
    intro h table hreach
    constructor
    · intro hmeets
      exact Host.refuses_of_meets hreach.sound hmeets hkind
    · intro haccepts
      exact haccepts.eq_operand hkind
  · intro hmisread
    have hkind := kind?_misread hmisread
    refine ⟨hkind, ?_⟩
    intro h table hreach hmeets
    exact Host.accepts_of_meets hreach.sound hmeets hkind

/-- Behind a letter, a `-` that is also the mode, and then the `;`. -/
theorem refuses_undeclared_inside :
    ∃ d : Declarations, d.optionString.text = "-:W;aé::" ∧
      '-' ∉ d.letters.map DeclaredLetter.letter ∧ d.optionString.kind? '-' = none ∧
      ';' ∉ d.letters.map DeclaredLetter.letter ∧ d.optionString.kind? ';' = some .flag ∧
      ∃ replies h more last,
        Host.run { args := ["prog", "-a-;é"] } [.call ⟨d.optionString, []⟩] = .ok (replies, h) ∧
        h.leftOver = ['-', ';', 'é'] ∧ h.Refuses ⟨d.optionString, []⟩ '-' ∧
        h.run [.call ⟨d.optionString, []⟩] = .ok (more, last) ∧
        last.leftOver = [';', 'é'] ∧ last.Accepts ⟨d.optionString, []⟩ ';' := by
  let d : Declarations := {
    policy := .report
    silent := true
    letters := [
      { letter := 'W', kind := .introducesName },
      { letter := 'a' },
      { letter := 'é', kind := .optional }] }
  have htext : d.optionString = ⟨"-:W;aé::"⟩ := by decide
  have hminus : '-' ∉ d.letters.map DeclaredLetter.letter := by decide
  have hsemicolon : ';' ∉ d.letters.map DeclaredLetter.letter := by decide
  have hmisread : d.Misread ';' := ⟨rfl, _, List.mem_cons_self .., rfl⟩
  obtain ⟨hunknown, hrefuses⟩ := (d.refuses_undeclared hminus).1 fun h => absurd h.1 (by decide)
  obtain ⟨hflag, haccepts⟩ := (d.refuses_undeclared hsemicolon).2 hmisread
  refine ⟨d, congrArg OptionString.text htext, hminus, hunknown, hsemicolon, hflag, ?_⟩
  rw [htext] at hrefuses haccepts ⊢
  obtain ⟨replies, h, more, last, all, hrun, hleft, hmore, hlast, hall⟩ :
      ∃ replies h more last all,
        Host.run { args := ["prog", "-a-;é"] } [.call ⟨⟨"-:W;aé::"⟩, []⟩] = .ok (replies, h) ∧
        h.leftOver = ['-', ';', 'é'] ∧ h.run [.call ⟨⟨"-:W;aé::"⟩, []⟩] = .ok (more, last) ∧
        last.leftOver = [';', 'é'] ∧
        Host.run { args := ["prog", "-a-;é"] }
          [.call ⟨⟨"-:W;aé::"⟩, []⟩, .call ⟨⟨"-:W;aé::"⟩, []⟩] = .ok (all, last) :=
    ⟨_, _, _, _, _, rfl, rfl, rfl, rfl, rfl⟩
  have hreach : h.Reachable := ⟨_, _, _, _, _, replies, hrun⟩
  have hreach' : last.Reachable := ⟨_, _, _, _, _, all, hall⟩
  exact ⟨replies, h, more, last, hrun, hleft, (hrefuses h [] hreach).1 (.leftOff _ hleft), hmore,
    hlast, haccepts last [] hreach' (.leftOff _ hlast)⟩

/-- The `;` is not declared, and it is found where it is the mark of a letter. -/
theorem accepts_mark :
    ∃ d : Declarations, d.optionString.text = "W;" ∧
      ';' ∉ d.letters.map DeclaredLetter.letter ∧ d.optionString.kind? ';' ≠ none ∧
      Host.Meets { args := ["prog", "-;"] } .move ';' ∧
      ¬ Host.Refuses { args := ["prog", "-;"] } ⟨d.optionString, []⟩ ';' ∧
      Host.Accepts { args := ["prog", "-;"] } ⟨d.optionString, []⟩ ';' := by
  let d : Declarations := { letters := [{ letter := 'W', kind := .introducesName }] }
  have htext : d.optionString = ⟨"W;"⟩ := by decide
  refine ⟨d, congrArg OptionString.text htext, by decide, ?_⟩
  rw [htext]
  have hmeets : Host.Meets { args := ["prog", "-;"] } .move ';' :=
    .dash [] [] "-;" [] rfl rfl (by simp) (by simp) rfl (by decide)
  obtain ⟨reply, hcall, hcode, herror, hentry⟩ :
      ∃ reply, Host.call { args := ["prog", "-;"] } ⟨⟨"W;"⟩, []⟩ = .ok reply ∧
        reply.code = some (.ofChar ';') ∧ reply.host.session.lastError = none ∧
        reply.host.session.entryIndex = none :=
    ⟨_, rfl, rfl, rfl, rfl⟩
  refine ⟨by decide, hmeets, ?_, reply, hcall, hcode, herror, hentry⟩
  rintro ⟨other, hother, _, hunknown, _⟩
  obtain rfl : reply = other := Except.ok.inj (hcall.symm.trans hother)
  cases herror.symm.trans hunknown

end Declarations

end OptionScan
