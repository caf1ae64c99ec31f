import OptionScan.Proofs.Forgetting
import OptionScan.Proofs.Modes

/-!
Strict settings against a leading `+`. Both end a scan at the first operand, the settings whatever
the mode in front of the letters, the `+` in its place. As the mode has no say in anything else, a
strict session cannot be told from one that is not strict and is given every option string with a
`+` for its mode.
-/

namespace OptionScan

/-- The option string with `+` for its mode, in the place of a leading `-` or `+` if it has one. -/
def OptionString.withPlus (o : OptionString) : OptionString :=
  ⟨"+" ++ String.ofList o.letters⟩

def Grammar.withPlus (grammar : Grammar) : Grammar :=
  { grammar with letters := grammar.letters.withPlus }

def Operation.withPlus : Operation → Operation
  | .call grammar => .call grammar.withPlus
  | .collect grammar limit => .collect grammar.withPlus limit
  | operation => operation

namespace OptionString

theorem toList_withPlus (o : OptionString) : o.withPlus.text.toList = '+' :: o.letters := by
  simp [withPlus]

theorem policy_withPlus (o : OptionString) : o.withPlus.policy = .stop := by
  simp only [policy, toList_withPlus]

theorem letters_withPlus (o : OptionString) : o.withPlus.letters = o.letters := by
  simp only [letters, toList_withPlus]

/-- A mode is replaced once: what stands behind it counts as a letter. -/
example :
    (["a", "+-a", "--a", "-:a", ":a"].map fun text => (withPlus ⟨text⟩).text) =
      ["+a", "+-a", "+-a", "+:a", "+:a"] := by
  decide

end OptionString

namespace Walk

variable {letters other : OptionString} (hkinds : other.kind? = letters.kind?)
  (table : LongTable) (w : Walk)
include hkinds

/-- What a call reads hangs on the kinds of the letters alone. -/
theorem readLetter_of_kinds (offset : Nat) (letter : Char) (rest : List Char) :
    w.readLetter ⟨other, table⟩ offset letter rest =
      w.readLetter ⟨letters, table⟩ offset letter rest := by
  simp only [readLetter, hkinds]

theorem readNext_of_kinds (policy : OperandPolicy) :
    w.readNext ⟨other, table⟩ policy = w.readNext ⟨letters, table⟩ policy := by
  simp only [readNext, readLetter_of_kinds hkinds]

theorem resume_of_kinds (policy : OperandPolicy) (offset : Nat) :
    w.resume ⟨other, table⟩ policy offset = w.resume ⟨letters, table⟩ policy offset := by
  simp only [resume, readLetter_of_kinds hkinds, readNext_of_kinds hkinds]

end Walk

section SameLetters

variable {letters other : OptionString} (hletters : other.letters = letters.letters)
  (table : LongTable)
include hletters

theorem OptionError.code_of_letters (error : OptionError) :
    error.code other = error.code letters := by
  simp only [code, OptionString.argumentCode, OptionString.silent_of_letters hletters]

theorem Session.conclude_of_letters (s : Session) (r : Reading) :
    s.conclude ⟨other, table⟩ r = s.conclude ⟨letters, table⟩ r := by
  unfold conclude announce
  cases r.outcome with
  | ended => rfl
  | found code argument entryIndex store => rfl
  | failed error culprit =>
    simp only [OptionError.code_of_letters hletters, OptionString.silent_of_letters hletters]

end SameLetters

namespace Host

/-- Calls that start out alike read the same if the letters are of the same kinds for both, and the
same is to be done with operands. -/
theorem reading_of_kinds (h h' : Host) {letters other : OptionString}
    (hstart : h'.start = h.start) (hoffset : h'.startOffset = h.startOffset)
    (hkinds : other.kind? = letters.kind?)
    (hpolicy : h'.session.config.policy other = h.session.config.policy letters)
    (table : LongTable) : h'.reading ⟨other, table⟩ = h.reading ⟨letters, table⟩ := by
  rw [reading_eq, reading_eq, hpolicy, hstart, hoffset]
  cases h.startOffset with
  | none => exact h.start.readNext_of_kinds hkinds table _
  | some offset => exact h.start.resume_of_kinds hkinds table _ offset

def setStrict (h : Host) (strict : Bool) : Host :=
  { h with session := { h.session with config := { h.session.config with strict } } }

variable (h : Host) (grammar : Grammar)

theorem reading_withPlus (hstrict : h.session.config.strict = true) :
    (h.setStrict false).reading grammar.withPlus = h.reading grammar := by
  have hkinds := OptionString.kinds_of_letters grammar.letters.letters_withPlus
  have hstop : h.session.config.policy grammar.letters = .stop := by
    rw [Config.policy, if_pos hstrict]
  have hplus : (h.setStrict false).session.config.policy grammar.letters.withPlus = .stop :=
    grammar.letters.policy_withPlus
  have hoperands := hplus.trans hstop.symm
  exact h.reading_of_kinds (h.setStrict false) rfl rfl hkinds hoperands grammar.table

theorem reply_withPlus (r : Reading) :
    (h.setStrict false).reply grammar.withPlus r =
      { h.reply grammar r with host := (h.reply grammar r).host.setStrict false } := by
  have hsame : ∀ s : Session, s.conclude grammar.withPlus r = s.conclude grammar r := fun s =>
    s.conclude_of_letters grammar.letters.letters_withPlus grammar.table r
  unfold reply
  rw [hsame]
  unfold Session.conclude
  cases r.outcome <;> rfl

def observed (history : List Operation) :
    Except Fault (List (Option Code × Sight × List Output) × Sight) :=
  (h.run history).map fun answer => (answer.1.map (Reply.seen true), answer.2.sight)

end Host

def strictness : Comparison Unit where
  hosts _ h h' := h.session.config.strict = true ∧ h' = h.setStrict false
  replies _ reply reply' _ := reply.seen true = reply'.seen true

namespace strictness

theorem map_seen_eq {replies replies' : List Reply} {s t : Unit}
    (h : strictness.Series s replies replies' t) :
    replies.map (Reply.seen true) = replies'.map (Reply.seen true) := by
  induction h with
  | nil => rfl
  | cons hfirst _ ih => exact congrArg₂ List.cons hfirst ih

theorem calls (grammar : Grammar) : strictness.Calls grammar grammar.withPlus := by
  intro s h h' hhosts
  obtain ⟨hstrict, rfl⟩ := hhosts
  refine Host.call_abreast (h.reading_withPlus grammar hstrict) fun r _ => ?_
  rw [h.reply_withPlus grammar r]
  have hkept : (h.reply grammar r).host.session.config.strict = true := by
    rw [Host.reply_config, hstrict]
  exact ⟨Iff.rfl, s, rfl, hkept, rfl⟩

theorem performs (operation : Operation) :
    strictness.Performs operation (some operation.withPlus) := by
  cases operation with
  | call grammar => exact Comparison.performs_call (calls grammar)
  | collect grammar limit => exact Comparison.performs_collect (calls grammar) limit
  | _ =>
    intro s h h' hhosts
    obtain ⟨hstrict, rfl⟩ := hhosts
    exact .ok ⟨s, .nil s, hstrict, rfl⟩

end strictness

/-- Whatever is done with a strict session, its caller sees what the caller of a session sees that
is not strict and is given each option string with a `+` for its mode: the same calls, with the same
outputs, and the same host after every call and at the end, so after every operation. -/
theorem Host.observed_strict (config : Config) (reporter : Reporter) (args : List String)
    (cells : List Int) (history : List Operation) :
    let new (strict : Bool) : Host :=
      { session := { config := { config with strict }, reporter }, args, cells }
    (new true).observed history = (new false).observed (history.map Operation.withPlus) := by
  intro new
  have hhosts : strictness.hosts () (new true) (new false) := ⟨rfl, rfl⟩
  have hrun := Comparison.run_abreast strictness.performs history hhosts
  have hmap : history.filterMap (fun operation => some operation.withPlus) =
      history.map Operation.withPlus := congrFun List.filterMap_eq_map' history
  rw [hmap] at hrun
  apply hrun.map_eq
  intro answer answer' hanswers
  obtain ⟨t, hreplies, _, hlast⟩ := hanswers
  rw [strictness.map_seen_eq hreplies, hlast]
  rfl

end OptionScan
