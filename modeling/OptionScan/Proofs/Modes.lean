import Mathlib.Data.List.TakeWhile
import OptionScan.Proofs.Parse

/-!
Option strings with and without a mode in front. The mode says what happens to operands; it has no
say in which letters are options, in silence, in the codes of errors or in what an option means.
-/

namespace OptionScan

namespace OptionString

def Plain (o : OptionString) : Prop :=
  o.text.toList.head? ≠ some '-' ∧ o.text.toList.head? ≠ some '+'

def reporting (o : OptionString) : OptionString :=
  ⟨"-" ++ o.text⟩

def stopping (o : OptionString) : OptionString :=
  ⟨"+" ++ o.text⟩

variable {o : OptionString}

theorem policy_of_plain (h : o.Plain) : o.policy = .move := by
  obtain ⟨hminus, hplus⟩ := h
  unfold policy
  split
  · next hlist => simp [hlist] at hminus
  · next hlist => simp [hlist] at hplus
  · rfl

theorem letters_of_plain (h : o.Plain) : o.letters = o.text.toList := by
  obtain ⟨hminus, hplus⟩ := h
  unfold letters
  split
  · next hlist => simp [hlist] at hminus
  · next hlist => simp [hlist] at hplus
  · rfl

theorem plain_of_policy (h : o.policy = .move) : o.Plain := by
  unfold policy at h
  split at h
  · cases h
  · cases h
  · next hminus hplus =>
    constructor
    · rw [Ne, List.head?_eq_some_iff]
      rintro ⟨rest, hlist⟩
      exact hminus rest hlist
    · rw [Ne, List.head?_eq_some_iff]
      rintro ⟨rest, hlist⟩
      exact hplus rest hlist

theorem toList_reporting : o.reporting.text.toList = '-' :: o.text.toList := by
  simp [reporting]

theorem policy_reporting : o.reporting.policy = .report := by
  simp only [policy, toList_reporting]

theorem letters_reporting (h : o.Plain) : o.reporting.letters = o.letters := by
  rw [letters_of_plain h]
  simp only [letters, toList_reporting]

theorem toList_stopping : o.stopping.text.toList = '+' :: o.text.toList := by
  simp [stopping]

theorem policy_stopping : o.stopping.policy = .stop := by
  simp only [policy, toList_stopping]

theorem letters_stopping (h : o.Plain) : o.stopping.letters = o.letters := by
  rw [letters_of_plain h]
  simp only [letters, toList_stopping]

theorem letters_suffix : o.letters <:+ o.text.toList := by
  unfold letters
  split
  · next hlist => exact hlist ▸ List.suffix_cons ..
  · next hlist => exact hlist ▸ List.suffix_cons ..
  · exact List.suffix_refl _

/-- A letter with a kind is one of the letters. -/
theorem mem_letters_of_kind? {letter : Char} {kind : LetterKind} (h : o.kind? letter = some kind) :
    letter ∈ o.letters := by
  unfold kind? at h
  split at h
  · cases h
  · by_contra hnot
    have hdrop : o.letters.dropWhile (· != letter) = [] := by
      rw [List.dropWhile_eq_nil_iff]
      intro c hc
      rw [bne_iff_ne]
      rintro rfl
      exact hnot hc
    simp [hdrop] at h

theorem mem_text_of_kind? {letter : Char} {kind : LetterKind} (h : o.kind? letter = some kind) :
    letter ∈ o.text.toList :=
  letters_suffix.subset (mem_letters_of_kind? h)

end OptionString

section Policy

variable {config : Config} {letters : OptionString}

theorem Config.policy_of_plain (hstrict : config.strict = false) (hplain : letters.Plain) :
    config.policy letters = .move := by
  rw [policy, hstrict, OptionString.policy_of_plain hplain]
  rfl

theorem Config.policy_reporting (hstrict : config.strict = false) :
    config.policy letters.reporting = .report := by
  rw [policy, hstrict, OptionString.policy_reporting]
  rfl

theorem Config.policy_stopping : config.policy letters.stopping = .stop := by
  rw [policy, OptionString.policy_stopping, ite_self]

/-- Operands are moved unless the settings or the option string keep them in their place. -/
theorem Config.policy_eq_move_iff :
    config.policy letters = .move ↔ config.strict = false ∧ letters.Plain := by
  constructor
  · intro hmove
    unfold policy at hmove
    cases hstrict : config.strict with
    | true =>
      rw [hstrict] at hmove
      cases hmove
    | false =>
      rw [hstrict] at hmove
      exact ⟨rfl, OptionString.plain_of_policy hmove⟩
  · rintro ⟨hstrict, hplain⟩
    exact policy_of_plain hstrict hplain

theorem Config.policy_ne_report (hpolicy : letters.policy ≠ .report) :
    config.policy letters ≠ .report := by
  unfold policy
  split
  · decide
  · exact hpolicy

end Policy

section SameLetters

variable {letters other : OptionString} (hletters : other.letters = letters.letters)
include hletters

theorem OptionString.silent_of_letters : other.silent = letters.silent := by
  simp only [silent, hletters]

theorem OptionString.kind?_of_letters (letter : Char) :
    other.kind? letter = letters.kind? letter := by
  simp only [kind?, hletters]

theorem OptionString.kinds_of_letters : other.kind? = letters.kind? :=
  funext (kind?_of_letters hletters)

theorem Finding.item_of_letters : Finding.item other = Finding.item letters := by
  funext finding
  cases finding with
  | failed error culprit =>
    simp only [item, OptionError.code, OptionString.argumentCode,
      OptionString.silent_of_letters hletters]
  | found code argument entryIndex store => rfl

variable (table : LongTable)

theorem parseLetters_of_letters (ahead : List String) (text : List Char) :
    parseLetters ⟨other, table⟩ ahead text = parseLetters ⟨letters, table⟩ ahead text := by
  induction text with
  | nil => rfl
  | cons letter rest ih =>
    unfold parseLetters
    simp only [OptionString.kind?_of_letters hletters, ih]

theorem parseOption_of_letters (element : String) (ahead : List String) :
    parseOption ⟨other, table⟩ element ahead = parseOption ⟨letters, table⟩ element ahead := by
  unfold parseOption
  simp only [parseLetters_of_letters hletters]

theorem parse_of_letters (policy : OperandPolicy) (elements : List String) :
    parse ⟨other, table⟩ policy elements = parse ⟨letters, table⟩ policy elements := by
  have hmeaning := parseOption_of_letters hletters table
  induction elements using parse_induction ⟨letters, table⟩ policy with
  | nil => simp only [parse]
  | stop element ahead hoperand hpolicy =>
    subst policy
    rw [parse_stop hoperand, parse_stop hoperand]
  | operand element ahead hoperand hpolicy ih =>
    rw [parse_operand hoperand hpolicy, parse_operand hoperand hpolicy, ih]
  | marker ahead => rw [parse_marker, parse_marker]
  | ends element ahead hoption hmarker hends =>
    rw [parse_ends hoption hmarker (by rw [hmeaning, hends]), parse_ends hoption hmarker hends,
      hmeaning]
  | option element ahead hoption hmarker hends ih =>
    rw [parse_option hoption hmarker (by rw [hmeaning, hends]), parse_option hoption hmarker hends,
      hmeaning, ih]

end SameLetters

end OptionScan
