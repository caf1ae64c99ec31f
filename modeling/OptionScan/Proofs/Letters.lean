import OptionScan.Proofs.Muting

/-!
What an option string declares. It is written from a mode, the `:` that asks for silence and the
declarations of letters, each a letter with the mark of its kind behind it; and nothing more is kept
of it than its text, in which a letter is searched for anew whenever it is met. Among distinct
letters the search ends at the declaration, and the mark and what follows it show the kind again.
-/

namespace OptionScan

namespace OperandPolicy

theorem mode_eq_minus {policy : OperandPolicy} : policy.mode = "-" ↔ policy = .report := by
  cases policy with
  | move => decide
  | report => decide
  | stop => decide

theorem mode_eq_empty {policy : OperandPolicy} : policy.mode = "" ↔ policy = .move := by
  cases policy with
  | move => decide
  | report => decide
  | stop => decide

end OperandPolicy

def LetterKind.mark : LetterKind → List Char
  | flag => []
  | required => [':']
  | optional => [':', ':']
  | introducesName => [';']

structure DeclaredLetter where
  letter : Char
  kind : LetterKind := .flag
  letter_ne_colon : letter ≠ ':' := by decide
  letter_ne_semicolon : letter ≠ ';' := by decide
  introduces : kind = .introducesName → letter = 'W' := by decide

def DeclaredLetter.text (declared : DeclaredLetter) : List Char :=
  declared.letter :: declared.kind.mark

/-- The declarations of an option string. A first letter that could be read as a mode stands behind
one, or behind the `:`. -/
structure Declarations where
  policy : OperandPolicy := .move
  silent : Bool := false
  letters : List DeclaredLetter
  distinct : (letters.map DeclaredLetter.letter).Nodup := by decide
  plain : policy = .move → silent = false → ∀ first ∈ letters.head?,
    first.letter ≠ '-' ∧ first.letter ≠ '+' := by decide

namespace OptionString

variable {o : OptionString} {letter : Char} {before after : List Char}

/-- A character is looked up at its first place, with what follows it there. -/
theorem kind?_of_first (hletters : o.letters = before ++ letter :: after) (hcolon : letter ≠ ':')
    (hfirst : letter ∉ before) : o.kind? letter = some (kindOf letter after) := by
  have hpast : ∀ c ∈ before, (c != letter) = true := by
    intro c hc
    rw [bne_iff_ne]
    rintro rfl
    exact hfirst hc
  have hdrop : o.letters.dropWhile (· != letter) = letter :: after := by
    rw [hletters, List.dropWhile_append_of_pos hpast]
    exact List.dropWhile_cons_of_neg (by simp)
  unfold kind?
  rw [if_neg hcolon, hdrop]

def Unmarked (text : List Char) : Prop :=
  text.head? ≠ some ':' ∧ text.head? ≠ some ';'

theorem kindOf_of_unmarked (letter : Char) (h : Unmarked after) : kindOf letter after = .flag := by
  obtain ⟨hcolon, hsemicolon⟩ := h
  unfold kindOf
  split
  · exact absurd rfl hsemicolon
  · exact absurd rfl hcolon
  · exact absurd rfl hcolon
  · rfl

end OptionString

namespace DeclaredLetter

open OptionString

variable {declared : DeclaredLetter} {letters : List DeclaredLetter} {c : Char}

/-- A letter and its mark are read as its kind, whatever the next declaration is. -/
theorem kindOf_mark (declared : DeclaredLetter) {rest : List Char} (h : Unmarked rest) :
    kindOf declared.letter (declared.kind.mark ++ rest) = declared.kind := by
  cases hkind : declared.kind with
  | flag => exact kindOf_of_unmarked declared.letter h
  | optional => rfl
  | introducesName => exact if_pos (declared.introduces hkind)
  | required =>
    obtain ⟨hcolon, _⟩ := h
    cases rest with
    | nil => rfl
    | cons next more =>
      have hnext : next ≠ ':' := fun heq => hcolon (congrArg some heq)
      simp [LetterKind.mark, kindOf, hnext]

theorem unmarked_text (letters : List DeclaredLetter) : Unmarked (letters.flatMap text) := by
  cases letters with
  | nil => exact ⟨by simp, by simp⟩
  | cons first rest =>
    constructor
    · exact fun h => first.letter_ne_colon (Option.some.inj h)
    · exact fun h => first.letter_ne_semicolon (Option.some.inj h)

/-- What is written beside the letters are the colons, and the `;` behind a letter that introduces
names. -/
theorem mem_text (h : c ∈ letters.flatMap text) :
    c ∈ letters.map letter ∨ c = ':' ∨
      c = ';' ∧ ∃ declared ∈ letters, declared.kind = .introducesName := by
  obtain ⟨declared, hdeclared, hc⟩ := List.mem_flatMap.mp h
  rcases List.mem_cons.mp hc with rfl | hmark
  · exact .inl (List.mem_map_of_mem hdeclared)
  · cases hkind : declared.kind with
    | flag => simp [hkind, LetterKind.mark] at hmark
    | required => exact .inr (.inl (by simpa [hkind, LetterKind.mark] using hmark))
    | optional => exact .inr (.inl (by simpa [hkind, LetterKind.mark] using hmark))
    | introducesName =>
      have hsemicolon : c = ';' := by simpa [hkind, LetterKind.mark] using hmark
      exact .inr (.inr ⟨hsemicolon, declared, hdeclared, hkind⟩)

end DeclaredLetter

namespace Declarations

def colon (d : Declarations) : List Char :=
  if d.silent then [':'] else []

def text (d : Declarations) : List Char :=
  d.colon ++ d.letters.flatMap DeclaredLetter.text

def optionString (d : Declarations) : OptionString :=
  .behindMode d.policy (String.ofList d.text)

variable (d : Declarations)

theorem plain_text (hmove : d.policy = .move) : OptionString.Plain ⟨String.ofList d.text⟩ := by
  unfold OptionString.Plain text colon
  rw [String.toList_ofList]
  cases hsilent : d.silent with
  | true => exact ⟨by simp, by simp⟩
  | false =>
    have hfirst := d.plain hmove hsilent
    cases hletters : d.letters with
    | nil => exact ⟨by simp, by simp⟩
    | cons first rest =>
      rw [hletters] at hfirst
      obtain ⟨hminus, hplus⟩ := hfirst first rfl
      exact ⟨fun h => hminus (Option.some.inj h), fun h => hplus (Option.some.inj h)⟩

theorem letters_optionString : d.optionString.letters = d.text :=
  (OptionString.letters_behindMode_of d.plain_text).trans String.toList_ofList

theorem policy_optionString : d.optionString.policy = d.policy :=
  OptionString.policy_behindMode_of d.plain_text

theorem silent_optionString : d.optionString.silent = d.silent := by
  rw [OptionString.silent, letters_optionString, text, colon]
  cases d.silent with
  | true => rfl
  | false =>
    have hletters := (DeclaredLetter.unmarked_text d.letters).1
    exact beq_eq_false_iff_ne.mpr hletters

/-- The `;` is read as a letter: some letter introduces names, and a `;` is its mark. -/
def Misread (d : Declarations) (c : Char) : Prop :=
  c = ';' ∧ ∃ declared ∈ d.letters, declared.kind = .introducesName

/-- What is in front of a declaration is passed over when its letter is looked up. -/
theorem notMem_before {before : List DeclaredLetter} {c : Char} (hcolon : c ≠ ':')
    (hother : c ∉ before.map DeclaredLetter.letter)
    (hmark : c = ';' → ∀ other ∈ before, other.kind ≠ .introducesName) :
    c ∉ d.colon ++ before.flatMap DeclaredLetter.text := by
  intro hmem
  rcases List.mem_append.mp hmem with hsilent | hbefore
  · unfold colon at hsilent
    split at hsilent
    · exact hcolon (List.mem_singleton.mp hsilent)
    · cases hsilent
  · rcases DeclaredLetter.mem_text hbefore with hletter | hcolon' | ⟨hsemicolon, other, hin, hkind⟩
    · exact hother hletter
    · exact hcolon hcolon'
    · exact hmark hsemicolon other hin hkind

variable {d}

/-- The text around a declaration. -/
theorem exists_around {declared : DeclaredLetter} (hdeclared : declared ∈ d.letters) :
    ∃ before after : List DeclaredLetter, declared.letter ∉ before.map DeclaredLetter.letter ∧
      d.optionString.letters = d.colon ++ before.flatMap DeclaredLetter.text ++
        declared.letter :: (declared.kind.mark ++ after.flatMap DeclaredLetter.text) := by
  obtain ⟨before, after, hletters⟩ := List.append_of_mem hdeclared
  refine ⟨before, after, ?_, ?_⟩
  · intro hmem
    have hdistinct := d.distinct
    rw [hletters, List.map_append, List.map_cons] at hdistinct
    exact (List.nodup_append.mp hdistinct).2.2 _ hmem _ (List.mem_cons_self ..) rfl
  · rw [letters_optionString, text, hletters]
    simp [DeclaredLetter.text]

theorem kind?_declared {declared : DeclaredLetter} (hdeclared : declared ∈ d.letters) :
    d.optionString.kind? declared.letter = some declared.kind := by
  obtain ⟨before, after, hother, hletters⟩ := exists_around hdeclared
  have hfirst := d.notMem_before declared.letter_ne_colon hother
    fun hsemicolon => absurd hsemicolon declared.letter_ne_semicolon
  rw [OptionString.kind?_of_first hletters declared.letter_ne_colon hfirst,
    DeclaredLetter.kindOf_mark declared (DeclaredLetter.unmarked_text after)]

/-- The mark of a letter that introduces names is found where a `;` is looked up, and what follows
it is the next declaration. -/
theorem kind?_misread {c : Char} (h : d.Misread c) : d.optionString.kind? c = some .flag := by
  obtain ⟨rfl, declared, hdeclared, hkind⟩ := h
  obtain ⟨before, after, hother, hletters⟩ := exists_around hdeclared
  rw [hkind] at hletters
  have hletters' : d.optionString.letters =
      d.colon ++ before.flatMap DeclaredLetter.text ++ [declared.letter] ++
        ';' :: after.flatMap DeclaredLetter.text := by
    rw [hletters]
    simp [LetterKind.mark]
  have hsemicolon : ';' ∉ before.map DeclaredLetter.letter := by
    intro hmem
    obtain ⟨other, _, heq⟩ := List.mem_map.mp hmem
    exact other.letter_ne_semicolon heq
  have hmark : ∀ other ∈ before, other.kind ≠ .introducesName := by
    intro other hmem hintroduces
    refine hother (List.mem_map.mpr ⟨other, hmem, ?_⟩)
    rw [other.introduces hintroduces, declared.introduces hkind]
  have hfirst : ';' ∉ d.colon ++ before.flatMap DeclaredLetter.text ++ [declared.letter] := by
    rw [List.mem_append, List.mem_singleton, not_or]
    exact ⟨d.notMem_before (by decide) hsemicolon fun _ => hmark,
      declared.letter_ne_semicolon.symm⟩
  rw [OptionString.kind?_of_first hletters' (by decide) hfirst,
    OptionString.kindOf_of_unmarked ';' (DeclaredLetter.unmarked_text after)]

/-- Nothing else of the text is a letter. -/
theorem kind?_undeclared {c : Char} (hundeclared : c ∉ d.letters.map DeclaredLetter.letter)
    (hmisread : ¬ d.Misread c) : d.optionString.kind? c = none := by
  by_cases hcolon : c = ':'
  · exact if_pos hcolon
  · have hnot : c ∉ d.optionString.letters := by
      rw [letters_optionString]
      exact d.notMem_before hcolon hundeclared
        fun hsemicolon other hin hkind => hmisread ⟨hsemicolon, other, hin, hkind⟩
    rw [Option.eq_none_iff_forall_ne_some]
    intro kind hkind
    exact hnot (OptionString.mem_letters_of_kind? hkind)

/-- An option string says of every letter what was declared, and besides that what the mode and the
`:` in front of the letters ask for. -/
theorem decodes (d : Declarations) :
    (∀ declared ∈ d.letters, d.optionString.kind? declared.letter = some declared.kind) ∧
      (d.optionString.policy = .report ↔ d.policy.mode = "-") ∧
      (d.optionString.policy ≠ .move ↔ d.policy.mode ≠ "") ∧
      d.optionString.silent = d.silent ∧
      d.optionString.argumentCode = if d.silent then .ofChar ':' else .ofChar '?' := by
  have hsilent := d.silent_optionString
  refine ⟨fun declared => kind?_declared, ?_, ?_, hsilent, ?_⟩
  · rw [policy_optionString, OperandPolicy.mode_eq_minus]
  · rw [policy_optionString, Ne, Ne, OperandPolicy.mode_eq_empty]
  · rw [OptionString.argumentCode, hsilent]
    rfl

/-- A letter that is a mode elsewhere, the marks of a letter of two bytes, and a `W` with its mark
between two letters. -/
theorem decodes_lookalikes :
    ∃ d : Declarations, d.optionString.text = "-:+::é:W;-a" ∧
      d.optionString.kind? '+' = some .optional ∧ d.optionString.kind? 'é' = some .required ∧
      d.optionString.kind? 'W' = some .introducesName ∧ d.optionString.kind? '-' = some .flag ∧
      d.optionString.policy = .report ∧ d.optionString.argumentCode = .ofChar ':' := by
  let d : Declarations := {
    policy := .report
    silent := true
    letters := [
      { letter := '+', kind := .optional },
      { letter := 'é', kind := .required },
      { letter := 'W', kind := .introducesName },
      { letter := '-' },
      { letter := 'a' }] }
  obtain ⟨hkinds, hreport, _, _, hcode⟩ := d.decodes
  simp only [d, List.forall_mem_cons] at hkinds
  obtain ⟨hplus, haccent, hnames, hminus, _⟩ := hkinds
  exact ⟨d, by decide, hplus, haccent, hnames, hminus, hreport.mpr rfl, hcode⟩

end Declarations

end OptionScan
