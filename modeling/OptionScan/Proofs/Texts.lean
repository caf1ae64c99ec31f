import Mathlib.Algebra.Ring.Int.Defs
import Mathlib.Algebra.Ring.Nat
import OptionScan.Transcript

/-!
Pieces of text that are read back as they were written: the lines of a text that was written line
by line, the words between single blanks, what follows a key, and decimal numerals.
-/

namespace OptionScan

def Unbroken (text : String) : Prop :=
  '\n' ∉ text.toList ∧ '\r' ∉ text.toList

namespace Unbroken

instance : DecidablePred Unbroken := fun text =>
  inferInstanceAs (Decidable ('\n' ∉ text.toList ∧ '\r' ∉ text.toList))

theorem of_isInfix {text whole : String} (hwhole : Unbroken whole)
    (h : text.toList <:+: whole.toList) : Unbroken text :=
  ⟨fun hfeed => hwhole.1 (h.subset hfeed), fun hreturn => hwhole.2 (h.subset hreturn)⟩

theorem append {first second : String} (hfirst : Unbroken first) (hsecond : Unbroken second) :
    Unbroken (first ++ second) := by
  obtain ⟨hfeed, hreturn⟩ := hfirst
  obtain ⟨hfeed', hreturn'⟩ := hsecond
  constructor
  · simp [hfeed, hfeed']
  · simp [hreturn, hreturn']

theorem intercalate {separator : String} (hseparator : Unbroken separator)
    {texts : List String} (htexts : ∀ text ∈ texts, Unbroken text) :
    Unbroken (separator.intercalate texts) := by
  induction texts with
  | nil => exact ⟨by simp, by simp⟩
  | cons text rest ih =>
    obtain ⟨htext, hrest⟩ := List.forall_mem_cons.mp htexts
    by_cases hnil : rest = []
    · subst rest
      simpa using htext
    · rw [String.intercalate_cons_of_ne_nil hnil]
      exact (htext.append hseparator).append (ih hrest)

end Unbroken

def IsWord (text : String) : Prop :=
  text ≠ "" ∧ ∀ c ∈ text.toList, isBlank c = false

instance : DecidablePred IsWord := fun text =>
  decidable_of_iff (text ≠ "" ∧ text.toList.all (fun c => !isBlank c) = true) (by simp [IsWord])

section Lines

variable {line : List Char}

theorem dropReturn_of_notMem (hreturn : '\r' ∉ line) : dropReturn line = line := by
  unfold dropReturn
  split
  · simp at hreturn
  · rfl

theorem linesFrom_line (hfeed : '\n' ∉ line) (reversed rest : List Char) :
    linesFrom reversed (line ++ '\n' :: rest) =
      (dropReturn (line.reverse ++ reversed)).reverse :: linesFrom [] rest := by
  induction line generalizing reversed with
  | nil => simp [linesFrom]
  | cons c more ih =>
    obtain ⟨hc, hmore⟩ := List.ne_and_not_mem_of_not_mem_cons hfeed
    rw [List.cons_append, linesFrom, if_neg (Ne.symm hc), ih hmore]
    simp

theorem lines_cons {text : String} (htext : Unbroken text) (rest : String) :
    lines (text ++ "\n" ++ rest) = text :: lines rest := by
  obtain ⟨hfeed, hreturn⟩ := htext
  have hparts : (text ++ "\n" ++ rest).toList = text.toList ++ '\n' :: rest.toList := by simp
  have hkept : dropReturn text.toList.reverse = text.toList.reverse :=
    dropReturn_of_notMem (by simpa using hreturn)
  rw [lines, hparts, linesFrom_line hfeed, List.append_nil, hkept, List.reverse_reverse,
    List.map_cons, String.ofList_toList]
  rfl

/-- A text that was written line by line is read line by line. -/
theorem lines_unlines {texts : List String} (h : ∀ text ∈ texts, Unbroken text) :
    lines (unlines texts) = texts := by
  induction texts with
  | nil => rfl
  | cons text rest ih =>
    obtain ⟨htext, hrest⟩ := List.forall_mem_cons.mp h
    rw [unlines, lines_cons htext, ih hrest]

end Lines

section Words

variable {word : List Char} {separates : Char → Bool}

theorem piecesFrom_word (hword : ∀ c ∈ word, separates c = false) (reversed rest : List Char) :
    piecesFrom separates reversed (word ++ rest) =
      piecesFrom separates (word.reverse ++ reversed) rest := by
  induction word generalizing reversed with
  | nil => rfl
  | cons c more ih =>
    obtain ⟨hc, hmore⟩ := List.forall_mem_cons.mp hword
    rw [List.cons_append, piecesFrom, hc, if_neg (by decide), ih hmore]
    simp

theorem piecesFrom_separator {separator : Char} (hseparator : separates separator = true)
    (reversed rest : List Char) :
    piecesFrom separates reversed (separator :: rest) =
      (if reversed.isEmpty then [] else [reversed.reverse]) ++ piecesFrom separates [] rest := by
  rw [piecesFrom, if_pos hseparator]
  split <;> rfl

/-- Words that are not empty, with a separator in front of each. -/
theorem pieces_flatMap {separator : Char} {words : List String}
    (hseparator : separates separator = true)
    (hwords : ∀ word ∈ words, word ≠ "" ∧ ∀ c ∈ word.toList, separates c = false) :
    pieces separates (String.ofList (words.flatMap fun word => separator :: word.toList)) =
      words := by
  have hread (reversed : List Char) :
      piecesFrom separates reversed (words.flatMap fun word => separator :: word.toList) =
        (if reversed.isEmpty then [] else [reversed.reverse]) ++ words.map String.toList := by
    induction words generalizing reversed with
    | nil => simp [piecesFrom]
    | cons word rest ih =>
      obtain ⟨⟨hne, hword⟩, hrest⟩ := List.forall_mem_cons.mp hwords
      have hsome : word.toList.reverse.isEmpty = false := by simpa using hne
      rw [List.flatMap_cons, List.cons_append, piecesFrom_separator hseparator,
        piecesFrom_word hword, ih hrest, List.append_nil, hsome]
      simp
  rw [pieces, String.toList_ofList, hread]
  simp [Function.comp_def]

/-- The words of a line that starts with a blank and has single blanks between them. -/
theorem words_intercalate {texts : List String} (htexts : ∀ text ∈ texts, IsWord text) :
    words (" " ++ " ".intercalate texts) = texts := by
  by_cases hnil : texts = []
  · subst texts
    rfl
  · have hspaced : " " ++ " ".intercalate texts =
        String.ofList (texts.flatMap fun text => ' ' :: text.toList) := by
      induction texts with
      | nil => exact absurd rfl hnil
      | cons text rest ih =>
        by_cases hrest : rest = []
        · subst rest
          simp
        · rw [String.intercalate_cons_of_ne_nil hrest, String.append_assoc,
            ih (List.forall_mem_cons.mp htexts).2 hrest]
          simp
    rw [words, hspaced]
    exact pieces_flatMap (by decide) htexts

end Words

theorem textAfter?_append (key text : String) : textAfter? key (key ++ text) = some text := by
  simp [textAfter?]

theorem textAfter?_eq_none {key text : String} (h : ¬ key.toList <+: text.toList) :
    textAfter? key text = none := by
  rw [textAfter?, if_neg]
  rwa [List.isPrefixOf_iff_prefix]

section Numerals

variable (n : Nat)

theorem isDigit_of_mem_toDigits : ∀ c ∈ Nat.toDigits 10 n, c.isDigit = true := by
  intro c hc
  exact Nat.isDigit_of_mem_toDigits (by omega) (by omega) hc

theorem unbroken_toString : Unbroken (toString n) := by
  have hdigits := isDigit_of_mem_toDigits n
  constructor
  · intro hfeed
    exact absurd (hdigits _ (by simpa using hfeed)) (by decide)
  · intro hreturn
    exact absurd (hdigits _ (by simpa using hreturn)) (by decide)

theorem unbroken_toString_int (z : Int) : Unbroken (toString z) := by
  cases z with
  | ofNat n => exact unbroken_toString n
  | negSucc n => exact Unbroken.append (by decide) (unbroken_toString (n + 1))

/-- A numeral starts with a digit. -/
theorem exists_toDigits_eq_cons :
    ∃ first rest, Nat.toDigits 10 n = first :: rest ∧ first ≠ '+' ∧ first ≠ '-' := by
  obtain ⟨first, rest, hdigits⟩ :=
    List.exists_cons_of_ne_nil (Nat.toDigits_ne_nil (b := 10) (n := n))
  have hfirst : first.isDigit = true :=
    isDigit_of_mem_toDigits n first (hdigits ▸ List.mem_cons_self ..)
  refine ⟨first, rest, hdigits, ?_, ?_⟩
  · rintro rfl
    exact absurd hfirst (by decide)
  · rintro rfl
    exact absurd hfirst (by decide)

theorem unsigned?_toString {width : Nat} (hn : n < 2 ^ width) :
    unsigned? width (toString n) = some n := by
  obtain ⟨first, rest, hdigits, hplus, _⟩ := exists_toDigits_eq_cons n
  have hread := digits?_toDigits n
  rw [hdigits] at hread
  have hlist : (toString n).toList = first :: rest := by simpa using hdigits
  unfold unsigned?
  simp only [hlist]
  split
  · next hlist' => exact absurd (List.cons.inj hlist').1 hplus
  · rw [hread]
    simp [hn]

theorem signed?_toString {width : Nat} (hn : n < 2 ^ (width - 1)) :
    signed? width (toString (Int.ofNat n)) = some (Int.ofNat n) := by
  obtain ⟨first, rest, hdigits, hplus, hminus⟩ := exists_toDigits_eq_cons n
  have hread := digits?_toDigits n
  rw [hdigits] at hread
  have hlist : (toString (Int.ofNat n)).toList = first :: rest := hdigits ▸ String.toList_ofList
  unfold signed?
  simp only [hlist]
  split
  · next hlist' => exact absurd (List.cons.inj hlist').1 hplus
  · next hlist' => exact absurd (List.cons.inj hlist').1 hminus
  · have hlt : (n : Int) < 2 ^ (width - 1) := by exact_mod_cast hn
    have hle : -2 ^ (width - 1) ≤ (n : Int) := by omega
    rw [hread]
    simpa using ⟨hle, hlt⟩

end Numerals

end OptionScan
