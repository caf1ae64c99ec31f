import OptionScan.Proofs.Names
import OptionScan.Proofs.Texts

/-!
Reading a transcript back. A closing line is found by its key, and the first line with that key is
the right one: no line in front of the closing ones has a key, and of the closing lines only those
of the flag cells share one, which goes on with the name of the flag. Names of one line and without
an equals sign cannot be confused.
-/

namespace OptionScan

def closingKeys : List String :=
  ["optind ", "argv", "flag "]

/-- None of the keys of the closing lines stands in front of the line. -/
def Unkeyed (line : String) : Prop :=
  ∀ key ∈ closingKeys, textAfter? key line = none

section Keys

variable {key front : String}

/-- A text does not start with a key if it starts otherwise. -/
theorem textAfter?_front (hkey : ¬ key.toList <+: front.toList)
    (hfront : ¬ front.toList <+: key.toList) (rest : String) :
    textAfter? key (front ++ rest) = none := by
  apply textAfter?_eq_none
  intro hprefix
  rw [String.toList_append] at hprefix
  rcases List.prefix_or_prefix_of_prefix hprefix (List.prefix_append _ _) with h | h
  · exact hkey h
  · exact hfront h

theorem unkeyed_front
    (hfront : ∀ key ∈ closingKeys,
      ¬ key.toList <+: front.toList ∧ ¬ front.toList <+: key.toList)
    (rest : String) : Unkeyed (front ++ rest) := by
  intro key hkey
  exact textAfter?_front (hfront key hkey).1 (hfront key hkey).2 rest

/-- What does not start with a key does not start with a longer one. -/
theorem textAfter?_append_eq_none {text : String} (h : textAfter? key text = none)
    (more : String) : textAfter? (key ++ more) text = none := by
  apply textAfter?_eq_none
  intro hprefix
  rw [String.toList_append] at hprefix
  have hkey : key.toList <+: text.toList := (List.prefix_append _ _).trans hprefix
  simp [textAfter?, hkey] at h

end Keys

namespace Code

theorem unbroken_shown (code : Code) : Unbroken code.shown := by
  unfold shown
  split
  · next c _ =>
    split
    · next hgraphic =>
      rw [Bool.and_eq_true, decide_eq_true_iff, decide_eq_true_iff] at hgraphic
      constructor
      · intro hfeed
        have hc : '\n' = c := by simpa using hfeed
        subst c
        exact absurd hgraphic.1 (by decide)
      · intro hreturn
        have hc : '\r' = c := by simpa using hreturn
        subst c
        exact absurd hgraphic.1 (by decide)
    · exact unbroken_toString_int code
  · exact unbroken_toString_int code

end Code

namespace Result

theorem unbroken_heading (r : Result) : Unbroken r.heading := by
  unfold heading
  split
  · decide
  · split
    · exact (r.code.unbroken_shown.append (by decide)).append r.culprit.unbroken_shown
    · split
      · decide
      · exact Unbroken.append (by decide) r.code.unbroken_shown

theorem unbroken_line {r : Result} (hargument : ∀ argument ∈ r.argument, Unbroken argument) :
    Unbroken r.line := by
  unfold line
  refine (r.unbroken_heading.append ?_).append ?_
  · cases r.entryIndex with
    | none => decide
    | some index => exact Unbroken.append (by decide) (unbroken_toString index)
  · cases htext : r.argument with
    | none => decide
    | some argument => exact Unbroken.append (by decide) (hargument argument htext)

/-- The heading of a result starts with a word of its own, or with one of the codes of a problem. -/
theorem exists_heading (r : Result) :
    ∃ front ∈ ["operand", "?", ":", "stored", "option "], ∃ rest, r.heading = front ++ rest := by
  unfold heading
  split
  · exact ⟨"operand", by decide, "", rfl⟩
  · split
    · next hproblem =>
      rcases hproblem with hcode | hcode
      · exact ⟨"?", by decide, _, by rw [hcode, String.append_assoc]; rfl⟩
      · exact ⟨":", by decide, _, by rw [hcode, String.append_assoc]; rfl⟩
    · split
      · exact ⟨"stored", by decide, "", rfl⟩
      · exact ⟨"option ", by decide, _, rfl⟩

theorem unkeyed_line (r : Result) : Unkeyed r.line := by
  obtain ⟨front, hfront, rest, hheading⟩ := r.exists_heading
  have hkeys : ∀ front ∈ ["operand", "?", ":", "stored", "option "], ∀ key ∈ closingKeys,
      ¬ key.toList <+: front.toList ∧ ¬ front.toList <+: key.toList := by
    decide
  rw [line, hheading, String.append_assoc, String.append_assoc]
  exact unkeyed_front (hkeys front hfront) _

end Result

namespace Transcript

variable {t : Transcript}

theorem mem_closing {line : String} (hline : line ∈ t.closing) :
    (∃ flag ∈ t.flags, "flag " ++ flag.1 ++ "=" ++ toString flag.2 = line) ∨
      line = "optind " ++ toString t.cursor ∨ line = "argv " ++ " ".intercalate t.args := by
  simpa [closing] using hline

theorem unbroken_closing (hflags : ∀ flag ∈ t.flags, Unbroken flag.1)
    (hargs : ∀ text ∈ t.args, Unbroken text) : ∀ line ∈ t.closing, Unbroken line := by
  intro line hline
  obtain ⟨⟨name, value⟩, hflag, rfl⟩ | rfl | rfl := mem_closing hline
  · exact ((Unbroken.append (by decide) (hflags _ hflag)).append (by decide)).append
      (unbroken_toString_int value)
  · exact Unbroken.append (by decide) (unbroken_toString t.cursor)
  · exact Unbroken.append (by decide) (Unbroken.intercalate (by decide) hargs)

section Closing

/-- The lines of the flag cells are passed over by a key that is not theirs. -/
theorem findSome?_flags_eq_none {key : String} (hkey : ¬ key.toList <+: "flag ".toList)
    (hflag : ¬ "flag ".toList <+: key.toList) (flags : List (String × Int)) :
    (flags.map fun (name, value) => "flag " ++ name ++ "=" ++ toString value).findSome?
      (textAfter? key) = none := by
  apply List.findSome?_eq_none_iff.mpr
  intro line hline
  obtain ⟨⟨name, value⟩, _, rfl⟩ := List.mem_map.mp hline
  simp only [String.append_assoc]
  exact textAfter?_front hkey hflag _

theorem findSome?_cursor :
    t.closing.findSome? (textAfter? "optind ") = some (toString t.cursor) := by
  rw [closing, List.findSome?_append, findSome?_flags_eq_none (by decide) (by decide),
    Option.none_or, List.findSome?_cons, textAfter?_append]

theorem findSome?_args :
    t.closing.findSome? (textAfter? "argv") = some (" " ++ " ".intercalate t.args) := by
  have hcursor : textAfter? "argv" ("optind " ++ toString t.cursor) = none :=
    textAfter?_front (by decide) (by decide) _
  have hargs : "argv " ++ " ".intercalate t.args = "argv" ++ (" " ++ " ".intercalate t.args) := by
    rw [← String.append_assoc]
    rfl
  rw [closing, List.findSome?_append, findSome?_flags_eq_none (by decide) (by decide),
    Option.none_or, List.findSome?_cons, hcursor, List.findSome?_cons, hargs, textAfter?_append]

/-- The key of a flag, with its name, is that of no other flag. -/
theorem textAfter?_flag {name other : String} (hname : '=' ∉ name.toList)
    (hother : '=' ∉ other.toList) (value : String) :
    textAfter? ("flag " ++ name ++ "=") ("flag " ++ other ++ "=" ++ value) =
      if name = other then some value else none := by
  by_cases heq : name = other
  · subst other
    rw [if_pos rfl, textAfter?_append]
  · rw [if_neg heq]
    apply textAfter?_eq_none
    intro hprefix
    obtain ⟨rest, hrest⟩ := hprefix
    have hsame : name ++ "=" ++ String.ofList rest = other ++ "=" ++ value := by
      apply String.toList_inj.mp
      simpa using hrest
    have hsplit := LongTable.splitToken_value hname (String.ofList rest)
    rw [hsame, LongTable.splitToken_value hother] at hsplit
    exact heq (Prod.mk.inj hsplit).1.symm

theorem findSome?_flags {name : String} (hname : '=' ∉ name.toList)
    {flags : List (String × Int)} (hflags : ∀ flag ∈ flags, '=' ∉ flag.1.toList) :
    (flags.map fun (name, value) => "flag " ++ name ++ "=" ++ toString value).findSome?
        (textAfter? ("flag " ++ name ++ "=")) = (flags.lookup name).map toString := by
  induction flags with
  | nil => rfl
  | cons flag rest ih =>
    obtain ⟨hflag, hrest⟩ := List.forall_mem_cons.mp hflags
    rw [List.map_cons, List.findSome?_cons, textAfter?_flag hname hflag, ih hrest,
      List.lookup_cons]
    by_cases heq : name = flag.1
    · simp [heq]
    · rw [if_neg heq, beq_eq_false_iff_ne.mpr heq]

theorem findSome?_flag {name : String} (hname : '=' ∉ name.toList)
    (hflags : ∀ flag ∈ t.flags, '=' ∉ flag.1.toList) :
    t.closing.findSome? (textAfter? ("flag " ++ name ++ "=")) =
      (t.flags.lookup name).map toString := by
  have hcursor : textAfter? "flag " ("optind " ++ toString t.cursor) = none :=
    textAfter?_front (by decide) (by decide) _
  have hargs : textAfter? "flag " ("argv " ++ " ".intercalate t.args) = none :=
    textAfter?_front (by decide) (by decide) _
  have hrest : ["optind " ++ toString t.cursor, "argv " ++ " ".intercalate t.args].findSome?
      (textAfter? ("flag " ++ name ++ "=")) = none := by
    rw [String.append_assoc, List.findSome?_cons, textAfter?_append_eq_none hcursor,
      List.findSome?_cons, textAfter?_append_eq_none hargs, List.findSome?_nil]
  rw [closing, List.findSome?_append, findSome?_flags hname hflags, hrest, Option.or_none]

end Closing

variable {front : List String} (hunkeyed : ∀ line ∈ front, Unkeyed line)
  (hunbroken : ∀ line ∈ front ++ t.closing, Unbroken line)
include hunkeyed hunbroken

/-- What is not a closing line is read as the line of a result. -/
theorem readResults_unlines : readResults (unlines (front ++ t.closing)) = front := by
  have hfront : front.filter (fun line =>
      closingKeys.all fun key => (textAfter? key line).isNone) = front := by
    apply List.filter_eq_self.mpr
    intro line hline
    apply List.all_eq_true.mpr
    intro key hkey
    rw [hunkeyed line hline key hkey]
    rfl
  have hclosing : t.closing.filter (fun line =>
      closingKeys.all fun key => (textAfter? key line).isNone) = [] := by
    apply List.filter_eq_nil_iff.mpr
    intro line hline
    obtain ⟨⟨name, value⟩, _, rfl⟩ | rfl | rfl := mem_closing hline
    · simp [closingKeys, textAfter?]
    · simp [closingKeys, textAfter?]
    · simp [closingKeys, textAfter?]
  unfold closingKeys at hfront hclosing
  rw [readResults, lines_unlines hunbroken, List.filter_append, hfront, hclosing, List.append_nil]

/-- A key, or a longer one, is looked for in the closing lines. -/
theorem keyed?_unlines (key more : String) (hkey : key ∈ closingKeys) :
    keyed? (key ++ more) (unlines (front ++ t.closing)) =
      t.closing.findSome? (textAfter? (key ++ more)) := by
  have hfront : front.findSome? (textAfter? (key ++ more)) = none := by
    apply List.findSome?_eq_none_iff.mpr
    intro line hline
    exact textAfter?_append_eq_none (hunkeyed line hline key hkey) more
  rw [keyed?, lines_unlines hunbroken, List.findSome?_append, hfront, Option.none_or]

theorem readCursor_unlines (hcursor : t.cursor < 2 ^ 64) :
    readCursor (unlines (front ++ t.closing)) = .ok t.cursor := by
  have hkeyed := keyed?_unlines hunkeyed hunbroken "optind " "" (by decide)
  rw [String.append_empty, findSome?_cursor] at hkeyed
  rw [readCursor, hkeyed, Option.bind_some, unsigned?_toString t.cursor hcursor]

/-- The elements of the vector are read in words. -/
theorem readArgs_unlines :
    readArgs (unlines (front ++ t.closing)) = .ok (words (" " ++ " ".intercalate t.args)) := by
  have hkeyed := keyed?_unlines hunkeyed hunbroken "argv" "" (by decide)
  rw [String.append_empty, findSome?_args] at hkeyed
  rw [readArgs, hkeyed]

theorem readFlag?_unlines {name : String} (hname : '=' ∉ name.toList)
    (hflags : ∀ flag ∈ t.flags, '=' ∉ flag.1.toList ∧ 0 ≤ flag.2 ∧ flag.2 < 2 ^ 31) :
    readFlag? name (unlines (front ++ t.closing)) = t.flags.lookup name := by
  have hkeyed := keyed?_unlines hunkeyed hunbroken "flag " (name ++ "=") (by decide)
  rw [← String.append_assoc, findSome?_flag hname fun flag hflag => (hflags flag hflag).1] at hkeyed
  rw [readFlag?, hkeyed]
  cases hlookup : t.flags.lookup name with
  | none => rfl
  | some value =>
    obtain ⟨_, _, hsplit, _⟩ := List.lookup_eq_some_iff.mp hlookup
    obtain ⟨_, hnonneg, hlt⟩ := hflags (name, value) (by simp [hsplit])
    obtain ⟨n, rfl⟩ := Int.eq_ofNat_of_zero_le hnonneg
    have hn : n < 2 ^ 31 := by
      simp only at hlt
      omega
    exact signed?_toString n hn

end Transcript

end OptionScan
