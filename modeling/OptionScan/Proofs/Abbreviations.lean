import OptionScan.Proofs.Resolutions

/-!
Abbreviations that are typed further. Every entry that a longer name is short for is one that its
beginning was short for. So an abbreviation that is accepted keeps its effect for as long as it is
the beginning of some name; and what is ambiguous has been so from its first letter on, but for
beginnings that are names themselves.
-/

namespace OptionScan

theorem LongEntry.Extends.mono {name longer : String} {entry : LongEntry}
    (h : entry.Extends longer) (hbegins : name.toList <+: longer.toList) : entry.Extends name :=
  hbegins.trans h

namespace LongTable

section Longer

variable {table : LongTable} {token longer name name' : String} {value value' : Option String}
  {answer : Except OptionError Resolution}

theorem Splits.name_isPrefix (h : Splits token name value) : name.toList <+: token.toList := by
  have hname := LongTable.name_isPrefix token
  rwa [h.splitToken_eq] at hname

theorem Splits.equals_notMem (h : Splits token name value) : '=' ∉ name.toList := by
  cases h with
  | alone _ hname => exact hname
  | valued _ _ hname => exact hname

/-- What a token begins with lies within its name, unless there is a `=` in it. -/
theorem Splits.prefix_name (h : Splits token name value) {front : List Char}
    (hfront : front <+: token.toList) (hequals : '=' ∉ front) : front <+: name.toList := by
  rcases List.prefix_or_prefix_of_prefix hfront h.name_isPrefix with hwithin | ⟨more, rfl⟩
  · exact hwithin
  · cases h with
    | alone _ _ => exact hfront
    | valued _ value _ =>
      cases more with
      | nil => simp
      | cons c rest =>
        have hc : c = '=' := by
          have hmore : c :: rest <+: '=' :: value.toList := by simpa using hfront
          exact (List.cons_prefix_cons.mp hmore).1
        rw [hc] at hequals
        exact absurd (List.mem_append_right _ List.mem_cons_self) hequals

/-- The name of a beginning of a token is a beginning of its name. -/
theorem Splits.names_isPrefix (h : Splits token name value) (h' : Splits longer name' value')
    (hbegins : token.toList <+: longer.toList) : name.toList <+: name'.toList :=
  h'.prefix_name (h.name_isPrefix.trans hbegins) h.equals_notMem

/-- An abbreviation that is accepted stands for entries of one effect. -/
theorem Answers.sameEffect {resolved : Resolution}
    (h : table.Answers token name value (.ok resolved)) (hshort : resolved.entry.name ≠ name) :
    ∀ other ∈ table, other.Extends name → resolved.entry.SameEffect other := by
  cases h with
  | exact index entry hfirst => exact absurd hfirst.holds hshort
  | short index entry hexact hfirst hagree =>
    intro other hother hextends
    exact hagree entry hfirst.mem other hother hfirst.holds hextends

/-- What a longer name means in a table whose entries have all the same effect, as far as its
beginning is short for them. -/
theorem Answers.of_sameEffect {entry : LongEntry}
    (hsame : ∀ other ∈ table, other.Extends name → entry.SameEffect other)
    (hbegins : name.toList <+: name'.toList) (h : table.Answers longer name' value' answer) :
    ((∃ other ∈ table, other.Extends name') ∧ ∃ index entry', table[index]? = some entry' ∧
        entry.SameEffect entry' ∧ answer = .ok ⟨index, entry', name', value'⟩) ∨
      (∀ other ∈ table, ¬ other.Extends name') ∧ answer = .error (.unknownName longer) := by
  have hkept {other : LongEntry} (hother : other ∈ table) (hextends : other.Extends name') :
      entry.SameEffect other :=
    hsame other hother (hextends.mono hbegins)
  cases h with
  | exact index entry' hfirst =>
    have hextends : entry'.Extends name' := LongEntry.extends_of_name_eq hfirst.holds
    exact Or.inl ⟨⟨entry', hfirst.mem, hextends⟩, index, entry', hfirst.getElem?_eq,
      hkept hfirst.mem hextends, rfl⟩
  | unknown hnone => exact Or.inr ⟨hnone, rfl⟩
  | short index entry' _ hfirst _ =>
    exact Or.inl ⟨⟨entry', hfirst.mem, hfirst.holds⟩, index, entry', hfirst.getElem?_eq,
      hkept hfirst.mem hfirst.holds, rfl⟩
  | ambiguous first second _ hfirst hsecond hshort hshort' hdiffer =>
    have hboth : first.SameEffect second :=
      LongEntry.sameEffect_equivalence.trans
        (LongEntry.sameEffect_equivalence.symm (hkept hfirst hshort)) (hkept hsecond hshort')
    exact absurd hboth hdiffer

/-- Two entries that a longer name cannot tell apart cannot be told apart by its beginning. -/
theorem Answers.ambiguous_of_longer {text : String}
    (h : table.Answers longer name' value' (.error (.ambiguousName text)))
    (hbegins : name.toList <+: name'.toList) (hexact : ∀ other ∈ table, other.name ≠ name) :
    table.Answers token name value (.error (.ambiguousName name)) := by
  cases h with
  | ambiguous first second _ hfirst hsecond hshort hshort' hdiffer =>
    exact .ambiguous first second hexact hfirst hsecond (hshort.mono hbegins)
      (hshort'.mono hbegins) hdiffer

end Longer

/-- A token, and a longer one that it is the beginning of; without a `=` they are their own names.
If the name of the first is accepted as an abbreviation, the longer token resolves to an entry of
the same effect where its name is the beginning of one in the table, and is unknown elsewhere. If
the longer token is ambiguous, the first one is, too, unless its name is one of the table. -/
theorem resolve_stable (table : LongTable) {token longer name name' : String}
    {value value' : Option String} (hsplits : Splits token name value)
    (hsplits' : Splits longer name' value') (hbegins : token.toList <+: longer.toList) :
    (∀ resolved, table.resolve token = .ok resolved → resolved.entry.name ≠ name →
      ((∃ entry ∈ table, entry.Extends name') → ∃ index entry, table[index]? = some entry ∧
        resolved.entry.SameEffect entry ∧
        table.resolve longer = .ok ⟨index, entry, name', value'⟩) ∧
      ((∀ entry ∈ table, ¬ entry.Extends name') →
        table.resolve longer = .error (.unknownName longer))) ∧
    (∀ text, table.resolve longer = .error (.ambiguousName text) →
      (∀ entry ∈ table, entry.name ≠ name) →
      table.resolve token = .error (.ambiguousName name)) := by
  have hnames := hsplits.names_isPrefix hsplits' hbegins
  have hanswers := answers_resolve table hsplits
  have hanswers' := answers_resolve table hsplits'
  refine ⟨?_, ?_⟩
  · intro resolved hresolve hshort
    rw [hresolve] at hanswers
    rcases hanswers'.of_sameEffect (hanswers.sameEffect hshort) hnames with
      ⟨hsome, hok⟩ | ⟨hnone, herror⟩
    · refine ⟨fun _ => hok, fun hnone => ?_⟩
      obtain ⟨entry, hentry, hextends⟩ := hsome
      exact absurd hextends (hnone entry hentry)
    · refine ⟨?_, fun _ => herror⟩
      rintro ⟨entry, hentry, hextends⟩
      exact absurd hextends (hnone entry hentry)
  · intro text herror hexact
    rw [herror] at hanswers'
    exact hanswers.unique (hanswers'.ambiguous_of_longer hnames hexact)

/-- The abbreviation stands for two entries that share a cell; with more letters it is the beginning
of the second one alone, or of none. With fewer it is ambiguous. -/
theorem resolve_stable_shared_cell :
    let table : LongTable :=
      [⟨"verbose", .none, 1, some 0⟩, ⟨"verbosity", .none, 1, some 0⟩, ⟨"version", .none, 2, none⟩]
    table.resolve "verb" = .ok ⟨0, ⟨"verbose", .none, 1, some 0⟩, "verb", none⟩ ∧
    (∃ index entry, table[index]? = some entry ∧
      LongEntry.SameEffect ⟨"verbose", .none, 1, some 0⟩ entry ∧
      table.resolve "verbosi=x" = .ok ⟨index, entry, "verbosi", some "x"⟩) ∧
    table.resolve "verbal" = .error (.unknownName "verbal") ∧
    table.resolve "ver" = .error (.ambiguousName "ver") ∧
    table.resolve "v" = .error (.ambiguousName "v") := by
  intro table
  have hverb : table.resolve "verb" = .ok ⟨0, ⟨"verbose", .none, 1, some 0⟩, "verb", none⟩ := by
    decide
  have hver : table.resolve "ver" = .error (.ambiguousName "ver") := by decide
  have hsplits : Splits "verb" "verb" none := .alone "verb" (by decide)
  have hlonger : Splits "verbosi=x" "verbosi" (some "x") := .valued "verbosi" "x" (by decide)
  obtain ⟨haccepted, _⟩ := resolve_stable table hsplits hlonger (by decide)
  obtain ⟨hother, _⟩ := resolve_stable table hsplits (.alone "verbal" (by decide)) (by decide)
  obtain ⟨_, hambiguous⟩ :=
    resolve_stable table (.alone "v" (by decide)) (.alone "ver" (by decide)) (by decide)
  refine ⟨hverb,
    (haccepted _ hverb (by decide)).1 ⟨_, List.mem_cons_of_mem _ List.mem_cons_self, ?_⟩,
    (hother _ hverb (by decide)).2 ?_, hver, hambiguous "ver" hver (by decide)⟩
  · exact ⟨"ty".toList, by decide⟩
  · simp [table, LongEntry.Extends]

end LongTable

end OptionScan
