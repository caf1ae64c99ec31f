import Mathlib.Data.List.Nodup
import OptionScan.Proofs.Names

/-!
What a token means in a table, said without a search: an exact name counts wherever it stands, and
an abbreviation counts if it does not matter which of its entries is taken. The pass over the table
keeps an account of the entries it has seen; at the end the account is the answer. So the answer
says nothing of the order of the entries beyond which of several like ones comes first.
-/

namespace OptionScan

namespace LongEntry

def Extends (name : String) (entry : LongEntry) : Prop :=
  name.toList <+: entry.name.toList

structure SameEffect (a b : LongEntry) : Prop where
  argument_eq : a.argument = b.argument
  value_eq : a.value = b.value
  cell_eq : a.cell = b.cell

theorem sameEffect_equivalence : Equivalence SameEffect where
  refl _ := ⟨rfl, rfl, rfl⟩
  symm h := ⟨h.argument_eq.symm, h.value_eq.symm, h.cell_eq.symm⟩
  trans h h' := ⟨h.argument_eq.trans h'.argument_eq, h.value_eq.trans h'.value_eq,
    h.cell_eq.trans h'.cell_eq⟩

theorem agrees_iff {a b : LongEntry} : a.agrees b = true ↔ a.SameEffect b := by
  simp only [agrees, Bool.and_eq_true, beq_iff_eq]
  constructor
  · rintro ⟨⟨hargument, hcell⟩, hvalue⟩
    exact ⟨hargument, hvalue, hcell⟩
  · rintro ⟨hargument, hvalue, hcell⟩
    exact ⟨⟨hargument, hcell⟩, hvalue⟩

theorem extends_of_name_eq {name : String} {entry : LongEntry} (h : entry.name = name) :
    entry.Extends name :=
  h ▸ List.prefix_rfl

end LongEntry

namespace LongTable

structure FirstAt (table : LongTable) (property : LongEntry → Prop) (index : Nat)
    (entry : LongEntry) : Prop where
  getElem?_eq : table[index]? = some entry
  holds : property entry
  earlier : ∀ other ∈ table.take index, ¬ property other

namespace FirstAt

variable {table : LongTable} {property : LongEntry → Prop} {index index' : Nat}
  {entry entry' : LongEntry}

theorem mem (h : table.FirstAt property index entry) : entry ∈ table :=
  List.mem_of_getElem? h.getElem?_eq

theorem index_le (h : table.FirstAt property index entry)
    (h' : table.FirstAt property index' entry') : index ≤ index' := by
  by_contra hlt
  have hget : (table.take index)[index']? = some entry' := by
    rw [List.getElem?_take_of_lt (by omega), h'.getElem?_eq]
  exact h.earlier entry' (List.mem_of_getElem? hget) h'.holds

theorem unique (h : table.FirstAt property index entry)
    (h' : table.FirstAt property index' entry') : index = index' ∧ entry = entry' := by
  obtain rfl : index = index' := Nat.le_antisymm (h.index_le h') (h'.index_le h)
  exact ⟨rfl, Option.some.inj (h.getElem?_eq.symm.trans h'.getElem?_eq)⟩

theorem append (h : table.FirstAt property index entry) (more : LongTable) :
    FirstAt (table ++ more) property index entry := by
  have hlt : index < table.length := (List.getElem?_eq_some_iff.mp h.getElem?_eq).1
  refine ⟨?_, h.holds, ?_⟩
  · rw [List.getElem?_append_left hlt, h.getElem?_eq]
  · rw [List.take_append_of_le_length (Nat.le_of_lt hlt)]
    exact h.earlier

theorem of_last (hnone : ∀ other ∈ table, ¬ property other) (holds : property entry)
    (more : LongTable) : FirstAt (table ++ entry :: more) property table.length entry := by
  refine ⟨by simp, holds, ?_⟩
  rw [List.take_left]
  exact hnone

end FirstAt

theorem exists_firstAt {table : LongTable} {property : LongEntry → Prop} {entry : LongEntry}
    (hentry : entry ∈ table) (holds : property entry) :
    ∃ index first, table.FirstAt property index first := by
  induction table with
  | nil => cases hentry
  | cons head rest ih =>
    by_cases hhead : property head
    · exact ⟨0, head, rfl, hhead, by simp⟩
    · have hrest : entry ∈ rest := by
        rcases List.mem_cons.mp hentry with rfl | hrest
        · exact absurd holds hhead
        · exact hrest
      obtain ⟨index, first, hfirst⟩ := ih hrest
      refine ⟨index + 1, first, ?_, hfirst.holds, ?_⟩
      · rw [List.getElem?_cons_succ, hfirst.getElem?_eq]
      · rw [List.take_succ_cons]
        exact List.forall_mem_cons.mpr ⟨hhead, hfirst.earlier⟩

/-- The name of a token reaches up to its first `=`, and its value is what comes after. -/
inductive Splits : (token name : String) → (value : Option String) → Prop
  | alone (name : String) (hname : '=' ∉ name.toList) : Splits name name none
  | valued (name value : String) (hname : '=' ∉ name.toList) :
      Splits (name ++ "=" ++ value) name (some value)

theorem Splits.splitToken_eq {token name : String} {value : Option String}
    (h : Splits token name value) : splitToken token = (name, value) := by
  cases h with
  | alone _ hname => exact splitToken_name hname
  | valued _ value hname => exact splitToken_value hname value

theorem exists_splits (token : String) : ∃ name value, Splits token name value := by
  by_cases hequals : '=' ∈ token.toList
  · obtain ⟨name, value, htoken, hname⟩ := List.eq_append_cons_of_mem hequals
    have hparts : token = String.ofList name ++ "=" ++ String.ofList value := by
      apply String.toList_injective
      simpa using htoken
    rw [hparts]
    exact ⟨_, _, .valued _ _ (by simpa using hname)⟩
  · exact ⟨token, none, .alone token hequals⟩

/-- What a search may know of a name after the entries `seen`. -/
inductive Accounts (name : String) (seen : LongTable) : Candidate → Prop
  | absent (hnone : ∀ entry ∈ seen, ¬ entry.Extends name) : Accounts name seen .absent
  | short (index : Nat) (entry : LongEntry) (hexact : ∀ other ∈ seen, other.name ≠ name)
      (hfirst : seen.FirstAt (·.Extends name) index entry)
      (hagree : ∀ other ∈ seen, other.Extends name → other.SameEffect entry) :
      Accounts name seen (.short index entry)
  | ambiguous (first second : LongEntry) (hexact : ∀ other ∈ seen, other.name ≠ name)
      (hfirst : first ∈ seen) (hsecond : second ∈ seen) (hshort : first.Extends name)
      (hshort' : second.Extends name) (hdiffer : ¬ first.SameEffect second) :
      Accounts name seen .ambiguous
  | exact (index : Nat) (entry : LongEntry) (hfirst : seen.FirstAt (·.name = name) index entry) :
      Accounts name seen (.exact index entry)

section Search

variable {name : String} {seen : LongTable} {found : Candidate} {entry : LongEntry}

/-- An entry that the name has nothing to do with. -/
theorem Accounts.skip (h : Accounts name seen found) (hother : ¬ entry.Extends name) :
    Accounts name (seen ++ [entry]) found := by
  have hname : entry.name ≠ name := fun hname => hother (LongEntry.extends_of_name_eq hname)
  have hexact (hseen : ∀ other ∈ seen, other.name ≠ name) :
      ∀ other ∈ seen ++ [entry], other.name ≠ name :=
    List.forall_mem_append.mpr ⟨hseen, List.forall_mem_singleton.mpr hname⟩
  cases h with
  | absent hnone =>
    exact .absent (List.forall_mem_append.mpr ⟨hnone, List.forall_mem_singleton.mpr hother⟩)
  | short index first hseen hfirst hagree =>
    refine .short index first (hexact hseen) (hfirst.append [entry]) ?_
    refine List.forall_mem_append.mpr ⟨hagree, List.forall_mem_singleton.mpr ?_⟩
    exact fun hshort => absurd hshort hother
  | ambiguous first second hseen hfirst hsecond hshort hshort' hdiffer =>
    exact .ambiguous first second (hexact hseen) (List.mem_append_left _ hfirst)
      (List.mem_append_left _ hsecond) hshort hshort' hdiffer
  | exact index first hfirst => exact .exact index first (hfirst.append [entry])

/-- One more entry for which the name is short. -/
theorem Accounts.add (h : Accounts name seen found) (hseen : ∀ other ∈ seen, other.name ≠ name)
    (hname : entry.name ≠ name) (hextends : entry.Extends name) :
    Accounts name (seen ++ [entry]) (found.add seen.length entry) := by
  have hexact : ∀ other ∈ seen ++ [entry], other.name ≠ name :=
    List.forall_mem_append.mpr ⟨hseen, List.forall_mem_singleton.mpr hname⟩
  have hlast : entry ∈ seen ++ [entry] := List.mem_append_right _ (List.mem_singleton.mpr rfl)
  cases h with
  | absent hnone =>
    refine .short seen.length entry hexact (.of_last hnone hextends []) ?_
    refine List.forall_mem_append.mpr ⟨?_, List.forall_mem_singleton.mpr ?_⟩
    · exact fun other hother hshort => absurd hshort (hnone other hother)
    · exact fun _ => LongEntry.sameEffect_equivalence.refl entry
  | short index first _ hfirst hagree =>
    rw [Candidate.add]
    split
    · next hagrees =>
      refine .short index first hexact (hfirst.append [entry]) ?_
      refine List.forall_mem_append.mpr ⟨hagree, List.forall_mem_singleton.mpr ?_⟩
      exact fun _ => LongEntry.agrees_iff.mp hagrees
    · next hdiffers =>
      exact .ambiguous entry first hexact hlast (List.mem_append_left _ hfirst.mem) hextends
        hfirst.holds (fun hsame => hdiffers (LongEntry.agrees_iff.mpr hsame))
  | ambiguous first second _ hfirst hsecond hshort hshort' hdiffer =>
    exact .ambiguous first second hexact (List.mem_append_left _ hfirst)
      (List.mem_append_left _ hsecond) hshort hshort' hdiffer
  | exact index first hfirst => exact absurd hfirst.holds (hseen first hfirst.mem)

/-- The search keeps its account up to the end of the table, or to an exact match. -/
theorem accounts_search {table : LongTable} (h : Accounts name seen found)
    (hseen : ∀ other ∈ seen, other.name ≠ name) :
    Accounts name (seen ++ table) (table.search name seen.length found) := by
  induction table generalizing seen found with
  | nil =>
    rw [List.append_nil]
    exact h
  | cons entry rest ih =>
    rw [search]
    by_cases hname : entry.name = name
    · rw [if_pos hname]
      exact .exact seen.length entry (.of_last hseen hname rest)
    · have hseen' : ∀ other ∈ seen ++ [entry], other.name ≠ name :=
        List.forall_mem_append.mpr ⟨hseen, List.forall_mem_singleton.mpr hname⟩
      have hlength : (seen ++ [entry]).length = seen.length + 1 := by simp
      rw [if_neg hname, ← hlength, List.append_cons]
      split
      · next hextends =>
        exact ih (h.add hseen hname (List.isPrefixOf_iff_prefix.mp hextends)) hseen'
      · next hother =>
        exact ih (h.skip fun hextends => hother (List.isPrefixOf_iff_prefix.mpr hextends)) hseen'

end Search

inductive Answers (table : LongTable) (token name : String) (value : Option String) :
    Except OptionError Resolution → Prop
  | exact (index : Nat) (entry : LongEntry) (hfirst : table.FirstAt (·.name = name) index entry) :
      Answers table token name value (.ok ⟨index, entry, name, value⟩)
  | unknown (hnone : ∀ entry ∈ table, ¬ entry.Extends name) :
      Answers table token name value (.error (.unknownName token))
  /-- The name is short for entries that have all the same effect. -/
  | short (index : Nat) (entry : LongEntry) (hexact : ∀ other ∈ table, other.name ≠ name)
      (hfirst : table.FirstAt (·.Extends name) index entry)
      (hagree : ∀ first ∈ table, ∀ second ∈ table, first.Extends name → second.Extends name →
        first.SameEffect second) :
      Answers table token name value (.ok ⟨index, entry, name, value⟩)
  /-- The name is short for entries that have different effects. -/
  | ambiguous (first second : LongEntry) (hexact : ∀ other ∈ table, other.name ≠ name)
      (hfirst : first ∈ table) (hsecond : second ∈ table) (hshort : first.Extends name)
      (hshort' : second.Extends name) (hdiffer : ¬ first.SameEffect second) :
      Answers table token name value (.error (.ambiguousName name))

section Answers

variable {table : LongTable} {token name : String} {value : Option String}
  {answer answer' : Except OptionError Resolution}

theorem answers_resolve (table : LongTable) (hsplits : Splits token name value) :
    table.Answers token name value (table.resolve token) := by
  have haccounts : Accounts name table (table.search name 0 .absent) := by
    have hnothing : Accounts name [] .absent := .absent (by simp)
    have hsearch : Accounts name ([] ++ table) (table.search name 0 .absent) :=
      accounts_search hnothing (by simp)
    exact hsearch
  unfold resolve
  simp only [hsplits.splitToken_eq]
  generalize table.search name 0 .absent = found at haccounts
  cases haccounts with
  | absent hnone => exact .unknown hnone
  | short index entry hexact hfirst hagree =>
    refine .short index entry hexact hfirst ?_
    intro first hmem second hmem' hshort hshort'
    have hsame := hagree second hmem' hshort'
    exact LongEntry.sameEffect_equivalence.trans (hagree first hmem hshort)
      (LongEntry.sameEffect_equivalence.symm hsame)
  | ambiguous first second hexact hfirst hsecond hshort hshort' hdiffer =>
    exact .ambiguous first second hexact hfirst hsecond hshort hshort' hdiffer
  | exact index entry hfirst => exact .exact index entry hfirst

/-- The four cases exclude each other, and each has one answer. -/
theorem Answers.unique (h : table.Answers token name value answer)
    (h' : table.Answers token name value answer') : answer = answer' := by
  have hnamed {index : Nat} {entry : LongEntry}
      (hfirst : table.FirstAt (·.name = name) index entry) :
      ¬ ∀ other ∈ table, other.name ≠ name :=
    fun hexact => hexact entry hfirst.mem hfirst.holds
  have hfound {index : Nat} {entry : LongEntry}
      (hfirst : table.FirstAt (·.name = name) index entry) :
      ¬ ∀ other ∈ table, ¬ other.Extends name :=
    fun hnone => hnone entry hfirst.mem (LongEntry.extends_of_name_eq hfirst.holds)
  cases h with
  | exact index entry hfirst =>
    cases h' with
    | exact index' entry' hfirst' =>
      obtain ⟨rfl, rfl⟩ := hfirst.unique hfirst'
      rfl
    | unknown hnone => exact absurd hnone (hfound hfirst)
    | short _ _ hexact => exact absurd hexact (hnamed hfirst)
    | ambiguous _ _ hexact => exact absurd hexact (hnamed hfirst)
  | unknown hnone =>
    cases h' with
    | exact _ _ hfirst => exact absurd hnone (hfound hfirst)
    | unknown => rfl
    | short _ entry _ hfirst => exact absurd hfirst.holds (hnone entry hfirst.mem)
    | ambiguous first _ _ hfirst _ hshort => exact absurd hshort (hnone first hfirst)
  | short index entry hexact hfirst hagree =>
    cases h' with
    | exact _ _ hfirst' => exact absurd hexact (hnamed hfirst')
    | unknown hnone => exact absurd hfirst.holds (hnone entry hfirst.mem)
    | short index' entry' _ hfirst' =>
      obtain ⟨rfl, rfl⟩ := hfirst.unique hfirst'
      rfl
    | ambiguous first second _ hmem hmem' hshort hshort' hdiffer =>
      exact absurd (hagree first hmem second hmem' hshort hshort') hdiffer
  | ambiguous first second hexact hmem hmem' hshort hshort' hdiffer =>
    cases h' with
    | exact _ _ hfirst => exact absurd hexact (hnamed hfirst)
    | unknown hnone => exact absurd hshort (hnone first hmem)
    | short _ _ _ _ hagree =>
      exact absurd (hagree first hmem second hmem' hshort hshort') hdiffer
    | ambiguous => rfl

end Answers

/-- What a token resolves to is what it means: the first entry of its name; or else, if its name is
short for entries that have all the same effect, the first of these. -/
theorem resolve_eq_iff (table : LongTable) (token : String)
    (answer : Except OptionError Resolution) :
    table.resolve token = answer ↔
      ∃ name value, Splits token name value ∧ table.Answers token name value answer := by
  constructor
  · rintro rfl
    obtain ⟨name, value, hsplits⟩ := exists_splits token
    exact ⟨name, value, hsplits, answers_resolve table hsplits⟩
  · rintro ⟨name, value, hsplits, hanswers⟩
    exact (answers_resolve table hsplits).unique hanswers

/-- The exact match undoes what was found before: two entries that differ. -/
example :
    resolve [⟨"verbose", .none, 1, none⟩, ⟨"version", .none, 2, none⟩, ⟨"ver", .optional, 3, none⟩]
      "ver=a=b" = .ok ⟨2, ⟨"ver", .optional, 3, none⟩, "ver", some "a=b"⟩ := by
  decide

/-- The answers of two tables that hold the same entries: the same problem; or entries of the same
effect, with the same name and value, and the same entry if the name is its own. -/
inductive Alike (table table' : LongTable) :
    Except OptionError Resolution → Except OptionError Resolution → Prop
  | error (problem : OptionError) : Alike table table' (.error problem) (.error problem)
  | ok (index index' : Nat) (entry entry' : LongEntry) (name : String) (value : Option String)
      (hentry : table[index]? = some entry) (hentry' : table'[index']? = some entry')
      (hsame : entry.SameEffect entry')
      (hexact : entry.name = name ∨ entry'.name = name → entry = entry') :
      Alike table table' (.ok ⟨index, entry, name, value⟩) (.ok ⟨index', entry', name, value⟩)

section Reordered

variable {table table' : LongTable} {token name : String} {value : Option String}
  {answer : Except OptionError Resolution}

/-- Each of the four cases is the same in a table that holds the same entries. -/
theorem Answers.reordered (hnames : (table.map LongEntry.name).Nodup) (hperm : table.Perm table')
    (h : table.Answers token name value answer) :
    ∃ answer', table'.Answers token name value answer' ∧ Alike table table' answer answer' := by
  have hall {property : LongEntry → Prop} (h : ∀ entry ∈ table, property entry) :
      ∀ entry ∈ table', property entry :=
    fun entry hentry => h entry (hperm.mem_iff.mpr hentry)
  cases h with
  | exact index entry hfirst =>
    obtain ⟨index', entry', hfirst'⟩ :
        ∃ index' entry', table'.FirstAt (·.name = name) index' entry' :=
      exists_firstAt (hperm.mem_iff.mp hfirst.mem) hfirst.holds
    have hmem' : entry' ∈ table := hperm.mem_iff.mpr hfirst'.mem
    obtain rfl : entry = entry' :=
      List.inj_on_of_nodup_map hnames hfirst.mem hmem' (hfirst.holds.trans hfirst'.holds.symm)
    exact ⟨_, .exact index' entry hfirst', .ok index index' entry entry name value
      hfirst.getElem?_eq hfirst'.getElem?_eq (LongEntry.sameEffect_equivalence.refl entry)
      fun _ => rfl⟩
  | unknown hnone => exact ⟨_, .unknown (hall hnone), .error _⟩
  | short index entry hexact hfirst hagree =>
    obtain ⟨index', entry', hfirst'⟩ :
        ∃ index' entry', table'.FirstAt (·.Extends name) index' entry' :=
      exists_firstAt (hperm.mem_iff.mp hfirst.mem) hfirst.holds
    have hmem' : entry' ∈ table := hperm.mem_iff.mpr hfirst'.mem
    have hsame : entry.SameEffect entry' :=
      hagree entry hfirst.mem entry' hmem' hfirst.holds hfirst'.holds
    refine ⟨_, .short index' entry' (hall hexact) hfirst' ?_, .ok index index' entry entry' name
      value hfirst.getElem?_eq hfirst'.getElem?_eq hsame ?_⟩
    · exact hall fun first hmem => hall fun second hmem' => hagree first hmem second hmem'
    · rintro (hname | hname)
      · exact absurd hname (hexact entry hfirst.mem)
      · exact absurd hname (hexact entry' hmem')
  | ambiguous first second hexact hmem hmem' hshort hshort' hdiffer =>
    exact ⟨_, .ambiguous first second (hall hexact) (hperm.mem_iff.mp hmem)
      (hperm.mem_iff.mp hmem') hshort hshort' hdiffer, .error _⟩

end Reordered

/-- If no two entries of a table have the same name, their order has no say in what a token means
beyond which of several entries of the same effect is taken. -/
theorem resolve_reordered {table table' : LongTable} (hnames : (table.map LongEntry.name).Nodup)
    (hperm : table.Perm table') (token : String) :
    Alike table table' (table.resolve token) (table'.resolve token) := by
  obtain ⟨name, value, hsplits⟩ := exists_splits token
  obtain ⟨answer', hanswers', halike⟩ := (answers_resolve table hsplits).reordered hnames hperm
  rw [(answers_resolve table' hsplits).unique hanswers']
  exact halike

/-- The abbreviation stands for two entries, and the other one comes first after the reordering. -/
theorem resolve_reordered_abbreviation :
    let table : LongTable :=
      [⟨"color", .optional, 99, none⟩, ⟨"colour", .optional, 99, none⟩, ⟨"count", .none, 1, some 0⟩]
    let reversed : LongTable := table.reverse
    (table.map LongEntry.name).Nodup ∧ table.Perm reversed ∧
      table.resolve "col=on" = .ok ⟨0, ⟨"color", .optional, 99, none⟩, "col", some "on"⟩ ∧
      reversed.resolve "col=on" = .ok ⟨1, ⟨"colour", .optional, 99, none⟩, "col", some "on"⟩ ∧
      Alike table reversed (table.resolve "col=on") (reversed.resolve "col=on") := by
  intro table reversed
  have hnames : (table.map LongEntry.name).Nodup := by decide
  have hperm : table.Perm reversed := (List.reverse_perm table).symm
  exact ⟨hnames, hperm, by decide, by decide, resolve_reordered hnames hperm "col=on"⟩

end LongTable

end OptionScan
