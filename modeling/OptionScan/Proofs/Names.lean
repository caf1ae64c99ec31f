import Mathlib.Data.List.TakeWhile
import OptionScan.LongTable

/-!
How a token is taken apart, and how its name is found in a table. An exact name wins over the
entries that it is short for, wherever they stand; whatever a token means, its entry is one of the
table.
-/

namespace OptionScan

namespace LongTable

theorem splitToken_eq_some {token name value : String}
    (h : splitToken token = (name, some value)) :
    token.toList = name.toList ++ '=' :: value.toList := by
  have hsplit := List.takeWhile_append_dropWhile (p := (· != '=')) (l := token.toList)
  unfold splitToken at h
  cases hrest : token.toList.dropWhile (· != '=') with
  | nil => simp [hrest] at h
  | cons c rest =>
    have hc : c = '=' := by
      have hhead := List.head_dropWhile_not (· != '=')
        (show token.toList.dropWhile (· != '=') ≠ [] by simp [hrest])
      simpa [hrest] using hhead
    simp only [hrest, Prod.mk.injEq, Option.some.injEq] at h
    obtain ⟨rfl, rfl⟩ := h
    rw [hrest, hc] at hsplit
    simpa using hsplit.symm

theorem name_isPrefix (token : String) : (splitToken token).1.toList <+: token.toList := by
  unfold splitToken
  simp only
  split
  · simpa using List.takeWhile_prefix _
  · simpa using List.takeWhile_prefix _

theorem value_isSuffix {token value : String} (h : (splitToken token).2 = some value) :
    value.toList <:+ token.toList := by
  have hparts := splitToken_eq_some (Prod.ext rfl h)
  rw [hparts]
  exact (List.suffix_cons _ _).trans (List.suffix_append _ _)

section Split

variable {name : String} (hname : '=' ∉ name.toList)
include hname

theorem all_ne_equals : ∀ c ∈ name.toList, (c != '=') = true := by
  intro c hc
  rw [bne_iff_ne]
  rintro rfl
  exact hname hc

theorem splitToken_name : splitToken name = (name, none) := by
  have htake : name.toList.takeWhile (· != '=') = name.toList := by
    rw [List.takeWhile_eq_self_iff]
    exact all_ne_equals hname
  have hdrop : name.toList.dropWhile (· != '=') = [] := by
    rw [List.dropWhile_eq_nil_iff]
    exact all_ne_equals hname
  simp only [splitToken, htake, hdrop, String.ofList_toList]

theorem splitToken_value (value : String) :
    splitToken (name ++ "=" ++ value) = (name, some value) := by
  have hparts : (name ++ "=" ++ value).toList = name.toList ++ '=' :: value.toList := by
    simp
  have htake : (name.toList ++ '=' :: value.toList).takeWhile (· != '=') = name.toList := by
    rw [List.takeWhile_append_of_pos (all_ne_equals hname)]
    simp
  have hdrop : (name.toList ++ '=' :: value.toList).dropWhile (· != '=') =
      '=' :: value.toList := by
    rw [List.dropWhile_append_of_pos (all_ne_equals hname)]
    simp
  simp only [splitToken, hparts, htake, hdrop, String.ofList_toList]

end Split

/-- The search ends at the first entry of the name, whatever it has seen before. -/
theorem search_exact {table : LongTable} {entry : LongEntry} {index : Nat}
    (hentry : table[index]? = some entry)
    (hfirst : ∀ earlier ∈ table.take index, earlier.name ≠ entry.name) (start : Nat)
    (found : Candidate) :
    table.search entry.name start found = .exact (start + index) entry := by
  induction table generalizing index start found with
  | nil => simp at hentry
  | cons first rest ih =>
    cases index with
    | zero =>
      obtain rfl : first = entry := by simpa using hentry
      simp [search]
    | succ index =>
      rw [List.getElem?_cons_succ] at hentry
      have hne : first.name ≠ entry.name := hfirst first (by simp)
      have hrest : ∀ earlier ∈ rest.take index, earlier.name ≠ entry.name := by
        intro earlier hearlier
        exact hfirst earlier (by simp [hearlier])
      rw [search, if_neg hne]
      split
      · rw [ih hentry hrest, Nat.add_assoc, Nat.add_comm 1]
      · rw [ih hentry hrest, Nat.add_assoc, Nat.add_comm 1]

theorem resolve_exact {table : LongTable} {entry : LongEntry} {index : Nat} {token : String}
    {value : Option String} (hentry : table[index]? = some entry)
    (hfirst : ∀ earlier ∈ table.take index, earlier.name ≠ entry.name)
    (hsplit : splitToken token = (entry.name, value)) :
    table.resolve token = .ok ⟨index, entry, entry.name, value⟩ := by
  simp only [resolve, hsplit, search_exact hentry hfirst, Nat.zero_add]

theorem splitToken_of_resolve {table : LongTable} {token : String} {resolved : Resolution}
    (h : table.resolve token = .ok resolved) :
    splitToken token = (resolved.name, resolved.value) := by
  unfold resolve at h
  simp only at h
  split at h
  · cases h; rfl
  · cases h; rfl
  · cases h
  · cases h

end LongTable

def Candidate.choice? : Candidate → Option (Nat × LongEntry)
  | absent | ambiguous => none
  | short index entry | exact index entry => some (index, entry)

theorem Candidate.choice?_add {found : Candidate} {index : Nat} {first : LongEntry}
    {choice : Nat × LongEntry} (h : (found.add index first).choice? = some choice) :
    found.choice? = some choice ∨ choice = (index, first) := by
  cases found with
  | absent => exact Or.inr (Option.some.inj h).symm
  | short index' seen =>
    by_cases hagrees : first.agrees seen
    · rw [add, if_pos hagrees] at h
      exact Or.inl h
    · rw [add, if_neg hagrees] at h
      cases h
  | ambiguous => exact Or.inl h
  | exact index' seen => exact Or.inl h

namespace LongTable

/-- What a search answers with was found before, or stands in the table. -/
theorem getElem?_of_choice?_search {name : String} {table : LongTable} {start : Nat}
    {found : Candidate} {choice : Nat × LongEntry}
    (h : (table.search name start found).choice? = some choice) :
    found.choice? = some choice ∨
      ∃ index, choice.1 = start + index ∧ table[index]? = some choice.2 := by
  induction table generalizing start found with
  | nil => exact Or.inl h
  | cons first rest ih =>
    have hlater {found' : Candidate}
        (hrest : (search name rest (start + 1) found').choice? = some choice) :
        found'.choice? = some choice ∨
          ∃ index, choice.1 = start + index ∧ (first :: rest)[index]? = some choice.2 := by
      rcases ih hrest with hfound | ⟨index, hindex, hentry⟩
      · exact Or.inl hfound
      · exact Or.inr ⟨index + 1, by omega, by rwa [List.getElem?_cons_succ]⟩
    rw [search] at h
    split at h
    · obtain rfl : (start, first) = choice := Option.some.inj h
      exact Or.inr ⟨0, rfl, rfl⟩
    · split at h
      · rcases hlater h with hadded | hrest
        · rcases Candidate.choice?_add hadded with hfound | rfl
          · exact Or.inl hfound
          · exact Or.inr ⟨0, rfl, rfl⟩
        · exact Or.inr hrest
      · exact hlater h

theorem getElem?_of_resolve {table : LongTable} {token : String} {resolved : Resolution}
    (h : table.resolve token = .ok resolved) : table[resolved.index]? = some resolved.entry := by
  unfold resolve at h
  simp only at h
  have hentry (index : Nat) (entry : LongEntry)
      (hsearch : (table.search (splitToken token).1 0 .absent).choice? = some (index, entry)) :
      table[index]? = some entry := by
    rcases getElem?_of_choice?_search hsearch with habsent | ⟨index', hindex, hentry⟩
    · cases habsent
    · obtain rfl : index = index' := by simpa using hindex
      exact hentry
  split at h
  · next index entry hsearch =>
    cases h
    exact hentry index entry (by rw [hsearch]; rfl)
  · next index entry hsearch =>
    cases h
    exact hentry index entry (by rw [hsearch]; rfl)
  · cases h
  · cases h

theorem mem_of_resolve {table : LongTable} {token : String} {resolved : Resolution}
    (h : table.resolve token = .ok resolved) : resolved.entry ∈ table :=
  List.mem_of_getElem? (getElem?_of_resolve h)

theorem error_of_resolve {table : LongTable} {token : String} {error : OptionError}
    (h : table.resolve token = .error error) :
    error = .unknownName token ∨ error = .ambiguousName (splitToken token).1 := by
  unfold resolve at h
  simp only at h
  split at h
  · cases h
  · cases h
  · cases h
    exact Or.inr rfl
  · cases h
    exact Or.inl rfl

end LongTable

end OptionScan
