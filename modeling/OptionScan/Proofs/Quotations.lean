import OptionScan.Proofs.Partition

/-!
What a finding quotes. The argument of an option and the option that a problem is about are pieces
of the elements that were parsed; nothing that is said of them is made up. So what holds of every
character of a vector holds of every character that a scan of it repeats.
-/

namespace OptionScan

def Finding.texts : Finding → List String
  | failed error _ => [error.subject]
  | found _ argument _ _ => argument.toList

/-- The text is a piece of one of the elements. -/
def Quoted (elements : List String) (text : String) : Prop :=
  ∃ element ∈ elements, text.toList <:+: element.toList

theorem Quoted.of_mem {elements : List String} {text : String} (h : text ∈ elements) :
    Quoted elements text :=
  ⟨text, h, List.infix_rfl⟩

theorem Quoted.of_head {element text : String} (h : text.toList <:+: element.toList)
    (ahead : List String) : Quoted (element :: ahead) text :=
  ⟨element, List.mem_cons_self, h⟩

def Finding.Quotes (elements : List String) (finding : Finding) : Prop :=
  ∀ text ∈ finding.texts, Quoted elements text

/-- A piece of a piece is a piece. -/
theorem Finding.Quotes.trans {elements wholes : List String} {finding : Finding}
    (h : finding.Quotes elements) (hwholes : ∀ element ∈ elements, Quoted wholes element) :
    finding.Quotes wholes := by
  intro text htext
  obtain ⟨element, helement, hpiece⟩ := h text htext
  obtain ⟨whole, hwhole, hinfix⟩ := hwholes element helement
  exact ⟨whole, hwhole, hpiece.trans hinfix⟩

namespace Finding

variable {elements : List String}

theorem quotes_failed (error : OptionError) (h : Quoted elements error.subject) (culprit : Code) :
    (failed error culprit).Quotes elements := by
  intro text htext
  rw [List.mem_singleton.mp htext]
  exact h

theorem quotes_found {argument : Option String} (h : ∀ text ∈ argument, Quoted elements text)
    (code : Code) (entryIndex : Option Nat) (store : Option Store) :
    (found code argument entryIndex store).Quotes elements := by
  intro text htext
  exact h text (Option.mem_toList.mp htext)

theorem quotes_alone (code : Code) (entryIndex : Option Nat) (store : Option Store) :
    (found code none entryIndex store).Quotes elements := by
  intro text htext
  cases htext

theorem quotes_argument {argument : String} (h : Quoted elements argument) (code : Code)
    (entryIndex : Option Nat) (store : Option Store) :
    (found code (some argument) entryIndex store).Quotes elements := by
  intro text htext
  rw [List.mem_singleton.mp htext]
  exact h

theorem quotes_entry {argument : Option String} (h : ∀ text ∈ argument, Quoted elements text)
    (resolved : Resolution) : (entry resolved argument).Quotes elements := by
  unfold entry
  split
  · exact quotes_found h _ _ _
  · exact quotes_found h _ _ _

end Finding

namespace LongTable

variable {table : LongTable} {token : String}

theorem subject_isInfix {error : OptionError} (hresolve : table.resolve token = .error error) :
    error.subject.toList <:+: token.toList := by
  unfold resolve at hresolve
  split at hresolve
  next name value hsplit =>
  have hname := name_isPrefix token
  rw [hsplit] at hname
  split at hresolve
  · cases hresolve
  · cases hresolve
  · cases hresolve
    exact hname.isInfix
  · cases hresolve
    exact List.infix_rfl

end LongTable

@[simp] theorem Meaning.findings_cons (finding : Finding) (meaning : Meaning) :
    (meaning.cons finding).findings = finding :: meaning.findings := rfl

section Elements

variable {grammar : Grammar} (ahead : List String)

theorem parseName_quotes (table : LongTable) (token : String) :
    ∀ finding ∈ (parseName table token ahead).findings, finding.Quotes (token :: ahead) := by
  cases hresolve : table.resolve token with
  | error error =>
    rw [parseName_unresolved hresolve, List.forall_mem_singleton]
    exact Finding.quotes_failed error (.of_head (LongTable.subject_isInfix hresolve) ahead) 0
  | ok resolved =>
    have hsplit := LongTable.splitToken_of_resolve hresolve
    have hname : resolved.name.toList <+: token.toList := by
      simpa [hsplit] using LongTable.name_isPrefix token
    have hvalue : ∀ text ∈ resolved.value, Quoted (token :: ahead) text := by
      intro text htext
      have hsuffix : text.toList <:+ token.toList :=
        LongTable.value_isSuffix (by rw [hsplit]; exact htext)
      exact .of_head hsuffix.isInfix ahead
    unfold parseName
    simp only [hresolve]
    split
    · rw [List.forall_mem_singleton]
      exact Finding.quotes_failed (.unwantedArgument _) (.of_head hname.isInfix _) _
    · rw [List.forall_mem_singleton]
      exact Finding.quotes_failed (.missingNameArgument _) (.of_mem List.mem_cons_self) _
    · next text more _ _ =>
      rw [List.forall_mem_singleton]
      apply Finding.quotes_entry
      intro _ htext
      rw [← Option.some.inj htext]
      exact .of_mem (by simp)
    · rw [List.forall_mem_singleton]
      exact Finding.quotes_entry hvalue resolved

theorem parseLetters_quotes (letters : List Char) :
    ∀ finding ∈ (parseLetters grammar ahead letters).findings,
      finding.Quotes (String.ofList letters :: ahead) := by
  induction letters with
  | nil => simp [parseLetters]
  | cons letter rest ih =>
    have hahead : ∀ text ∈ ahead, Quoted (String.ofList (letter :: rest) :: ahead) text :=
      fun text htext => .of_mem (List.mem_cons_of_mem _ htext)
    have hrest : Quoted (String.ofList (letter :: rest) :: ahead) (String.ofList rest) :=
      .of_head (by simpa using (List.suffix_cons letter rest).isInfix) ahead
    have hletter : Quoted (String.ofList (letter :: rest) :: ahead) (String.singleton letter) :=
      .of_head (by simpa using (List.prefix_append [letter] rest).isInfix) ahead
    have hlater := fun finding hfinding =>
      (ih finding hfinding).trans (List.forall_mem_cons.mpr ⟨hrest, hahead⟩)
    unfold parseLetters
    split
    · rw [Meaning.findings_cons, List.forall_mem_cons]
      exact ⟨Finding.quotes_failed (.unknownLetter letter) hletter _, hlater⟩
    · rw [Meaning.findings_cons, List.forall_mem_cons]
      exact ⟨Finding.quotes_alone _ _ _, hlater⟩
    · rw [List.forall_mem_singleton]
      exact Finding.quotes_argument hrest _ _ _
    · rw [List.forall_mem_singleton]
      exact Finding.quotes_argument hrest _ _ _
    · rw [List.forall_mem_singleton]
      exact Finding.quotes_alone _ _ _
    · next text _ _ =>
      rw [List.forall_mem_singleton]
      exact Finding.quotes_argument (hahead text List.mem_cons_self) _ _ _
    · intro finding hfinding
      exact (parseName_quotes _ _ _ finding hfinding).trans
        (List.forall_mem_cons.mpr ⟨hrest, hahead⟩)
    · split
      · simp
      · intro finding hfinding
        exact (parseName_quotes _ _ _ finding hfinding).trans hahead
    · rw [List.forall_mem_singleton]
      exact Finding.quotes_failed (.missingLetterArgument letter) hletter _
    · rw [List.forall_mem_singleton]
      exact Finding.quotes_failed (.missingLetterArgument letter) hletter _

theorem parseOption_quotes (element : String) :
    ∀ finding ∈ (parseOption grammar element ahead).findings,
      finding.Quotes (element :: ahead) := by
  have hahead : ∀ text ∈ ahead, Quoted (element :: ahead) text :=
    fun text htext => .of_mem (List.mem_cons_of_mem _ htext)
  have hsuffix : ∀ front rest : List Char, element.toList = front ++ rest →
      Quoted (element :: ahead) (String.ofList rest) := by
    intro front rest hlist
    apply Quoted.of_head
    rw [String.toList_ofList, hlist]
    exact (List.suffix_append front rest).isInfix
  unfold parseOption
  split
  · next token hlist =>
    intro finding hfinding
    exact (parseName_quotes _ _ _ finding hfinding).trans
      (List.forall_mem_cons.mpr ⟨hsuffix ['-', '-'] token hlist, hahead⟩)
  · next letters _ hlist =>
    intro finding hfinding
    exact (parseLetters_quotes _ _ finding hfinding).trans
      (List.forall_mem_cons.mpr ⟨hsuffix ['-'] letters hlist, hahead⟩)
  · simp

end Elements

/-- All that the findings of a parse quote is taken from the elements. -/
theorem parse_quotes (grammar : Grammar) (policy : OperandPolicy) (elements : List String) :
    ∀ finding ∈ (parse grammar policy elements).findings policy, finding.Quotes elements := by
  induction elements using parse_induction grammar policy with
  | nil => simp [parse, Parse.findings]
  | stop element ahead hoperand hpolicy =>
    subst policy
    simp [parse_stop hoperand, Parse.findings]
  | operand element ahead hoperand hpolicy ih =>
    rw [parse_operand hoperand hpolicy, Parse.findings_cons]
    have hfirst : ∀ finding ∈ (Segment.operand element).findings policy,
        finding.Quotes (element :: ahead) := by
      simp only [Segment.findings]
      split
      · rw [List.forall_mem_singleton]
        exact Finding.quotes_argument (.of_mem List.mem_cons_self) _ _ _
      · simp
    rw [List.forall_mem_append]
    refine ⟨hfirst, ?_⟩
    intro finding hfinding
    exact (ih finding hfinding).trans fun text htext => .of_mem (List.mem_cons_of_mem _ htext)
  | marker ahead => simp [parse_marker, Parse.findings]
  | ends element ahead hoption hmarker hends =>
    rw [parse_ends hoption hmarker hends]
    simpa [Parse.findings] using parseOption_quotes ahead element
  | option element ahead hoption hmarker hends ih =>
    rw [parse_option hoption hmarker hends, Parse.findings_cons, Segment.findings_option]
    rw [List.forall_mem_append]
    refine ⟨parseOption_quotes ahead element, ?_⟩
    intro finding hfinding
    exact (ih finding hfinding).trans fun text htext =>
      .of_mem (List.mem_cons_of_mem _ (List.mem_of_mem_drop htext))

/-- So is all that the replies of a scan quote. -/
theorem Host.Drained.quotes {h : Host} {grammar : Grammar} {k : Nat} {policy : OperandPolicy}
    {replies : List Reply}
    (hdrained : h.Drained grammar k policy (parse grammar policy (h.args.drop k)) replies) :
    ∀ reply ∈ replies, ∀ item ∈ reply.item?,
      (∀ text ∈ item.argument, Quoted (h.args.drop k) text) ∧
        ∀ error ∈ item.error, Quoted (h.args.drop k) error.subject := by
  intro reply hreply item hitem
  have hmem : item ∈ replies.filterMap Reply.item? := List.mem_filterMap.mpr ⟨reply, hreply, hitem⟩
  rw [hdrained.items_eq] at hmem
  obtain ⟨finding, hfinding, rfl⟩ := List.mem_map.mp hmem
  have hquotes := parse_quotes grammar policy (h.args.drop k) finding hfinding
  cases finding with
  | failed error culprit => simpa [Finding.item] using hquotes _ List.mem_cons_self
  | found code argument entryIndex store =>
    simpa [Finding.item, Finding.Quotes, Finding.texts] using hquotes

end OptionScan
