import Mathlib.Data.List.Perm.Basic
import OptionScan.Proofs.Drain

/-!
What a scan does to the vector. A parse splits the vector into pieces that follow one another from
left to right; a scan that moves operands leaves the same elements, the options in front and the
operands behind, and stops between them.
-/

namespace OptionScan

theorem parseName_goes_on (table : LongTable) (token : String) (ahead : List String) :
    (parseName table token ahead).ends = false := by
  unfold parseName
  split
  · rfl
  · split <;> rfl

theorem parseLetters_ends {grammar : Grammar} {ahead : List String} {letters : List Char}
    (h : (parseLetters grammar ahead letters).ends = true) :
    (parseLetters grammar ahead letters).taken = 0 ∧ ahead.head? = some "" := by
  induction letters with
  | nil => simp [parseLetters] at h
  | cons letter rest ih =>
    unfold parseLetters at h ⊢
    split at h
    · exact ih h
    · exact ih h
    · cases h
    · cases h
    · cases h
    · cases h
    · rw [parseName_goes_on] at h
      cases h
    · next token more _ =>
      by_cases hempty : token = ""
      · subst token
        exact ⟨rfl, rfl⟩
      · rw [if_neg hempty] at h
        simp only [parseName_goes_on] at h
        cases h
    · cases h
    · cases h

theorem parseOption_ends {grammar : Grammar} {element : String} {ahead : List String}
    (h : (parseOption grammar element ahead).ends = true) :
    (parseOption grammar element ahead).taken = 0 ∧ ahead.head? = some "" := by
  unfold parseOption at h ⊢
  split at h
  · rw [parseName_goes_on] at h
    cases h
  · exact parseLetters_ends h
  · cases h

namespace Parse

def elements (p : Parse) : List String :=
  p.segments.flatMap Segment.elements ++ p.marker.toList ++ p.rest

theorem elements_cons (segment : Segment) (p : Parse) :
    (p.cons segment).elements = segment.elements ++ p.elements := by
  simp [elements, cons]

theorem perm_segments (policy : OperandPolicy) (p : Parse) :
    (p.passed policy ++ p.held policy).Perm (p.segments.flatMap Segment.elements) := by
  have hsegment : ∀ segment : Segment,
      segment.passed policy ++ segment.held policy = segment.elements := by
    intro segment
    unfold Segment.passed Segment.held
    cases segment with
    | operand text => split <;> rfl
    | option elements findings => split <;> exact List.append_nil elements
  have hperm := List.flatMap_append_perm p.segments (Segment.passed policy) (Segment.held policy)
  rwa [funext hsegment] at hperm

section Unmoved

variable {policy : OperandPolicy} (hpolicy : policy ≠ .move) (p : Parse)
include hpolicy

theorem passed_of_ne_move : p.passed policy = p.segments.flatMap Segment.elements := by
  have hpassed : Segment.passed policy = Segment.elements := funext fun _ => if_neg hpolicy
  rw [passed, hpassed]

theorem held_of_ne_move : p.held policy = [] := by
  simp [held, Segment.held, hpolicy]

end Unmoved

/-- Whatever moves, no element is lost and none is made up. -/
theorem perm_elements (policy : OperandPolicy) (p : Parse) :
    (p.passed policy ++ p.marker.toList ++ p.held policy ++ p.rest).Perm p.elements := by
  have hmiddle : (p.passed policy ++ p.marker.toList ++ p.held policy).Perm
      (p.passed policy ++ p.held policy ++ p.marker.toList) := by
    rw [List.append_assoc, List.append_assoc]
    exact List.perm_append_comm.append_left _
  exact (hmiddle.trans ((perm_segments policy p).append_right _)).append_right _

end Parse

/-- The pieces of a parse, put together again, are the vector. -/
theorem elements_parse (grammar : Grammar) (policy : OperandPolicy) (elements : List String) :
    (parse grammar policy elements).elements = elements := by
  induction elements using parse_induction grammar policy with
  | nil => simp [parse, Parse.elements]
  | stop element ahead hoperand hpolicy =>
    subst policy
    simp [parse_stop hoperand, Parse.elements]
  | operand element ahead hoperand hpolicy ih =>
    rw [parse_operand hoperand hpolicy, Parse.elements_cons, ih]
    rfl
  | marker ahead => simp [parse_marker, Parse.elements]
  | ends element ahead hoption hmarker hends =>
    obtain ⟨htaken, hhead⟩ := parseOption_ends hends
    obtain ⟨more, rfl⟩ : ∃ more, ahead = "" :: more := List.head?_eq_some_iff.mp hhead
    rw [parse_ends hoption hmarker hends, htaken]
    simp [Parse.elements, Segment.elements]
  | option element ahead hoption hmarker hends ih =>
    rw [parse_option hoption hmarker hends, Parse.elements_cons, ih]
    exact congrArg (element :: ·) (List.take_append_drop ..)

/-- The options are ended by the end marker or by an empty name. -/
theorem marker_parse (grammar : Grammar) (policy : OperandPolicy) (elements : List String) :
    ∀ text ∈ (parse grammar policy elements).marker, text = endMarker ∨ text = "" := by
  intro text htext
  induction elements using parse_induction grammar policy with
  | nil => simp [parse] at htext
  | stop element ahead hoperand hpolicy =>
    subst policy
    simp [parse_stop hoperand] at htext
  | operand element ahead hoperand hpolicy ih =>
    rw [parse_operand hoperand hpolicy] at htext
    exact ih htext
  | marker ahead =>
    rw [parse_marker] at htext
    exact Or.inl (Option.some.inj htext).symm
  | ends element ahead hoption hmarker hends =>
    obtain ⟨_, hhead⟩ := parseOption_ends hends
    rw [parse_ends hoption hmarker hends] at htext
    exact Or.inr (Option.some.inj (hhead.symm.trans htext)).symm
  | option element ahead hoption hmarker hends ih =>
    rw [parse_option hoption hmarker hends] at htext
    exact ih htext

namespace Host

section Drained

variable {h : Host} {grammar : Grammar} {k : Nat} {policy : OperandPolicy} {replies : List Reply}
  (hdrained : h.Drained grammar k policy (parse grammar policy (h.args.drop k)) replies)
  (hk : k ≤ h.args.length)
include hdrained hk

theorem Drained.perm_drop : ((h.after replies).args.drop k).Perm (h.args.drop k) := by
  have hlength : (h.args.take k).length = k := List.length_take_of_le hk
  have hperm := (parse grammar policy (h.args.drop k)).perm_elements policy
  rw [elements_parse] at hperm
  rw [hdrained.args_eq, List.append_assoc, List.append_assoc, List.append_assoc,
    List.drop_left' hlength]
  simpa only [List.append_assoc] using hperm

theorem Drained.cursor_le : (h.after replies).session.cursor ≤ h.args.length := by
  have hlength := (hdrained.perm_drop hk).length_eq
  have hcursor := hdrained.cursor_eq
  have hargs := congrArg List.length hdrained.args_eq
  simp only [List.length_append, List.length_drop, List.length_take] at hlength hcursor hargs
  omega

end Drained

/-- Where operands are not moved, nothing is. -/
theorem Drained.args_unmoved {h : Host} {grammar : Grammar} {k : Nat} {policy : OperandPolicy}
    {replies : List Reply}
    (hdrained : h.Drained grammar k policy (parse grammar policy (h.args.drop k)) replies)
    (hpolicy : policy ≠ .move) : (h.after replies).args = h.args := by
  have hpieces := elements_parse grammar policy (h.args.drop k)
  rw [Parse.elements, ← Parse.passed_of_ne_move hpolicy] at hpieces
  rw [hdrained.args_eq, Parse.held_of_ne_move hpolicy, List.append_nil, List.append_assoc,
    List.append_assoc, ← List.append_assoc (Parse.passed policy _), hpieces,
    List.take_append_drop]

/-- Reading the vector from element `k` on, a scan that moves operands finds option elements with
their arguments, operands, an element that ends the options, if there is one, and a rest. It leaves
the options, that element, the operands and the rest, in this order, each as they stood; the cursor
is behind the options, and no block waits. -/
theorem drain_partitions (h : Host) (grammar : Grammar) (k : Nat) (hk : 1 ≤ k)
    (hstart : h.session.StartsAt k) (hstrict : h.session.config.strict = false)
    (hletters : grammar.letters.Plain) :
    let p := parse grammar .move (h.args.drop k)
    h.args.drop k = p.segments.flatMap Segment.elements ++ p.marker.toList ++ p.rest ∧
    (∀ text ∈ p.marker, text = endMarker ∨ text = "") ∧
    ∃ replies, h.drain grammar = .ok replies ∧
      replies.getLast?.map Reply.code = some none ∧
      (h.after replies).args =
        h.args.take k ++ p.optionElements ++ p.marker.toList ++ p.operands ++ p.rest ∧
      (h.after replies).session.cursor = k + p.optionElements.length + p.marker.toList.length ∧
      (h.after replies).args.drop (h.after replies).session.cursor = p.operands ++ p.rest ∧
      (h.after replies).session.block = .absent := by
  intro p
  have hpolicy : h.session.config.policy grammar.letters = .move := by
    simp only [Config.policy, hstrict, OptionString.policy_of_plain hletters]
    rfl
  obtain ⟨replies, hdrained⟩ := exists_drained h grammar k hk hstart .move hpolicy p rfl
  refine ⟨(elements_parse grammar .move _).symm, marker_parse grammar .move _, replies,
    hdrained.drain_eq, hdrained.ended, hdrained.args_eq, ?_, hdrained.ahead_eq,
    hdrained.block_eq⟩
  rw [hdrained.cursor_eq, Parse.passed_move, List.length_append, Nat.add_assoc]

/-- Two blocks of operands, a required argument in the next element, and an end marker behind
which nothing is read. -/
theorem drain_partitions_interleaved :
    ∃ replies,
      Host.drain { args := ["prog", "in", "-a", "x", "y", "-b", "v", "-", "--", "-a", "z"] }
        ⟨⟨"ab:"⟩, []⟩ = .ok replies ∧
      replies.getLast?.map Reply.code = some none ∧
      (Host.after { args := ["prog", "in", "-a", "x", "y", "-b", "v", "-", "--", "-a", "z"] }
        replies).args = ["prog", "-a", "-b", "v", "--", "in", "x", "y", "-", "-a", "z"] ∧
      (Host.after { args := ["prog", "in", "-a", "x", "y", "-b", "v", "-", "--", "-a", "z"] }
        replies).session.cursor = 5 := by
  obtain ⟨_, _, replies, hdrain, hlast, hargs, hcursor, _⟩ :=
    drain_partitions { args := ["prog", "in", "-a", "x", "y", "-b", "v", "-", "--", "-a", "z"] }
      ⟨⟨"ab:"⟩, []⟩ 1 (by decide)
      (Session.startsAt_new {} (Reporter.lines Reporter.defaultLabel)) rfl ⟨by decide, by decide⟩
  exact ⟨replies, hdrain, hlast, hargs.trans (by decide +kernel),
    hcursor.trans (by decide +kernel)⟩

end Host

end OptionScan
