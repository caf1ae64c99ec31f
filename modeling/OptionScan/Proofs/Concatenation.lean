import OptionScan.Proofs.Boundaries
import OptionScan.Proofs.Rescan

/-!
Vectors put together. A scan of the whole carries the operands of the first part along, past the
options of the second, where a scan of the first part alone would have stopped in front of them.
All the same it finds what the scans of the parts find, one after the other, if the first comes to
the end of its part and none of its options lacks an argument: such an option would find one in the
second part.
-/

namespace OptionScan

namespace Parse

variable (p q : Parse) (policy : OperandPolicy)

theorem prepend_nil : p.prepend [] = p := rfl

theorem cons_prepend (segment : Segment) (done : List Segment) :
    (p.prepend done).cons segment = p.prepend (segment :: done) := rfl

theorem findings_prepend :
    (q.prepend p.segments).findings policy = p.findings policy ++ q.findings policy :=
  List.flatMap_append

theorem passed_prepend :
    (q.prepend p.segments).passed policy = p.passed policy ++ q.passed policy :=
  List.flatMap_append

theorem held_prepend : (q.prepend p.segments).held policy = p.held policy ++ q.held policy :=
  List.flatMap_append

end Parse

/-- Behind elements that were read to their end, and of which no option lacks an argument, others
are read as if they stood alone. -/
theorem parse_append {grammar : Grammar} {policy : OperandPolicy} {first : List String}
    (hcomplete : ∀ finding ∈ (parse grammar policy first).findings policy, finding.Complete)
    (hmarker : (parse grammar policy first).marker = none)
    (hrest : (parse grammar policy first).rest = []) (second : List String) :
    parse grammar policy (first ++ second) =
      (parse grammar policy second).prepend (parse grammar policy first).segments := by
  induction first using parse_induction grammar policy with
  | nil =>
    rw [List.nil_append, parse, Parse.prepend_nil]
  | stop element ahead hoperand hpolicy =>
    subst policy
    rw [parse_stop hoperand] at hrest
    cases hrest
  | operand element ahead hoperand hpolicy ih =>
    rw [parse_operand hoperand hpolicy] at hcomplete hmarker hrest ⊢
    rw [Parse.findings_cons] at hcomplete
    have hlater := ih (List.forall_mem_append.mp hcomplete).2 hmarker hrest
    rw [List.cons_append, parse_operand hoperand hpolicy, hlater, Parse.cons_prepend]
    rfl
  | marker ahead =>
    rw [parse_marker] at hmarker
    cases hmarker
  | ends element ahead hoption hmarked hends =>
    obtain ⟨_, hhead⟩ := parseOption_ends hends
    rw [parse_ends hoption hmarked hends] at hmarker
    cases hhead.symm.trans hmarker
  | option element ahead hoption hmarked hends ih =>
    have hmeaning : (parseOption grammar element ahead).Complete := by
      rw [parse_option hoption hmarked hends, Parse.findings_cons] at hcomplete
      exact (List.forall_mem_append.mp hcomplete).1
    -- The elements that decide what the option means are all in the first part.
    obtain ⟨used, rest, rfl, hlength, hsame⟩ := decided_parseOption hoption hmeaning
    rw [Meaning.reach_eq_taken hends] at hlength
    rw [← hlength, List.drop_left] at ih
    rw [parse_again hoption hmarked hends hlength rfl] at hcomplete hmarker hrest ⊢
    rw [Parse.findings_cons] at hcomplete
    have hlater := ih (List.forall_mem_append.mp hcomplete).2 hmarker hrest
    rw [List.cons_append, List.append_assoc,
      parse_again hoption hmarked hends hlength (hsame _), hlater, Parse.cons_prepend]
    rfl

namespace Host

/-- New sessions scan two vectors, and one in which the elements of the second stand behind those of
the first. If the first scan came to the end of its vector, with no element that ended the options,
and none of its options lacked an argument, then the whole is found to have the items of the first
and then those of the second. Its cursor stops as far behind the name of the program as the two
others do together, and ahead of it is what the first scan left ahead and then what the second
did. -/
theorem drain_concatenates (config : Config) (reporter : Reporter) (grammar : Grammar)
    (program : String) (cells : List Int) (hstrict : config.strict = false)
    (hplain : grammar.letters.Plain) (first second : List String) :
    let host (elements : List String) : Host :=
      { session := { config, reporter }, args := program :: elements, cells }
    let ahead (h : Host) : List String := h.args.drop h.session.cursor
    ∃ one two both, (host first).drain grammar = .ok one ∧
      (host second).drain grammar = .ok two ∧
      (host (first ++ second)).drain grammar = .ok both ∧
      one.getLast?.map Reply.code = some none ∧ two.getLast?.map Reply.code = some none ∧
      both.getLast?.map Reply.code = some none ∧
      ((parse grammar .move first).marker = none →
        (∀ item ∈ one.filterMap Reply.item?, ∀ error ∈ item.error,
          error.lacksArgument = false) →
        both.filterMap Reply.item? = one.filterMap Reply.item? ++ two.filterMap Reply.item? ∧
        ((host (first ++ second)).after both).session.cursor + 1 =
          ((host first).after one).session.cursor + ((host second).after two).session.cursor ∧
        ahead ((host (first ++ second)).after both) =
          ahead ((host first).after one) ++ ahead ((host second).after two)) := by
  intro host ahead
  have hscan (elements : List String) : ∃ replies,
      (host elements).Drained grammar 1 .move (parse grammar .move elements) replies :=
    exists_drained (host elements) grammar 1 (Nat.le_refl 1) (Session.startsAt_new config reporter)
      .move (Config.policy_of_plain hstrict hplain) _ rfl
  obtain ⟨one, hone⟩ := hscan first
  obtain ⟨two, htwo⟩ := hscan second
  obtain ⟨both, hboth⟩ := hscan (first ++ second)
  refine ⟨one, two, both, hone.drain_eq, htwo.drain_eq, hboth.drain_eq, hone.ended, htwo.ended,
    hboth.ended, ?_⟩
  intro hmarker hcomplete
  have hrest : (parse grammar .move first).rest = [] := by
    rcases rest_of_unmarked hmarker with hnil | ⟨hstop, _⟩
    · exact hnil
    · cases hstop
  rw [parse_append (hone.complete hcomplete) hmarker hrest] at hboth
  refine ⟨?_, ?_, ?_⟩
  · rw [hboth.items_eq, hone.items_eq, htwo.items_eq, Parse.findings_prepend, List.map_append]
  · rw [hboth.cursor_eq, hone.cursor_eq, htwo.cursor_eq, Parse.passed_prepend, hmarker]
    simp only [Parse.prepend, Option.toList_none, List.append_nil, List.length_append]
    omega
  · have hahead := hboth.ahead_eq
    rw [Parse.held_prepend, List.append_assoc] at hahead
    simp only [ahead]
    rw [hahead, hone.ahead_eq, htwo.ahead_eq, hrest, List.append_nil]
    rfl

/-- The first part ends with operands behind a cluster and an argument that looks like the end
marker; the second begins with a cluster that ends in a name, and is ended by an empty name. -/
theorem drain_concatenates_seam :
    let host (elements : List String) : Host := { args := "prog" :: elements }
    let ahead (h : Host) : List String := h.args.drop h.session.cursor
    let grammar : Grammar := ⟨⟨"ab:W;"⟩, [⟨"name", .required, 110, none⟩]⟩
    let first : List String := ["in", "-axb", "--", "out", "-"]
    let second : List String := ["-aWna", "-a", "y", "-W", "", "-a"]
    ∃ one two both, (host first).drain grammar = .ok one ∧
      (host second).drain grammar = .ok two ∧
      (host (first ++ second)).drain grammar = .ok both ∧
      one.filterMap Reply.item? = [⟨97, none, none, none⟩,
        ⟨63, none, none, some (.unknownLetter 'x')⟩, ⟨98, some "--", none, none⟩] ∧
      both.filterMap Reply.item? = one.filterMap Reply.item? ++ two.filterMap Reply.item? ∧
      ((host (first ++ second)).after both).session.cursor + 1 =
        ((host first).after one).session.cursor + ((host second).after two).session.cursor ∧
      ahead ((host (first ++ second)).after both) =
        ahead ((host first).after one) ++ ahead ((host second).after two) ∧
      ahead ((host (first ++ second)).after both) = ["in", "out", "-", "y", "-a"] := by
  intro host ahead grammar first second
  obtain ⟨one, two, both, hone, htwo, hboth, _, _, _, hwhole⟩ :=
    drain_concatenates {} (Reporter.lines Reporter.defaultLabel) grammar "prog" [] rfl
      ⟨by decide, by decide⟩ first second
  have hfound : ((host first).drain grammar).toOption.map (List.filterMap Reply.item?) =
      some [⟨97, none, none, none⟩, ⟨63, none, none, some (.unknownLetter 'x')⟩,
        ⟨98, some "--", none, none⟩] := by
    decide +kernel
  have hleft : ((host (first ++ second)).drain grammar).toOption.map (fun replies =>
      ahead ((host (first ++ second)).after replies)) = some ["in", "out", "-", "y", "-a"] := by
    decide +kernel
  rw [show (host first).drain grammar = .ok one from hone] at hfound
  rw [show (host (first ++ second)).drain grammar = .ok both from hboth] at hleft
  have hitems := Option.some.inj hfound
  have hcomplete : ∀ item ∈ one.filterMap Reply.item?, ∀ error ∈ item.error,
      error.lacksArgument = false := by
    rw [hitems]
    decide
  obtain ⟨hall, hcursor, hahead⟩ := hwhole (by decide +kernel) hcomplete
  exact ⟨one, two, both, hone, htwo, hboth, hitems, hall, hcursor, hahead, Option.some.inj hleft⟩

end Host

end OptionScan
