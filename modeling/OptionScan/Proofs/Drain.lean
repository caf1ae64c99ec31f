import OptionScan.Proofs.Modes
import OptionScan.Proofs.Replies
import OptionScan.Proofs.ScanSteps

/-!
Draining a vector. However the calls of a scan move the elements about, together they find what the
parse of the vector as it was at the start says; and when the scan ends, the options with their
arguments and the end marker lie in front of the operands, each part in its original order.
-/

namespace OptionScan

theorem length_le_byteWidth (text : List Char) : text.length ≤ byteWidth text := by
  induction text with
  | nil => exact Nat.le_refl 0
  | cons c rest ih =>
    have := Char.utf8Size_pos c
    simp only [List.length_cons, byteWidth]
    omega

theorem volume_drop_le (elements : List String) (n : Nat) :
    volume (elements.drop n) ≤ volume elements := by
  induction elements generalizing n with
  | nil => simp
  | cons element rest ih =>
    cases n with
    | zero => exact Nat.le_refl _
    | succ n => exact Nat.le_trans (ih n) (Nat.le_add_left ..)

theorem length_parseName (table : LongTable) (token : String) (ahead : List String) :
    (parseName table token ahead).findings.length = 1 := by
  unfold parseName
  split
  · rfl
  · split <;> rfl

theorem length_parseLetters (grammar : Grammar) (ahead : List String) (letters : List Char) :
    (parseLetters grammar ahead letters).findings.length ≤ letters.length := by
  induction letters with
  | nil => exact Nat.le_refl 0
  | cons letter rest ih =>
    have hname (token : String) (more : List String) :
        (parseName grammar.table token more).findings.length ≤ (letter :: rest).length := by
      rw [length_parseName]
      simp
    unfold parseLetters
    split
    · simpa [Meaning.cons] using ih
    · simpa [Meaning.cons] using ih
    · simp
    · simp
    · simp
    · simp
    · exact hname _ _
    · split
      · simp
      · exact hname _ _
    · simp
    · simp

theorem length_parseOption (grammar : Grammar) (element : String) (ahead : List String) :
    (parseOption grammar element ahead).findings.length ≤ byteWidth element.toList := by
  apply Nat.le_trans _ (length_le_byteWidth element.toList)
  unfold parseOption
  split
  · next token hlist =>
    rw [length_parseName, hlist]
    simp
  · next letters _ hlist =>
    rw [hlist]
    exact Nat.le_trans (length_parseLetters ..) (Nat.le_add_right ..)
  · exact Nat.zero_le _

/-- There are no more findings than bytes and elements. -/
theorem length_findings_parse (grammar : Grammar) (policy : OperandPolicy)
    (elements : List String) :
    ((parse grammar policy elements).findings policy).length ≤ volume elements := by
  induction elements using parse_induction grammar policy with
  | nil => simp [parse, Parse.findings]
  | stop element ahead hoperand hpolicy =>
    subst policy
    simp [parse_stop hoperand, Parse.findings]
  | operand element ahead hoperand hpolicy ih =>
    have hone : ((Segment.operand element).findings policy).length ≤ 1 := by
      simp only [Segment.findings]
      split <;> simp
    rw [parse_operand hoperand hpolicy, Parse.findings_cons, List.length_append, volume]
    omega
  | marker ahead => simp [parse_marker, Parse.findings]
  | ends element ahead hoption hmarker hends =>
    have hhead := length_parseOption grammar element ahead
    rw [parse_ends hoption hmarker hends]
    simp only [Parse.findings, List.flatMap_cons, List.flatMap_nil, List.append_nil,
      Segment.findings_option, volume]
    omega
  | option element ahead hoption hmarker hends ih =>
    have hhead := length_parseOption grammar element ahead
    have htail := volume_drop_le ahead (parseOption grammar element ahead).taken
    rw [parse_option hoption hmarker hends, Parse.findings_cons, Segment.findings_option,
      List.length_append, volume]
    omega

theorem Steps.length_findings {grammar : Grammar} {policy : OperandPolicy}
    {first target : Except Fault Reading} {rs : List Reading}
    (h : Steps grammar policy first rs target) :
    (rs.filterMap Reading.finding?).length = rs.length := by
  induction h with
  | refl => rfl
  | @step r rs target hfound _ _ ih =>
    obtain ⟨finding, hfinding⟩ := Reading.exists_finding hfound
    rw [List.filterMap_cons_some hfinding, List.length_cons, List.length_cons, ih]

theorem Steps.found {grammar : Grammar} {policy : OperandPolicy}
    {first target : Except Fault Reading} {rs : List Reading}
    (h : Steps grammar policy first rs target) : ∀ r ∈ rs, r.outcome ≠ .ended := by
  induction h with
  | refl => exact fun _ hr => absurd hr List.not_mem_nil
  | step hfound _ _ ih => exact List.forall_mem_cons.mpr ⟨hfound, ih⟩

theorem Steps.quiet {grammar : Grammar} {policy : OperandPolicy}
    {first target : Except Fault Reading} {rs : List Reading}
    (h : Steps grammar policy first rs target) (hfirst : ∀ r, first = .ok r → r.walk.Quiet) :
    (∀ r ∈ rs, r.walk.Quiet) ∧ ∀ r, target = .ok r → r.walk.Quiet := by
  induction h with
  | refl => exact ⟨fun _ hr => absurd hr List.not_mem_nil, hfirst⟩
  | @step r rs target _ _ _ ih =>
    have hr : r.walk.Quiet := hfirst r rfl
    have hnext : ∀ r', r.next grammar policy = .ok r' → r'.walk.Quiet := by
      intro r' hr'
      have hstart : Walk.Quiet { r.walk with outputs := [] } := rfl
      unfold Reading.next at hr'
      split at hr'
      · exact Walk.readNext_quiet hstart hr'
      · exact Walk.resume_quiet hstart hr'
    obtain ⟨hrest, htarget⟩ := ih hnext
    exact ⟨List.forall_mem_cons.mpr ⟨hr, hrest⟩, htarget⟩

/-- The readings of a whole scan from element `k` on, against the parse from that element on. Past
the end of the vector there is nothing to read, and the cursor stays where it is. -/
theorem readNext_start (grammar : Grammar) (policy : OperandPolicy) (args : List String) (k : Nat)
    (hk : 1 ≤ k) (p : Parse) (hp : p = parse grammar policy (args.drop k)) :
    ∃ rs last, Steps grammar policy (Walk.readNext { args, cursor := k } grammar policy) rs
        (.ok last) ∧
      rs.filterMap Reading.finding? = p.findings policy ∧ last.outcome = .ended ∧
      last.walk.args =
        args.take k ++ p.passed policy ++ p.marker.toList ++ p.held policy ++ p.rest ∧
      last.walk.cursor = k + (p.passed policy ++ p.marker.toList).length ∧
      last.walk.block = .absent := by
  rcases Nat.lt_or_ge args.length k with hpast | hwithin
  · have hnil : args.drop k = [] := List.drop_eq_nil_of_le (by omega)
    have hread : Walk.readNext { args, cursor := k } grammar policy =
        .ok ⟨{ args, cursor := k }, none, .ended⟩ := by
      unfold Walk.readNext
      simp only [hnil, Walk.seek]
      rfl
    rw [hread]
    refine ⟨[], _, .refl _, ?_, rfl, ?_, ?_, rfl⟩
    · simp [hp, hnil, parse, Parse.findings]
    · simp [hp, hnil, parse, Parse.passed, Parse.held,
        List.take_of_length_le (Nat.le_of_lt hpast)]
    · simp [hp, hnil, parse, Parse.passed]
  · have hfront : (args.take k).length = k := List.length_take_of_le hwithin
    obtain ⟨rs, last, hsteps, hfindings, hends⟩ := readNext_parse grammar policy
      (by omega) (args.drop k) (Laid.start hwithin) (fun _ => rfl)
    rw [← hp] at hfindings hends
    refine ⟨rs, last, hsteps, hfindings, hends.outcome_eq, ?_, ?_, hends.block_eq⟩
    · simpa using hends.args_eq
    · rw [hends.cursor_eq, List.length_append, hfront, List.nil_append]

namespace Host

/-- A cursor at the name of the program counts as one at the first argument. -/
theorem reading_start {h : Host} {grammar : Grammar} {j : Nat} (hstart : h.session.StartsAt j) :
    h.reading grammar = Walk.readNext { args := h.args, cursor := max 1 j } grammar
      (h.session.config.policy grammar.letters) := by
  unfold reading Session.read
  simp [Session.prepare, hstart.cursor_eq, hstart.offset_eq, hstart.block_eq]

/-- A scan that starts at element `k` leaves the elements before it where they are. -/
theorem drop_scanned (grammar : Grammar) (policy : OperandPolicy) (args : List String) (k : Nat)
    (p : Parse) (hp : p = parse grammar policy (args.drop k)) :
    (args.take k ++ p.passed policy ++ p.marker.toList ++ p.held policy ++ p.rest).drop k =
      p.passed policy ++ p.marker.toList ++ (p.held policy ++ p.rest) := by
  rcases Nat.lt_or_ge args.length k with hpast | hwithin
  · have hnil : args.drop k = [] := List.drop_eq_nil_of_le (by omega)
    simp [hp, hnil, parse, Parse.passed, Parse.held]
  · have hfront : (args.take k).length = k := List.length_take_of_le hwithin
    simp only [List.append_assoc]
    exact List.drop_left' hfront

/-- Where a scan stops, the operands that were moved and the rest lie ahead. -/
theorem drop_rearranged (grammar : Grammar) (policy : OperandPolicy) (args : List String) (k : Nat)
    (p : Parse) (hp : p = parse grammar policy (args.drop k)) :
    (args.take k ++ p.passed policy ++ p.marker.toList ++ p.held policy ++ p.rest).drop
        (k + (p.passed policy ++ p.marker.toList).length) =
      p.held policy ++ p.rest := by
  rw [← List.drop_drop, drop_scanned grammar policy args k p hp, List.drop_left]

theorem getLast?_code_replies (h : Host) (grammar : Grammar) (rs : List Reading) (last : Reading)
    (hended : last.outcome = .ended) :
    (h.replies grammar (rs ++ [last])).getLast?.map Reply.code = some none := by
  rw [replies_concat, List.getLast?_append, List.getLast?_singleton]
  exact congrArg some ((code_reply _ grammar last).mpr hended)

/-- The readings of a scan of a vector that is parsed as `p` from element `k` on: each of `rs` finds
something, and `last` ends the scan. -/
structure Scanned (h : Host) (grammar : Grammar) (k : Nat) (policy : OperandPolicy) (p : Parse)
    (rs : List Reading) (last : Reading) : Prop where
  drain_eq : h.drain grammar = .ok (h.replies grammar (rs ++ [last]))
  found : ∀ r ∈ rs, r.outcome ≠ .ended
  findings_eq : rs.filterMap Reading.finding? = p.findings policy
  ended : last.outcome = .ended
  quiet : ∀ r ∈ rs ++ [last], r.walk.Quiet
  args_eq : last.walk.args =
    h.args.take k ++ p.passed policy ++ p.marker.toList ++ p.held policy ++ p.rest
  cursor_eq : last.walk.cursor = k + (p.passed policy ++ p.marker.toList).length
  block_eq : last.walk.block = .absent

/-- A scan comes to its end. -/
theorem exists_scanned (h : Host) (grammar : Grammar) (j : Nat) (hstart : h.session.StartsAt j)
    (policy : OperandPolicy) (hpolicy : h.session.config.policy grammar.letters = policy)
    (p : Parse) (hp : p = parse grammar policy (h.args.drop (max 1 j))) :
    ∃ rs last, Scanned h grammar (max 1 j) policy p rs last := by
  obtain ⟨rs, last, hsteps, hfindings, hended, hargs, hcursor, hblock⟩ :=
    readNext_start grammar policy h.args (max 1 j) (Nat.le_max_left ..) p hp
  have hreading : h.reading grammar =
      Walk.readNext { args := h.args, cursor := max 1 j } grammar policy :=
    hpolicy ▸ reading_start hstart
  have hlimit : rs.length < h.callBound := by
    have hcount := hsteps.length_findings
    have hbound := length_findings_parse grammar policy (h.args.drop (max 1 j))
    have hvolume := volume_drop_le h.args (max 1 j)
    rw [hfindings, hp] at hcount
    unfold callBound
    omega
  have hquiet : ∀ r ∈ rs ++ [last], r.walk.Quiet := by
    obtain ⟨hquiet, hlast⟩ := hsteps.quiet fun r hr => Session.read_quiet (hreading.trans hr)
    exact List.forall_mem_append.mpr ⟨hquiet, List.forall_mem_singleton.mpr (hlast last rfl)⟩
  exact ⟨rs, last, collect_of_steps hsteps hended hreading hpolicy h.callBound hlimit,
    hsteps.found, hfindings, hended, hquiet, hargs, hcursor, hblock⟩

/-- What the caller sees of a scan of a vector that is parsed as `p` from element `k` on. -/
structure Drained (h : Host) (grammar : Grammar) (k : Nat) (policy : OperandPolicy) (p : Parse)
    (replies : List Reply) : Prop where
  drain_eq : h.drain grammar = .ok replies
  ended : replies.getLast?.map Reply.code = some none
  results_eq : replies.filterMap (fun reply => reply.item?.map (·, reply.host.cells)) =
    Finding.results grammar.letters h.cells (p.findings policy)
  items_eq : replies.filterMap Reply.item? =
    (p.findings policy).map (Finding.item grammar.letters)
  cells_eq : (h.after replies).cells = Finding.finalCells h.cells (p.findings policy)
  diagnostics_eq : Output.diagnostics (replies.flatMap Reply.outputs) =
    Finding.allDiagnostics h.session.config h.session.reporter grammar.letters (p.findings policy)
  args_eq : (h.after replies).args =
    h.args.take k ++ p.passed policy ++ p.marker.toList ++ p.held policy ++ p.rest
  cursor_eq : (h.after replies).session.cursor = k + (p.passed policy ++ p.marker.toList).length
  ahead_eq : (h.after replies).args.drop (h.after replies).session.cursor =
    p.held policy ++ p.rest
  block_eq : (h.after replies).session.block = .absent

/-- A scan shows its caller what the parse says. -/
theorem Scanned.drained {h : Host} {grammar : Grammar} {k : Nat} {policy : OperandPolicy}
    {p : Parse} {rs : List Reading} {last : Reading}
    (hscanned : Scanned h grammar k policy p rs last)
    (hp : p = parse grammar policy (h.args.drop k)) :
    Drained h grammar k policy p (h.replies grammar (rs ++ [last])) := by
  have hall : (rs ++ [last]).filterMap Reading.finding? = p.findings policy := by
    have hnone : last.finding? = none := by
      simp only [Reading.finding?, hscanned.ended, Outcome.finding?]
    rw [List.filterMap_append, hscanned.findings_eq, List.filterMap_cons_none hnone,
      List.filterMap_nil, List.append_nil]
  refine ⟨hscanned.drain_eq, getLast?_code_replies h grammar rs last hscanned.ended,
    ?_, ?_, ?_, ?_, ?_, ?_, ?_, ?_⟩
  · rw [results_replies, hall]
  · rw [items_replies, hall]
  · rw [cells_after_replies, hall]
  · rw [diagnostics_replies h grammar _ hscanned.quiet, hall]
  · rw [after_replies_concat, reply_args, hscanned.args_eq]
  · rw [after_replies_concat, reply_cursor, hscanned.cursor_eq]
  · rw [after_replies_concat, reply_args, reply_cursor, hscanned.args_eq, hscanned.cursor_eq]
    exact drop_rearranged grammar policy h.args k p hp
  · rw [after_replies_concat, reply_block, hscanned.block_eq]

theorem exists_drained_from (h : Host) (grammar : Grammar) (j : Nat)
    (hstart : h.session.StartsAt j) (policy : OperandPolicy)
    (hpolicy : h.session.config.policy grammar.letters = policy) (p : Parse)
    (hp : p = parse grammar policy (h.args.drop (max 1 j))) :
    ∃ replies, Drained h grammar (max 1 j) policy p replies := by
  obtain ⟨rs, last, hscanned⟩ := exists_scanned h grammar j hstart policy hpolicy p hp
  exact ⟨_, hscanned.drained hp⟩

theorem exists_drained (h : Host) (grammar : Grammar) (k : Nat) (hk : 1 ≤ k)
    (hstart : h.session.StartsAt k) (policy : OperandPolicy)
    (hpolicy : h.session.config.policy grammar.letters = policy) (p : Parse)
    (hp : p = parse grammar policy (h.args.drop k)) :
    ∃ replies, Drained h grammar k policy p replies := by
  have hmax : max 1 k = k := Nat.max_eq_right hk
  have hdrained := exists_drained_from h grammar k hstart policy hpolicy p
  rw [hmax] at hdrained
  exact hdrained hp

/-- The calls of a scan that starts at element `k`, up to the one that finds nothing, hand back
the items that the parse of the elements from `k` on lists; the vector that is parsed is the one
before the first call. -/
theorem drain_items (h : Host) (grammar : Grammar) (k : Nat) (hk : 1 ≤ k)
    (hstart : h.session.StartsAt k) :
    let policy := h.session.config.policy grammar.letters
    ∃ replies, h.drain grammar = .ok replies ∧
      replies.getLast?.map Reply.code = some none ∧
      replies.filterMap Reply.item? =
        ((parse grammar policy (h.args.drop k)).findings policy).map
          (Finding.item grammar.letters) := by
  intro policy
  obtain ⟨replies, hdrained⟩ := exists_drained h grammar k hk hstart policy rfl _ rfl
  exact ⟨replies, hdrained.drain_eq, hdrained.ended, hdrained.items_eq⟩

/-- Operands between the options, a letter of two bytes, an abbreviated name, an argument that
looks like an option, and an empty name after the last letter. -/
theorem drain_items_interleaved :
    ∃ replies,
      Host.drain { args := ["prog", "in", "-éx", "-bé", "out", "--na", "-b", "-éW", "", "-x"] }
        ⟨⟨"éb:W;"⟩, [⟨"name", .required, 110, none⟩]⟩ = .ok replies ∧
      replies.getLast?.map Reply.code = some none ∧
      replies.filterMap Reply.item? =
        [⟨233, none, none, none⟩, ⟨63, none, none, some (.unknownLetter 'x')⟩,
          ⟨98, some "é", none, none⟩, ⟨110, some "-b", some 0, none⟩, ⟨233, none, none, none⟩] := by
  obtain ⟨replies, hdrain, hlast, hitems⟩ :=
    drain_items { args := ["prog", "in", "-éx", "-bé", "out", "--na", "-b", "-éW", "", "-x"] }
      ⟨⟨"éb:W;"⟩, [⟨"name", .required, 110, none⟩]⟩ 1 (by decide)
      (Session.startsAt_new {} (Reporter.lines Reporter.defaultLabel))
  exact ⟨replies, hdrain, hlast, hitems.trans (by decide +kernel)⟩

end Host

end OptionScan
