import OptionScan.Proofs.Histories
import OptionScan.Proofs.Partition

/-!
Between the calls of a scan. The pieces that the parse splits the vector into are read one after the
other, operands along with the option behind them; a call may also end inside an option, with some
of its letters left. Wherever a call ends, the elements read so far are the options and the operands
of the pieces read so far, each in their order, and nothing has touched the elements that follow.
-/

namespace OptionScan

namespace Parse

def prepend (done : List Segment) (p : Parse) : Parse :=
  { p with segments := done ++ p.segments }

theorem prepend_cons (done : List Segment) (segment : Segment) (p : Parse) :
    (p.cons segment).prepend done = p.prepend (done ++ [segment]) := by
  simp [prepend, cons]

theorem elements_prepend (done : List Segment) (p : Parse) :
    (p.prepend done).elements = done.flatMap Segment.elements ++ p.elements := by
  simp [elements, prepend]

end Parse

namespace Meaning

def prepend (half : List Finding) (meaning : Meaning) : Meaning :=
  { meaning with findings := half ++ meaning.findings }

theorem prepend_cons (half : List Finding) (finding : Finding) (meaning : Meaning) :
    (cons finding meaning).prepend half = meaning.prepend (half ++ [finding]) := by
  simp [prepend, cons]

end Meaning

/-- How far a scan of the vector `elements`, which stands behind `front`, has got. It has read the
pieces `done`, and has found `half` in the option under the cursor if that is half read. -/
inductive Midway (grammar : Grammar) (policy : OperandPolicy) (front elements : List String)
    (done : List Segment) : (half : List Finding) → Walk → (offset : Option Nat) → Prop
  | between {w : Walk} (ahead : List String)
      (hparse : parse grammar policy elements = (parse grammar policy ahead).prepend done)
      (hlaid : Laid front (done.flatMap (Segment.passed policy))
        (done.flatMap (Segment.held policy)) ahead w)
      (hshut : w.Shut) : Midway grammar policy front elements done [] w none
  | inside {w : Walk} {half : List Finding} (element : String) (ahead : List String)
      (before : List Char) (letter : Char) (after : List Char)
      (hparse : parse grammar policy elements =
        (parse grammar policy (element :: ahead)).prepend done)
      (hoption : ¬ isOperand element) (hmarker : element ≠ endMarker)
      (helement : element.toList = before ++ letter :: after)
      (hmeaning : parseOption grammar element ahead =
        (parseLetters grammar ahead (letter :: after)).prepend half) (hhalf : half ≠ [])
      (hlaid : Laid front (done.flatMap (Segment.passed policy))
        (done.flatMap (Segment.held policy)) (element :: ahead) w)
      (hshut : w.Shut) : Midway grammar policy front elements done half w (some (byteWidth before))

def GotOn (grammar : Grammar) (policy : OperandPolicy) (front elements : List String)
    (done : List Segment) (half : List Finding) (r : Reading) : Prop :=
  ∃ finding done' half', r.finding? = some finding ∧
    done'.flatMap (Segment.findings policy) ++ half' =
      done.flatMap (Segment.findings policy) ++ half ++ [finding] ∧
    Midway grammar policy front elements done' half' r.walk r.offset

section Step

variable {grammar : Grammar} {policy : OperandPolicy} {front elements ahead : List String}
  {element : String} {done : List Segment} {half : List Finding} {w : Walk} {r : Reading}

/-- A call at an option, or inside it, of which `meaning` is left. -/
theorem Reading.Reads.gotOn {least : Nat} {meaning : Meaning}
    (hparse : parse grammar policy elements =
      (parse grammar policy (element :: ahead)).prepend done)
    (hoption : ¬ isOperand element) (hmarker : element ≠ endMarker)
    (hmeaning : parseOption grammar element ahead = meaning.prepend half)
    (hreads : r.Reads grammar front (done.flatMap (Segment.passed policy))
      (done.flatMap (Segment.held policy)) ahead element least meaning)
    (hfound : r.outcome ≠ .ended) : GotOn grammar policy front elements done half r := by
  obtain ⟨finding, hfinding⟩ := exists_finding hfound
  cases hreads with
  | ends _ _ _ hlast => exact absurd hlast.outcome_eq hfound
  | whole hcovers =>
    have hfindings : meaning.findings = [finding] := by
      rw [← hcovers.finding_eq, hfinding]
      rfl
    have hends : (parseOption grammar element ahead).ends = false := by
      rw [hmeaning]
      exact hcovers.goes_on
    let segment : Segment :=
      .option (element :: ahead.take meaning.taken) (half ++ meaning.findings)
    have hparse' : parse grammar policy elements =
        (parse grammar policy (ahead.drop meaning.taken)).prepend (done ++ [segment]) := by
      rw [hparse, parse_option hoption hmarker hends, Parse.prepend_cons, hmeaning]
      rfl
    refine ⟨finding, done ++ [segment], [], hfinding, ?_, ?_⟩
    · simp [segment, hfindings]
    · rw [hcovers.offset_eq]
      exact .between _ hparse' (by simpa [segment] using hcovers.laid) hcovers.shut
  | part finding' before letter after helement hfinding' hoffset _ hrest hlaid hshut =>
    obtain rfl : finding' = finding := Option.some.inj (hfinding'.symm.trans hfinding)
    refine ⟨finding', done, half ++ [finding'], hfinding, by simp, ?_⟩
    rw [hoffset]
    rw [hrest, Meaning.prepend_cons] at hmeaning
    exact .inside element ahead before letter after hparse hoption hmarker helement hmeaning
      (List.concat_ne_nil _ _) hlaid hshut

/-- A call that starts between two elements. -/
theorem readNext_gotOn (hparse : parse grammar policy elements =
      (parse grammar policy ahead).prepend done)
    (hlaid : Laid front (done.flatMap (Segment.passed policy))
      (done.flatMap (Segment.held policy)) ahead w)
    (hshut : policy ≠ .move → w.Shut) (hread : w.readNext grammar policy = .ok r)
    (hfound : r.outcome ≠ .ended) : GotOn grammar policy front elements done [] r := by
  -- Operands that are passed over are pieces read, with no finding of their own.
  induction ahead generalizing done w with
  | nil =>
    obtain ⟨last, hlast, hends⟩ := readNext_nil grammar policy hlaid
    cases hlast.symm.trans hread
    exact absurd hends.outcome_eq hfound
  | cons element ahead ih =>
    by_cases hoperand : isOperand element
    · cases policy with
      | stop =>
        cases (readNext_halt grammar hoperand hlaid).symm.trans hread
        exact absurd rfl hfound
      | move =>
        obtain ⟨w', hsame, hlaid'⟩ := readNext_pass grammar hoperand hlaid
        rw [parse_operand hoperand (by decide), Parse.prepend_cons] at hparse
        have hmore := ih hparse
          (by simpa [Segment.passed, Segment.held, Segment.optionElements, Segment.operands]
            using hlaid')
          (fun h => absurd rfl h) (hsame ▸ hread)
        simpa [GotOn, Segment.findings] using hmore
      | report =>
        have hgiven := readNext_report grammar hoperand hlaid
        cases hgiven.symm.trans hread
        have hget : w.args[w.cursor]? = some element := by
          simpa using hlaid.getElem?_cursor_add 0
        rw [parse_operand hoperand (by decide), Parse.prepend_cons] at hparse
        refine ⟨.operand element, _, [], ?_, ?_, .between ahead hparse ?_ (hshut (by decide))⟩
        · simp [Reading.finding?, Outcome.finding?, Walk.advance, Location.text?_whole hget,
            Finding.operand]
        · simp [Segment.findings]
        · simpa [Segment.passed, Segment.held, Segment.elements]
            using hlaid.advance (hshut (by decide))
    · by_cases hmarker : element = endMarker
      · subst element
        obtain ⟨last, hlast, hends⟩ := readNext_marker grammar policy hlaid
        cases hlast.symm.trans hread
        exact absurd hends.outcome_eq hfound
      · obtain ⟨r', hread', hreads⟩ :=
          readNext_option_reads grammar policy hoperand hmarker hlaid
        cases hread'.symm.trans hread
        exact hreads.gotOn hparse hoperand hmarker (by simp [Meaning.prepend]) hfound

end Step

namespace Midway

variable {grammar : Grammar} {policy : OperandPolicy} {front elements : List String}
  {done : List Segment} {half : List Finding} {w : Walk} {offset : Option Nat} {r : Reading}

theorem of_outputs (hmid : Midway grammar policy front elements done half w offset)
    (outputs : List Output) :
    Midway grammar policy front elements done half { w with outputs } offset := by
  cases hmid with
  | between ahead hparse hlaid hshut => exact .between ahead hparse (hlaid.of_outputs outputs) hshut
  | inside element ahead before letter after hparse hoption hmarker helement hmeaning hhalf hlaid
      hshut =>
    exact .inside element ahead before letter after hparse hoption hmarker helement hmeaning hhalf
      (hlaid.of_outputs outputs) hshut

theorem exists_laid (hmid : Midway grammar policy front elements done half w offset) :
    ∃ unread, parse grammar policy elements = (parse grammar policy unread).prepend done ∧
      Laid front (done.flatMap (Segment.passed policy)) (done.flatMap (Segment.held policy))
        unread w ∧ w.Shut := by
  cases hmid with
  | between ahead hparse hlaid hshut => exact ⟨ahead, hparse, hlaid, hshut⟩
  | inside element ahead _ _ _ hparse _ _ _ _ _ hlaid hshut =>
    exact ⟨element :: ahead, hparse, hlaid, hshut⟩

/-- What is still to be read. If something of it was found before, it begins with the option in
which that was found. -/
theorem exists_todo (hmid : Midway grammar policy front elements done half w offset) :
    ∃ todo, (parse grammar policy elements).segments = done ++ todo ∧
      (offset = none ∧ half = [] ∨
        offset ≠ none ∧ half ≠ [] ∧ ∃ option findings more,
          todo = .option option findings :: more ∧ half <+: findings) := by
  cases hmid with
  | between ahead hparse => exact ⟨_, congrArg Parse.segments hparse, Or.inl ⟨rfl, rfl⟩⟩
  | inside element ahead before letter after hparse hoption hmarker _ hmeaning hhalf =>
    refine ⟨_, congrArg Parse.segments hparse, Or.inr ⟨Option.some_ne_none _, hhalf, ?_⟩⟩
    have hprefix : half <+: (parseOption grammar element ahead).findings := by
      rw [hmeaning]
      exact List.prefix_append ..
    cases hends : (parseOption grammar element ahead).ends with
    | true =>
      rw [parse_ends hoption hmarker hends]
      exact ⟨_, _, [], rfl, hprefix⟩
    | false =>
      rw [parse_option hoption hmarker hends]
      exact ⟨_, _, _, rfl, hprefix⟩

theorem resumable (hfront : 0 < front.length)
    (hmid : Midway grammar policy front elements done half r.walk r.offset) : r.Resumable := by
  generalize hoffset : r.offset = offset at hmid
  unfold Reading.Resumable
  rw [hoffset]
  cases hmid with
  | between ahead _ hlaid => exact ⟨Nat.le_trans hfront hlaid.length_front_le, Or.inl rfl⟩
  | inside element ahead _ _ _ _ _ _ _ _ _ hlaid =>
    have hlength := hlaid.length_args
    simp only [List.length_cons] at hlength
    exact ⟨Nat.le_trans hfront hlaid.length_front_le, Or.inr (by omega)⟩

/-- The call after this one. -/
theorem gotOn (hmid : Midway grammar policy front elements done half w offset)
    (hread : (match offset with
      | none => w.readNext grammar policy
      | some offset => w.resume grammar policy offset) = .ok r)
    (hfound : r.outcome ≠ .ended) : GotOn grammar policy front elements done half r := by
  cases hmid with
  | between ahead hparse hlaid hshut =>
    exact readNext_gotOn hparse hlaid (fun _ => hshut) hread hfound
  | inside element ahead before letter after hparse hoption hmarker helement hmeaning hhalf hlaid
      hshut =>
    obtain ⟨r', hread', hreads⟩ := readLetter_reads grammar hlaid hshut helement
    rw [← resume_of_append policy hlaid helement] at hread'
    cases hread'.symm.trans hread
    exact hreads.gotOn hparse hoption hmarker hmeaning hfound

end Midway

namespace Laid

variable {front options operands ahead : List String} {w : Walk}

theorem take_front (h : Laid front options operands ahead w) :
    w.args.take front.length = front := by
  cases h with
  | clear _ _ hargs _ => simp only [hargs, List.append_assoc, List.take_left]
  | opened _ _ hargs _ => simp only [hargs, List.append_assoc, List.take_left]
  | closed moved passed _ _ _ hargs _ => simp only [hargs, List.append_assoc, List.take_left]

/-- Where the operands stand among the options, and what the block says of it. -/
theorem exists_parts (h : Laid front options operands ahead w) (hshut : w.Shut) :
    ∃ moved passed, (w.args.take w.cursor).drop front.length = moved ++ operands ++ passed ∧
      moved ++ passed = options ∧
      (w.block = .absent ∧ operands = [] ∨ ∃ start stop, w.block = .closed start stop ∧
        start = front.length + moved.length ∧ operands ≠ [] ∧
        (w.args.take stop).drop start = operands) := by
  cases h with
  | clear hblock hoperands hargs hcursor =>
    refine ⟨options, [], ?_, List.append_nil _, Or.inl ⟨hblock, hoperands⟩⟩
    rw [hargs, hcursor, List.take_left, List.drop_left, hoperands, List.append_nil,
      List.append_nil]
  | opened hblock => exact absurd hblock (hshut _)
  | closed moved passed hoptions hblock hoperands hargs hcursor =>
    refine ⟨moved, passed, ?_, hoptions.symm,
      Or.inr ⟨_, _, hblock, List.length_append, hoperands, ?_⟩⟩
    · rw [hargs, hcursor, List.take_left]
      simp only [List.append_assoc, List.drop_left]
    · have hsplit : w.args = front ++ moved ++ operands ++ (passed ++ ahead) := by
        rw [hargs, List.append_assoc]
      rw [hsplit, List.take_left, List.drop_left]

end Laid

namespace Host

variable {h : Host} {grammar : Grammar} {policy : OperandPolicy} {front elements : List String}

theorem start_of_startsAt {j : Nat} (hstart : h.session.StartsAt j) :
    h.start = { args := h.args, cursor := max 1 j } ∧ h.startOffset = none := by
  constructor
  · unfold start
    simp [hstart.cursor_eq, hstart.block_eq]
  · unfold startOffset
    simp [hstart.offset_eq]

/-- The host that a call leaves goes on where the reading stopped. -/
theorem start_reply (h : Host) (grammar : Grammar) {r : Reading} (hresumable : r.Resumable) :
    (h.reply grammar r).host.start = { r.walk with outputs := [] } ∧
      (h.reply grammar r).host.startOffset = r.offset := by
  obtain ⟨hcursor, hinside⟩ := hresumable
  have hmax : max 1 r.walk.cursor = r.walk.cursor := Nat.max_eq_right hcursor
  constructor
  · simp only [start, reply_args, reply_cursor, reply_block, reply_resetRequested, hmax]
    rfl
  · simp only [startOffset, reply_args, reply_cursor, reply_offset, reply_resetRequested, hmax]
    rcases hinside with hnone | hlt
    · simp [hnone]
    · simp [Nat.not_le.mpr hlt]

/-- Every reply of a scan that finds something leaves the scan midway, and the findings so far are
the items that were handed back. -/
theorem collect_midway {limit : Nat} {replies : List Reply} {done : List Segment}
    {half : List Finding} (hfront : 0 < front.length)
    (hpolicy : h.session.config.policy grammar.letters = policy)
    (hmid : Midway grammar policy front elements done half h.start h.startOffset)
    (hcollect : h.collect grammar limit = .ok replies) {before after : List Reply} {reply : Reply}
    (hsplit : replies = before ++ reply :: after) (hcode : reply.code ≠ none) :
    ∃ (host : Host) (r : Reading) (done' : List Segment) (half' : List Finding),
      reply = host.reply grammar r ∧
      Midway grammar policy front elements done' half' r.walk r.offset ∧
      (done'.flatMap (Segment.findings policy) ++ half').map (Finding.item grammar.letters) =
        (done.flatMap (Segment.findings policy) ++ half).map (Finding.item grammar.letters) ++
          (before ++ [reply]).filterMap Reply.item? := by
  induction limit generalizing h done half replies before with
  | zero =>
    cases hcollect
    exact absurd hsplit (by simp)
  | succ limit ih =>
    cases collects_of_collect hcollect with
    | ended first _ hnone =>
      have hmem : reply ∈ [first] := hsplit ▸ List.mem_append_right _ List.mem_cons_self
      rw [List.mem_singleton.mp hmem] at hcode
      exact absurd hnone hcode
    | found first more hcall hfirst hmore =>
      obtain ⟨r, hreading, rfl⟩ := exists_reading_of_call hcall
      have hfound : r.outcome ≠ .ended := fun hended =>
        hfirst ((code_reply h grammar r).mpr hended)
      rw [reading_eq, hpolicy] at hreading
      obtain ⟨finding, done', half', hfinding, hfindings, hmid'⟩ := hmid.gotOn hreading hfound
      have hitem : (h.reply grammar r).item? = some (finding.item grammar.letters) := by
        rw [reply_item?, hfinding]
        rfl
      cases before with
      | nil =>
        obtain ⟨rfl, _⟩ := List.cons.inj hsplit
        refine ⟨h, r, done', half', rfl, hmid', ?_⟩
        simp [hfindings, hitem]
      | cons second before =>
        obtain ⟨rfl, hlater⟩ := List.cons.inj hsplit
        obtain ⟨hwalk, hoffset⟩ := start_reply h grammar (hmid'.resumable hfront)
        obtain ⟨host, r', done'', half'', hreply, hmid'', hitems⟩ :=
          ih (hpolicy ▸ congrArg (Config.policy · _) (reply_config h grammar r))
            (hwalk ▸ hoffset ▸ hmid'.of_outputs []) hmore hlater
        refine ⟨host, r', done'', half'', hreply, hmid'', ?_⟩
        rw [hitems, hfindings]
        simp [hitem]

/-- How the vector lies after a call, in comparison with the vector `original` in which the scan
started at element `k`. The elements up to the cursor are those of the pieces `done`. The operands
among them stand together, behind some of the options and in front of the others; if there are any,
the block that waits holds just them, and else none waits. What stands before element `k` and from
the cursor on is as it was. -/
structure Between (original : List String) (k : Nat) (done : List Segment) (h : Host) : Prop where
  le_cursor : k ≤ h.session.cursor
  cursor_le : h.session.cursor ≤ h.args.length
  front_eq : h.args.take k = original.take k
  ahead_eq : h.args.drop h.session.cursor = original.drop h.session.cursor
  done_eq : (original.take h.session.cursor).drop k = done.flatMap Segment.elements
  laid : ∃ moved passed,
    (h.args.take h.session.cursor).drop k =
      moved ++ done.flatMap Segment.operands ++ passed ∧
    moved ++ passed = done.flatMap Segment.optionElements ∧
    (h.session.block = .absent ∧ done.flatMap Segment.operands = [] ∨
      ∃ start stop, h.session.block = .closed start stop ∧ start = k + moved.length ∧
        done.flatMap Segment.operands ≠ [] ∧
        (h.args.take stop).drop start = done.flatMap Segment.operands)

theorem between_reply {original : List String} {k : Nat} {done : List Segment}
    {half : List Finding} {r : Reading} (hk : k ≤ original.length)
    (hmid : Midway grammar .move (original.take k) (original.drop k) done half r.walk r.offset) :
    (h.reply grammar r).host.Between original k done := by
  obtain ⟨unread, hparse, hlaid, hshut⟩ := hmid.exists_laid
  have hfront : (original.take k).length = k := List.length_take_of_le hk
  have hpieces : original.drop k = done.flatMap Segment.elements ++ unread := by
    rw [← elements_parse grammar .move (original.drop k), hparse, Parse.elements_prepend,
      elements_parse]
  have horiginal : original = original.take k ++ done.flatMap Segment.elements ++ unread := by
    rw [List.append_assoc, ← hpieces, List.take_append_drop]
  have hcursor : r.walk.cursor = (original.take k ++ done.flatMap Segment.elements).length := by
    have hperm := (Parse.perm_segments .move { segments := done }).length_eq
    simp only [Parse.passed, Parse.held, List.length_append] at hperm
    rw [hlaid.cursor_eq, List.length_append]
    omega
  have hfrontKept := hlaid.take_front
  have hparts := hlaid.exists_parts hshut
  rw [hfront] at hfrontKept hparts
  constructor
  · rw [reply_cursor]
    exact hfront ▸ hlaid.length_front_le
  · rw [reply_cursor, reply_args]
    exact hlaid.cursor_le
  · rw [reply_args]
    exact hfrontKept
  · rw [reply_args, reply_cursor, hlaid.drop_cursor]
    conv_rhs => rw [horiginal, hcursor, List.drop_left]
  · rw [reply_cursor]
    conv_lhs => rw [horiginal, hcursor, List.take_left]
    exact List.drop_left' hfront
  · rw [reply_args, reply_cursor, reply_block]
    exact hparts

/-- After each call that finds something, of a scan that moves operands, the pieces of the vector
fall into those that were read, `done`, and those that are to be read, `todo`; a half-read option is
the first of the latter, and `half` is what was found of it. The vector lies as `Between` says. -/
theorem drain_boundaries (h : Host) (grammar : Grammar) (j : Nat) (hstart : h.session.StartsAt j)
    (hstrict : h.session.config.strict = false) (hplain : grammar.letters.Plain) :
    let k := max 1 j
    let p := parse grammar .move (h.args.drop k)
    ∃ replies, h.drain grammar = .ok replies ∧ replies.getLast?.map Reply.code = some none ∧
      ∀ before reply after, replies = before ++ reply :: after → reply.code ≠ none →
        ∃ done todo half, p.segments = done ++ todo ∧ reply.host.Between h.args k done ∧
          (before ++ [reply]).filterMap Reply.item? =
            (done.flatMap (Segment.findings .move) ++ half).map
              (Finding.item grammar.letters) ∧
          (reply.host.session.offset = none ∧ half = [] ∨
            reply.host.session.offset ≠ none ∧ half ≠ [] ∧ ∃ option findings more,
              todo = .option option findings :: more ∧ half <+: findings) := by
  intro k p
  have hpolicy := Config.policy_of_plain hstrict hplain
  obtain ⟨replies, hdrained⟩ := exists_drained_from h grammar j hstart .move hpolicy p rfl
  refine ⟨replies, hdrained.drain_eq, hdrained.ended, ?_⟩
  intro before reply after hsplit hcode
  have hk : k ≤ h.args.length := by
    by_contra hpast
    have hnil : h.args.drop k = [] := List.drop_eq_nil_of_le (by omega)
    obtain ⟨item, hitem⟩ := Reply.exists_item hcode
    have hreply : reply ∈ replies := hsplit ▸ List.mem_append_right before List.mem_cons_self
    have hmem := List.mem_filterMap.mpr ⟨reply, hreply, hitem⟩
    rw [hdrained.items_eq] at hmem
    simp [p, hnil, parse, Parse.findings] at hmem
  obtain ⟨hwalk, hoffset⟩ := start_of_startsAt hstart
  have hfront : 0 < (h.args.take k).length := by
    rw [List.length_take_of_le hk]
    exact Nat.le_max_left ..
  have hmid : Midway grammar .move (h.args.take k) (h.args.drop k) [] [] h.start
      h.startOffset := by
    rw [hwalk, hoffset]
    exact .between _ rfl (Laid.start hk) (Walk.shut_of_absent rfl)
  obtain ⟨host, r, done, half, rfl, hmid', hitems⟩ :=
    collect_midway hfront hpolicy hmid hdrained.drain_eq hsplit hcode
  obtain ⟨todo, htodo, hhalf⟩ := hmid'.exists_todo
  refine ⟨done, todo, half, htodo, between_reply hk hmid', ?_, ?_⟩
  · rw [hitems]
    rfl
  · rw [reply_offset]
    exact hhalf

/-- The second call has moved the first operand behind an option and has passed over two more; it
ends inside an option that will take its argument from the next element. -/
theorem drain_boundaries_half_read :
    let h : Host :=
      { args := ["prog", "in", "-a", "x", "y", "-cb", "v", "z", "-a", "-"] }
    let grammar : Grammar := ⟨⟨"ab:c"⟩, []⟩
    ∃ before reply after, h.drain grammar = .ok (before ++ reply :: after) ∧
      before.length = 1 ∧
      reply.host.args = ["prog", "-a", "in", "x", "y", "-cb", "v", "z", "-a", "-"] ∧
      reply.host.session.cursor = 5 ∧ reply.host.session.block = .closed 2 5 ∧
      ∃ done todo half, (parse grammar .move (h.args.drop 1)).segments = done ++ todo ∧
        reply.host.Between h.args 1 done ∧
        (before ++ [reply]).filterMap Reply.item? =
          (done.flatMap (Segment.findings .move) ++ half).map (Finding.item grammar.letters) ∧
        half ≠ [] ∧ ∃ option findings more,
          todo = .option option findings :: more ∧ half <+: findings := by
  intro h grammar
  obtain ⟨replies, hdrain, _, hall⟩ := drain_boundaries h grammar 1
    (Session.startsAt_new {} (Reporter.lines Reporter.defaultLabel)) rfl ⟨by decide, by decide⟩
  have hseen : (h.drain grammar).toOption.bind (fun replies => replies[1]?.map fun reply =>
      (reply.code, reply.host.args, reply.host.session.cursor, reply.host.session.block,
        reply.host.session.offset)) =
      some (some 99, ["prog", "-a", "in", "x", "y", "-cb", "v", "z", "-a", "-"], 5, .closed 2 5,
        some 2) := by
    decide +kernel
  rw [hdrain] at hseen
  obtain ⟨reply, hget, hreply⟩ := Option.map_eq_some_iff.mp hseen
  simp only [Prod.mk.injEq] at hreply
  obtain ⟨hcode, hargs, hcursor, hblock, hoffset⟩ := hreply
  obtain ⟨hlt, hreply⟩ := List.getElem?_eq_some_iff.mp hget
  have hsplit : replies = replies.take 1 ++ reply :: replies.drop 2 := by
    rw [← hreply, ← List.drop_eq_getElem_cons hlt, List.take_append_drop]
  obtain ⟨done, todo, half, htodo, hbetween, hitems, hhalf⟩ :=
    hall (replies.take 1) reply (replies.drop 2) hsplit (by simp [hcode])
  rcases hhalf with ⟨hnone, _⟩ | ⟨_, hhalf⟩
  · cases hnone.symm.trans hoffset
  · exact ⟨replies.take 1, reply, replies.drop 2, hdrain.trans (congrArg Except.ok hsplit),
      List.length_take_of_le (by omega), hargs, hcursor, hblock, done, todo, half, htodo, hbetween,
      hitems, hhalf⟩

end Host

end OptionScan
