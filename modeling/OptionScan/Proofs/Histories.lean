import OptionScan.Proofs.Calls
import OptionScan.Proofs.Replies

/-!
Histories of a session. The caller may set the cursor, ask for a reset and replace the vector and
the grammar at will between two calls; what a session keeps from one call to the next stays sound
throughout. A block of operands that waits is not empty and ends before the element that is to be
looked at next, and a byte position that is kept falls behind a letter of its element.
-/

namespace OptionScan

/-- A block as it may wait from one call to the next, given the cursor and the byte position in a
half-read element. It is closed, and the option that closed it is read or half read. -/
inductive Block.Sound (cursor : Nat) (offset : Option Nat) : Block → Prop
  | absent : Sound cursor offset .absent
  | closed {start stop : Nat} (hstart : 1 ≤ start) (hblock : start < stop) (hstop : stop ≤ cursor)
      (hread : offset = none → stop < cursor) : Sound cursor offset (.closed start stop)

/-- What a session keeps from one call to the next. A half-read element is read behind its dash and
at least one letter. -/
structure Session.Sound (s : Session) : Prop where
  block : s.block.Sound s.cursor s.offset
  offset : ∀ position, s.offset = some position → 2 ≤ position

/-- An element that was left half read stands under the cursor, and the position in it falls
between two characters. -/
def Host.HalfRead (h : Host) : Prop :=
  ∀ position, h.session.offset = some position → 2 ≤ position ∧
    ∃ element before letter after, h.args[h.session.cursor]? = some element ∧
      element.toList = before ++ letter :: after ∧ byteWidth before = position

structure Reading.Sound (r : Reading) : Prop where
  block : r.walk.block.Sound r.walk.cursor r.offset
  offset : ∀ position, r.offset = some position → 2 ≤ position ∧
    ∃ element before letter after, r.walk.args[r.walk.cursor]? = some element ∧
      element.toList = before ++ letter :: after ∧ byteWidth before = position
  within : r.walk.block = .absent ∨ r.walk.cursor ≤ r.walk.args.length

section Sound

variable {front options operands ahead : List String} {w : Walk} {r : Reading}

theorem Laid.cursor_le (h : Laid front options operands ahead w) : w.cursor ≤ w.args.length := by
  have := h.length_args
  omega

theorem Laid.block_sound {offset : Option Nat} (hfront : 0 < front.length)
    (h : Laid front options operands ahead w) (hshut : w.Shut)
    (hread : offset = none → w.Behind) : w.block.Sound w.cursor offset := by
  cases hblock : w.block with
  | absent => exact .absent
  | opened start => exact absurd hblock (hshut start)
  | closed start stop =>
    obtain ⟨hstart, hsize, hstop⟩ := h.closed_bounds hblock
    exact .closed (by omega) hsize hstop (fun hnone => hread hnone start stop hblock)

theorem Reading.Leaves.sound {least : Nat} (hfront : 0 < front.length) (hleast : 1 ≤ least)
    (h : r.Leaves front options operands ahead least) : r.Sound := by
  cases h with
  | past passed taken rest hahead htaken hfound hoffset hlaid hshut hbehind =>
    refine ⟨hlaid.block_sound hfront hshut (fun _ => hbehind), ?_, Or.inr hlaid.cursor_le⟩
    intro position hposition
    rw [hoffset] at hposition
    cases hposition
  | inside passed rest element before letter after hahead hfound hoffset helement hbefore hlaid
      hshut =>
    refine ⟨hlaid.block_sound hfront hshut ?_, ?_, Or.inr hlaid.cursor_le⟩
    · intro hnone
      rw [hoffset] at hnone
      cases hnone
    · intro position hposition
      rw [hoffset] at hposition
      obtain rfl : byteWidth before = position := Option.some.inj hposition
      refine ⟨by omega, element, before, letter, after, ?_, helement, rfl⟩
      simpa using hlaid.getElem?_cursor_add 0
  | ends passed taken rest hahead hends =>
    refine ⟨hends.block_eq ▸ .absent, ?_, Or.inl hends.block_eq⟩
    intro position hposition
    rw [hends.offset_eq] at hposition
    cases hposition
  | stops passed rest hahead hrest hended hoffset hlaid hshut hbehind =>
    refine ⟨hlaid.block_sound hfront hshut (fun _ => hbehind), ?_, Or.inr hlaid.cursor_le⟩
    intro position hposition
    rw [hoffset] at hposition
    cases hposition

end Sound

namespace Host

def start (h : Host) : Walk where
  args := h.args
  cursor := max 1 h.session.cursor
  block := if h.session.resetRequested then .absent else h.session.block

def startOffset (h : Host) : Option Nat :=
  if h.session.resetRequested || decide (h.args.length ≤ max 1 h.session.cursor) then none
  else h.session.offset

/-- No call can be made: a block waits, and the cursor is past the end of the vector, which is not
the one in which the block was found. -/
def Stranded (h : Host) (first stop : Nat) : Prop :=
  h.session.resetRequested = false ∧ h.session.block = .closed first stop ∧
    h.args.length < h.session.cursor

theorem reading_eq (h : Host) (grammar : Grammar) :
    h.reading grammar =
      match h.startOffset with
      | none => h.start.readNext grammar (h.session.config.policy grammar.letters)
      | some offset => h.start.resume grammar (h.session.config.policy grammar.letters) offset :=
  rfl

variable {h : Host} {grammar : Grammar}

theorem call_of_error {fault : Fault} (hreading : h.reading grammar = .error fault) :
    h.call grammar = .error fault := by
  have hread : (h.session.prepare h.args.length).read grammar h.args = .error fault := hreading
  unfold call Session.next
  simp only [hread]
  rfl

/-- The block that a call starts out with has waited for it. -/
theorem block_of_start {block : Block} (hblock : h.start.block = block) (hwaits : block ≠ .absent) :
    h.session.resetRequested = false ∧ h.session.block = block := by
  cases hreset : h.session.resetRequested with
  | true => exact absurd (by simp [← hblock, start, hreset]) hwaits
  | false => exact ⟨rfl, by simpa [start, hreset] using hblock⟩

theorem startOffset_eq (hwithin : h.start.cursor < h.args.length) :
    h.startOffset = if h.session.resetRequested then none else h.session.offset := by
  have hlt : ¬ h.args.length ≤ max 1 h.session.cursor := Nat.not_le.mpr hwithin
  simp [startOffset, hlt]

/-- A call goes on inside an element only where an earlier one left off, within the vector. -/
theorem offset_of_startOffset {offset : Nat} (hoffset : h.startOffset = some offset) :
    h.session.offset = some offset ∧ h.start.cursor < h.args.length := by
  unfold startOffset at hoffset
  split at hoffset
  · cases hoffset
  · next hcond =>
    simp only [Bool.or_eq_true, decide_eq_true_eq, not_or, Nat.not_le] at hcond
    exact ⟨hoffset, hcond.2⟩

theorem start_shut (hsound : h.session.Sound) : h.start.Shut := by
  intro first hopened
  obtain ⟨_, hkept⟩ := block_of_start hopened (by simp)
  have hblock := hsound.block
  rw [hkept] at hblock
  cases hblock

theorem start_behind (hsound : h.session.Sound) (hwithin : h.start.cursor < h.args.length)
    (hoffset : h.startOffset = none) : h.start.Behind := by
  intro first stop hclosed
  obtain ⟨hreset, hkept⟩ := block_of_start hclosed (by simp)
  have hnone : h.session.offset = none := by
    simpa [startOffset_eq hwithin, hreset] using hoffset
  have hblock := hsound.block
  rw [hkept] at hblock
  cases hblock with
  | closed _ _ _ hread => exact Nat.lt_of_lt_of_le (hread hnone) (Nat.le_max_right ..)

/-- Whatever was replaced before a call, the vector lies as after a walk: the block that waits
holds operands, and the elements behind it are options. -/
theorem start_laid (hsound : h.session.Sound) (hwithin : h.start.cursor ≤ h.args.length) :
    ∃ front options operands, 0 < front.length ∧
      Laid front options operands (h.args.drop h.start.cursor) h.start := by
  have hone : 1 ≤ h.start.cursor := Nat.le_max_left ..
  cases hblock : h.start.block with
  | absent =>
    refine ⟨h.args.take h.start.cursor, [], [], ?_, ?_⟩
    · rw [List.length_take_of_le hwithin]
      exact hone
    · apply Laid.clear hblock rfl
      · rw [List.append_nil, List.take_append_drop]
        rfl
      · rw [List.append_nil, List.length_take_of_le hwithin]
  | opened first => exact absurd hblock (start_shut hsound first)
  | closed first stop =>
    obtain ⟨_, hclosed⟩ := block_of_start hblock (by simp)
    have hcursor : h.session.cursor ≤ h.start.cursor := Nat.le_max_right ..
    have hkept := hsound.block
    rw [hclosed] at hkept
    cases hkept with
    | closed hfirst hsize hstop _ =>
      refine ⟨_, _, _, ?_, Laid.of_closed hblock hsize (by omega) hwithin⟩
      have htake : (h.start.args.take first).length = first :=
        List.length_take_of_le (Nat.le_trans (by omega) hwithin)
      omega

/-- What a call does, from whatever sound state. It reads on where the earlier calls stopped; or it
gives up the element under the cursor, which has no letter at the position it was left at. -/
theorem reading_leaves (hsound : h.session.Sound) (hwithin : h.start.cursor ≤ h.args.length)
    (grammar : Grammar) :
    ∃ front options operands r, 0 < front.length ∧
      Laid front options operands (h.args.drop h.start.cursor) h.start ∧
      h.reading grammar = .ok r ∧
      (r.Leaves front options operands (h.args.drop h.start.cursor) (h.startOffset.getD 1) ∨
        ∃ element rest, h.args.drop h.start.cursor = element :: rest ∧
          r.Leaves front (options ++ [element]) operands rest 1) := by
  obtain ⟨front, options, operands, hfront, hlaid⟩ := start_laid hsound hwithin
  have hshut := start_shut hsound
  rw [reading_eq]
  cases hoffset : h.startOffset with
  | none =>
    rcases Nat.lt_or_ge h.start.cursor h.args.length with hlt | hge
    · obtain ⟨r, hread, hleaves⟩ := readNext_leaves grammar
        (h.session.config.policy grammar.letters) _ hlaid (fun _ => hshut)
        (fun _ => start_behind hsound hlt hoffset)
      exact ⟨front, options, operands, r, hfront, hlaid, hread, Or.inl hleaves⟩
    · have hnil : h.args.drop h.start.cursor = [] := List.drop_eq_nil_of_le hge
      rw [hnil] at hlaid ⊢
      obtain ⟨last, hread, hends⟩ := readNext_nil grammar
        (h.session.config.policy grammar.letters) hlaid
      refine ⟨front, options, operands, last, hfront, hlaid, hread, Or.inl ?_⟩
      refine .ends [] [] [] rfl ?_
      simpa using hends
  | some offset =>
    obtain ⟨_, hlt⟩ := offset_of_startOffset hoffset
    obtain ⟨element, rest, hahead⟩ : ∃ element rest, h.args.drop h.start.cursor = element :: rest :=
      List.exists_cons_of_ne_nil (by simpa using hlt)
    rw [hahead] at hlaid ⊢
    obtain ⟨r, hread, hleaves⟩ := resume_leaves grammar
      (h.session.config.policy grammar.letters) hlaid hshut
    refine ⟨front, options, operands, r, hfront, hlaid, hread, ?_⟩
    rcases hleaves with hleaves | hleaves
    · exact Or.inl hleaves
    · exact Or.inr ⟨element, rest, rfl, hleaves⟩

theorem startOffset_of_past (hpast : h.args.length ≤ h.start.cursor) : h.startOffset = none := by
  have hle : h.args.length ≤ max 1 h.session.cursor := hpast
  simp [startOffset, hle]

/-- At the end of the vector a call only has the operands that wait to move. -/
theorem reading_of_past (hpast : h.args.length ≤ h.start.cursor) (grammar : Grammar) :
    h.reading grammar = h.start.settle >>= fun w => .ok ⟨w, none, .ended⟩ := by
  have hnil : h.args.drop h.start.cursor = [] := List.drop_eq_nil_of_le hpast
  rw [reading_eq, startOffset_of_past hpast]
  show (Walk.seek _ (h.args.drop h.start.cursor) h.start >>= _) = _
  rw [hnil, Walk.seek]
  cases h.start.settle <;> rfl

/-- Past the end of the vector there is nothing to read; and a block that waits there cannot be
moved. -/
theorem reading_past (hsound : h.session.Sound) (hpast : h.args.length < h.start.cursor)
    (grammar : Grammar) :
    (h.start.block = .absent ∧ h.reading grammar = .ok ⟨h.start, none, .ended⟩) ∨
      ∃ first stop, h.Stranded first stop ∧
        h.reading grammar = .error (.badBounds first stop h.session.cursor h.args.length) := by
  rw [reading_of_past (Nat.le_of_lt hpast)]
  cases hblock : h.start.block with
  | absent =>
    refine Or.inl ⟨rfl, ?_⟩
    simp only [Walk.settle, hblock]
    rfl
  | opened first => exact absurd hblock (start_shut hsound first)
  | closed first stop =>
    obtain ⟨hreset, hclosed⟩ := block_of_start hblock (by simp)
    have hkept := hsound.block
    rw [hclosed] at hkept
    cases hkept with
    | closed hfirst hsize hstop _ =>
      have hcursor : h.start.cursor = h.session.cursor := Nat.max_eq_right (by omega)
      refine Or.inr ⟨first, stop, ⟨hreset, hclosed, hcursor ▸ hpast⟩, ?_⟩
      have hbounds : ¬ (first ≤ stop ∧ stop ≤ h.start.cursor ∧
          h.start.cursor ≤ h.start.args.length) := by
        rintro ⟨_, _, hle⟩
        exact absurd hpast (Nat.not_lt.mpr hle)
      simp only [Walk.settle, hblock, Walk.moveBlock, exchange, if_neg hbounds, ← hcursor]
      rfl

/-- A reading of a sound session is sound, and fails only where a block waits that lies in another
vector. -/
theorem reading_sound (hsound : h.session.Sound) (grammar : Grammar) :
    (∃ r, h.reading grammar = .ok r ∧ r.Sound ∧ ∀ first stop, ¬ h.Stranded first stop) ∨
      ∃ first stop, h.Stranded first stop ∧
        h.reading grammar = .error (.badBounds first stop h.session.cursor h.args.length) := by
  rcases Nat.lt_or_ge h.args.length h.start.cursor with hpast | hwithin
  · rcases reading_past hsound hpast grammar with ⟨habsent, hread⟩ | hstranded
    · refine Or.inl ⟨_, hread, ⟨habsent ▸ .absent, ?_, Or.inl habsent⟩, ?_⟩
      · intro position hposition
        cases hposition
      · rintro first stop ⟨hreset, hclosed, _⟩
        simp [start, hreset, hclosed] at habsent
    · exact Or.inr hstranded
  · obtain ⟨front, options, operands, r, hfront, _, hread, hleaves⟩ :=
      reading_leaves hsound hwithin grammar
    refine Or.inl ⟨r, hread, ?_, ?_⟩
    · rcases hleaves with hleaves | ⟨element, rest, _, hleaves⟩
      · refine hleaves.sound hfront ?_
        cases hoffset : h.startOffset with
        | none => exact Nat.le_refl 1
        | some offset =>
          obtain ⟨hkept, _⟩ := offset_of_startOffset hoffset
          exact Nat.le_of_succ_le (hsound.offset offset hkept)
      · exact hleaves.sound hfront (Nat.le_refl 1)
    · rintro first stop ⟨_, _, hpast⟩
      have hle : h.session.cursor ≤ h.start.cursor := Nat.le_max_right ..
      omega

theorem exists_reading_of_call {reply : Reply} (hcall : h.call grammar = .ok reply) :
    ∃ r, h.reading grammar = .ok r ∧ reply = h.reply grammar r := by
  cases hreading : h.reading grammar with
  | error fault =>
    rw [call_of_error hreading] at hcall
    cases hcall
  | ok r =>
    rw [call_of_reading hreading] at hcall
    exact ⟨r, rfl, (Except.ok.inj hcall).symm⟩

/-- A call fails only where a block waits that lies in another vector. -/
theorem call_error_iff (hsound : h.session.Sound) (grammar : Grammar) (fault : Fault) :
    h.call grammar = .error fault ↔ ∃ first stop, h.Stranded first stop ∧
      fault = .badBounds first stop h.session.cursor h.args.length := by
  rcases reading_sound hsound grammar with
    ⟨r, hreading, _, hnot⟩ | ⟨first, stop, hstranded, hreading⟩
  · rw [call_of_reading hreading]
    constructor
    · intro herror
      cases herror
    · rintro ⟨first, stop, hstranded, _⟩
      exact absurd hstranded (hnot first stop)
  · rw [call_of_error hreading]
    constructor
    · intro herror
      exact ⟨first, stop, hstranded, (Except.error.inj herror).symm⟩
    · rintro ⟨first', stop', hstranded', rfl⟩
      obtain ⟨rfl, rfl⟩ := Block.closed.inj (hstranded.2.1.symm.trans hstranded'.2.1)
      rfl

structure Answered (h : Host) : Prop where
  sound : h.session.Sound
  halfRead : h.HalfRead
  not_stranded : ∀ first stop, ¬ h.Stranded first stop

theorem reply_answered {r : Reading} (h : Host) (grammar : Grammar) (hr : r.Sound) :
    (h.reply grammar r).host.Answered := by
  have hoffset := reply_offset h grammar r
  have hcursor := reply_cursor h grammar r
  have hblock := reply_block h grammar r
  have hargs := reply_args h grammar r
  refine ⟨⟨?_, ?_⟩, ?_, ?_⟩
  · rw [hoffset, hcursor, hblock]
    exact hr.block
  · intro position hposition
    exact (hr.offset position (hoffset ▸ hposition)).1
  · intro position hposition
    rw [hargs, hcursor]
    exact hr.offset position (hoffset ▸ hposition)
  · rintro first stop ⟨_, hclosed, hpast⟩
    rw [hblock] at hclosed
    rw [hargs, hcursor] at hpast
    rcases hr.within with habsent | hle
    · rw [habsent] at hclosed
      cases hclosed
    · omega

theorem call_answered {reply : Reply} (hsound : h.session.Sound)
    (hcall : h.call grammar = .ok reply) : reply.host.Answered := by
  obtain ⟨r, hreading, rfl⟩ := exists_reading_of_call hcall
  rcases reading_sound hsound grammar with ⟨r', hread, hr, _⟩ | ⟨_, _, _, herror⟩
  · obtain rfl : r = r' := Except.ok.inj (hreading.symm.trans hread)
    exact reply_answered h grammar hr
  · rw [herror] at hreading
    cases hreading

/-- Every reply of a scan answers a call of a host with the same settings and the same reporter, and
one that is sound if the first host is. -/
theorem exists_call_of_collect {limit : Nat} {replies : List Reply}
    (hcollect : h.collect grammar limit = .ok replies) :
    ∀ reply ∈ replies, ∃ before : Host, before.call grammar = .ok reply ∧
      before.session.config = h.session.config ∧ before.session.reporter = h.session.reporter ∧
      (h.session.Sound → before.session.Sound) := by
  induction limit generalizing h replies with
  | zero =>
    cases hcollect
    intro reply hreply
    cases hreply
  | succ limit ih =>
    cases collects_of_collect hcollect with
    | ended first hcall _ =>
      intro reply hreply
      rw [List.mem_singleton.mp hreply]
      exact ⟨h, hcall, rfl, rfl, id⟩
    | found first more hcall _ hmore =>
      obtain ⟨r, _, hfirst⟩ := exists_reading_of_call hcall
      refine List.forall_mem_cons.mpr ⟨⟨h, hcall, rfl, rfl, id⟩, ?_⟩
      intro reply hreply
      obtain ⟨before, hbefore, hconfig, hreporter, hsound⟩ := ih hmore reply hreply
      refine ⟨before, hbefore, hconfig.trans ?_, hreporter.trans ?_, ?_⟩
      · rw [hfirst, reply_config]
      · rw [hfirst, reply_reporter]
      · exact fun h => hsound (call_answered h hcall).sound

theorem collect_answered {limit : Nat} {replies : List Reply} (hsound : h.session.Sound)
    (hcollect : h.collect grammar limit = .ok replies) :
    ∀ reply ∈ replies, reply.host.Answered := by
  intro reply hreply
  obtain ⟨before, hcall, _, _, hbefore⟩ := exists_call_of_collect hcollect reply hreply
  exact call_answered (hbefore hsound) hcall

/-- One call of a sound session that is answered can be followed by others. -/
theorem collect_error_iff (hsound : h.session.Sound) (grammar : Grammar) (limit : Nat)
    (fault : Fault) :
    h.collect grammar limit = .error fault ↔ 0 < limit ∧ ∃ first stop, h.Stranded first stop ∧
      fault = .badBounds first stop h.session.cursor h.args.length := by
  induction limit generalizing h with
  | zero =>
    constructor
    · intro herror
      cases herror
    · rintro ⟨hpos, _⟩
      exact absurd hpos (Nat.lt_irrefl 0)
  | succ limit ih =>
    rw [← call_error_iff hsound grammar fault]
    simp only [Nat.zero_lt_succ, true_and]
    cases hcall : h.call grammar with
    | error other => simp only [collect, hcall, bind, Except.bind, Except.error.injEq]
    | ok reply =>
      have hanswered := call_answered hsound hcall
      -- The calls that follow find the vector that this one was answered for.
      have hmore : reply.host.collect grammar limit ≠ .error fault := by
        intro herror
        obtain ⟨_, first, stop, hstranded, _⟩ := (ih hanswered.sound).mp herror
        exact hanswered.not_stranded first stop hstranded
      constructor
      · intro herror
        cases hcode : reply.code with
        | none =>
          simp only [collect, hcall, bind, Except.bind, hcode] at herror
          cases herror
        | some code =>
          cases hrest : reply.host.collect grammar limit with
          | error other =>
            simp only [collect, hcall, bind, Except.bind, hcode, hrest] at herror
            exact absurd (hrest.trans herror) hmore
          | ok more =>
            simp only [collect, hcall, bind, Except.bind, hcode, hrest] at herror
            cases herror
      · intro herror
        cases herror

def run (h : Host) : List Operation → Except Fault (List Reply × Host)
  | [] => .ok ([], h)
  | operation :: history => do
    let (replies, next) ← h.perform operation
    let (more, last) ← next.run history
    .ok (replies ++ more, last)

def Reachable (h : Host) : Prop :=
  ∃ config reporter args cells history replies,
    Host.run { session := { config, reporter }, args, cells } history = .ok (replies, h)

end Host

theorem Session.Sound.new (config : Config) (reporter : Reporter) :
    Session.Sound { config, reporter } := by
  refine ⟨.absent, ?_⟩
  intro position hposition
  cases hposition

theorem Session.Sound.setCursor (s : Session) (cursor : Nat) : (s.setCursor cursor).Sound := by
  refine ⟨.absent, ?_⟩
  intro position hposition
  cases hposition

namespace Host

variable {h : Host}

theorem perform_sound {operation : Operation} {replies : List Reply} {next : Host}
    (hsound : h.session.Sound) (hperform : h.perform operation = .ok (replies, next)) :
    next.session.Sound ∧ ∀ reply ∈ replies, reply.host.Answered := by
  cases operation with
  | call grammar =>
    obtain ⟨reply, hcall, hreplies⟩ := exists_of_bind_ok hperform
    cases hreplies
    have hanswered := call_answered hsound hcall
    refine ⟨hanswered.sound, ?_⟩
    intro other hother
    rw [List.mem_singleton.mp hother]
    exact hanswered
  | collect grammar limit =>
    obtain ⟨all, hcollect, hreplies⟩ := exists_of_bind_ok hperform
    cases hreplies
    have hanswered := collect_answered hsound hcollect
    refine ⟨?_, hanswered⟩
    unfold after
    cases hlast : replies.getLast? with
    | none => exact hsound
    | some last => exact (hanswered last (List.mem_of_getLast? hlast)).sound
  | setCursor cursor =>
    cases hperform
    exact ⟨.setCursor h.session cursor, by simp⟩
  | requestReset =>
    cases hperform
    exact ⟨⟨hsound.block, hsound.offset⟩, by simp⟩
  | setArgs args =>
    cases hperform
    exact ⟨hsound, by simp⟩
  | setReportErrors on =>
    cases hperform
    exact ⟨⟨hsound.block, hsound.offset⟩, by simp⟩
  | setReporter reporter =>
    cases hperform
    exact ⟨⟨hsound.block, hsound.offset⟩, by simp⟩

theorem run_sound {history : List Operation} {replies : List Reply} {last : Host}
    (hsound : h.session.Sound) (hrun : h.run history = .ok (replies, last)) :
    last.session.Sound ∧ ∀ reply ∈ replies, reply.host.Answered := by
  induction history generalizing h replies with
  | nil =>
    cases hrun
    exact ⟨hsound, by simp⟩
  | cons operation history ih =>
    obtain ⟨⟨first, next⟩, hperform, hrest⟩ := exists_of_bind_ok hrun
    obtain ⟨⟨more, last'⟩, hmore, hreplies⟩ := exists_of_bind_ok hrest
    cases hreplies
    obtain ⟨hnext, hfirst⟩ := perform_sound hsound hperform
    obtain ⟨hlast, hlater⟩ := ih hnext hmore
    refine ⟨hlast, ?_⟩
    intro reply hreply
    rcases List.mem_append.mp hreply with hreply | hreply
    · exact hfirst reply hreply
    · exact hlater reply hreply

theorem Reachable.sound (hreach : h.Reachable) : h.session.Sound := by
  obtain ⟨config, reporter, args, cells, history, replies, hrun⟩ := hreach
  exact (run_sound (.new config reporter) hrun).1

/-- After every history of operations that does not break off, no block waits that is open, empty
or ahead of the element to be looked at next; and after every call of it, a byte position that is
kept stands before a letter of the element under the cursor, of the vector that was just read. -/
theorem sound_after_history (config : Config) (reporter : Reporter) (args : List String)
    (cells : List Int) {history : List Operation} {replies : List Reply}
    (hrun : Host.run { session := { config, reporter }, args, cells } history =
      .ok (replies, h)) :
    h.session.Sound ∧ ∀ reply ∈ replies, reply.host.session.Sound ∧ reply.host.HalfRead := by
  obtain ⟨hsound, hanswered⟩ := run_sound (.new config reporter) hrun
  refine ⟨hsound, ?_⟩
  intro reply hreply
  exact ⟨(hanswered reply hreply).sound, (hanswered reply hreply).halfRead⟩

/-- An element is left behind its second letter, of two bytes, while a block waits; the vector that
replaces this one has another letter at that place. -/
theorem sound_after_replaced_vector :
    ∃ replies h,
      Host.run { args := ["prog", "in", "-aéb"] }
        [.call ⟨⟨"aéb"⟩, []⟩, .call ⟨⟨"aéb"⟩, []⟩, .setArgs ["prog", "-", "xyézz", "-a"],
          .call ⟨⟨"+z"⟩, []⟩] = .ok (replies, h) ∧
      (h.session.block = .closed 1 2 ∧ h.session.cursor = 2 ∧ h.session.offset = some 5) ∧
      h.session.Sound ∧ ∀ reply ∈ replies, reply.host.session.Sound ∧ reply.host.HalfRead := by
  obtain ⟨replies, h, hrun, hstate⟩ : ∃ replies h,
      Host.run { args := ["prog", "in", "-aéb"] }
        [.call ⟨⟨"aéb"⟩, []⟩, .call ⟨⟨"aéb"⟩, []⟩, .setArgs ["prog", "-", "xyézz", "-a"],
          .call ⟨⟨"+z"⟩, []⟩] = .ok (replies, h) ∧
      h.session.block = .closed 1 2 ∧ h.session.cursor = 2 ∧ h.session.offset = some 5 :=
    ⟨_, _, rfl, rfl, rfl, rfl⟩
  exact ⟨replies, h, hrun, hstate, sound_after_history {} (Reporter.lines Reporter.defaultLabel)
    ["prog", "in", "-aéb"] [] hrun⟩

end Host

end OptionScan
