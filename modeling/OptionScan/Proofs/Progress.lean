import Mathlib.Data.Prod.Lex
import OptionScan.Proofs.Drain
import OptionScan.Proofs.Retries

/-!
Every call that finds an option gets on: it moves the cursor on, or, inside a half-read element, the
byte position. So what is left to be read becomes less from call to call, whatever grammar each of
them is given, and a scan of a vector comes to its end after as many options at most as the unread
elements have bytes and elements together.
-/

namespace OptionScan

theorem volume_append (first second : List String) :
    volume (first ++ second) = volume first + volume second := by
  induction first with
  | nil => simp [volume]
  | cons element rest ih =>
    simp only [List.cons_append, volume, ih]
    omega

/-- A reading of a vector of the given size, of which `ahead` was unread. It has used up some of
those elements, or else, in the first of them, the letters up to a position beyond `least`. -/
structure Reading.Advances (size : Nat) (ahead : List String) (least : Nat) (r : Reading) :
    Prop where
  length_eq : r.walk.args.length = size
  cursor_le : r.walk.cursor ≤ r.walk.args.length
  used : ∃ used, ahead = used ++ r.walk.args.drop r.walk.cursor ∧
    (used = [] → ∃ position, r.offset = some position ∧ least < position)

theorem Reading.Leaves.advances {front options operands ahead : List String} {w : Walk}
    {least : Nat} {r : Reading} (hlaid : Laid front options operands ahead w)
    (h : r.Leaves front options operands ahead least) (hfound : r.outcome ≠ .ended) :
    r.Advances w.args.length ahead least := by
  have hlength := hlaid.length_args_eq
  cases h with
  | past passed taken rest hahead htaken _ hoffset hleft hshut hbehind =>
    refine ⟨?_, hleft.cursor_le, passed ++ taken, ?_, ?_⟩
    · rw [hlength, hleft.length_args_eq, hahead]
      simp only [List.length_append]
      omega
    · rw [hleft.drop_cursor, hahead]
    · intro hnone
      exact absurd (List.append_eq_nil_iff.mp hnone).2 htaken
  | inside passed rest element before letter after hahead _ hoffset helement hleast hleft hshut =>
    refine ⟨?_, hleft.cursor_le, passed, ?_, ?_⟩
    · rw [hlength, hleft.length_args_eq, hahead]
      simp only [List.length_append]
      omega
    · rw [hleft.drop_cursor, hahead]
    · intro _
      exact ⟨byteWidth before, hoffset, hleast⟩
  | ends passed taken rest hahead hends => exact absurd hends.outcome_eq hfound
  | stops passed rest hahead hrest hended hoffset hleft hshut hbehind =>
    exact absurd hended hfound

namespace Host

variable {h : Host} {grammar : Grammar} {reply : Reply}

/-- A call that finds something finds it ahead of the cursor. -/
theorem reading_advances {r : Reading} (hsound : h.session.Sound)
    (hreading : h.reading grammar = .ok r) (hfound : r.outcome ≠ .ended) :
    h.start.cursor < h.args.length ∧
      r.Advances h.args.length (h.args.drop h.start.cursor) (h.startOffset.getD 1) := by
  have hwithin : h.start.cursor < h.args.length := by
    rcases Nat.lt_or_ge h.start.cursor h.args.length with hlt | hpast
    · exact hlt
    · rw [reading_of_past hpast] at hreading
      obtain ⟨w, _, hended⟩ := exists_of_bind_ok hreading
      cases hended
      exact absurd rfl hfound
  refine ⟨hwithin, ?_⟩
  obtain ⟨front, options, operands, r', _, hlaid, hread, hleaves⟩ :=
    reading_leaves hsound (Nat.le_of_lt hwithin) grammar
  obtain rfl : r = r' := Except.ok.inj (hreading.symm.trans hread)
  rcases hleaves with hleaves | ⟨element, rest, hahead, hleaves⟩
  · exact hleaves.advances hlaid hfound
  · rw [hahead] at hlaid ⊢
    obtain ⟨hlength, hcursor, used, hused, _⟩ :=
      hleaves.advances (hlaid.advance (start_shut hsound)) hfound
    refine ⟨hlength, hcursor, element :: used, ?_, ?_⟩
    · rw [hused]
      rfl
    · intro hnone
      cases hnone

theorem call_advances (hsound : h.session.Sound) (hcall : h.call grammar = .ok reply)
    (hcode : reply.code ≠ none) :
    h.start.cursor < h.args.length ∧ ∃ r, reply = h.reply grammar r ∧
      r.Advances h.args.length (h.args.drop h.start.cursor) (h.startOffset.getD 1) := by
  obtain ⟨r, hreading, rfl⟩ := exists_reading_of_call hcall
  have hfound : r.outcome ≠ .ended := fun hended => hcode ((code_reply h grammar r).mpr hended)
  obtain ⟨hwithin, hadvances⟩ := reading_advances hsound hreading hfound
  exact ⟨hwithin, r, rfl, hadvances⟩

end Host

theorem Reading.Advances.cursor {args : List String} {cursor least : Nat} {r : Reading}
    (hcursor : cursor ≤ args.length) (h : r.Advances args.length (args.drop cursor) least) :
    cursor < r.walk.cursor ∨
      r.walk.cursor = cursor ∧ ∃ position, r.offset = some position ∧ least < position := by
  obtain ⟨hlength, hle, used, hused, hinside⟩ := h
  have hparts := congrArg List.length hused
  simp only [List.length_drop, List.length_append] at hparts
  cases used with
  | nil =>
    simp only [List.length_nil] at hparts
    exact Or.inr ⟨by omega, hinside rfl⟩
  | cons element rest =>
    simp only [List.length_cons] at hparts
    exact Or.inl (by omega)

/-- Where the next call goes on: an element, and a byte position in it if it is half read. A
requested reset gives the position up. -/
def Session.position (s : Session) : Nat ×ₗ Nat :=
  toLex (max 1 s.cursor, if s.resetRequested then 0 else s.offset.getD 0)

namespace Host

variable {h : Host} {grammar : Grammar} {reply : Reply}

theorem position_lt (hsound : h.session.Sound) (hcall : h.call grammar = .ok reply)
    (hcode : reply.code ≠ none) :
    h.session.position < reply.host.session.position ∧
      reply.host.session.cursor ≤ reply.host.args.length := by
  obtain ⟨hwithin, r, rfl, hadvances⟩ := call_advances hsound hcall hcode
  have hone : 1 ≤ h.start.cursor := Nat.le_max_left ..
  refine ⟨?_, ?_⟩
  · unfold Session.position
    rw [Prod.Lex.toLex_lt_toLex, reply_cursor, reply_offset, reply_resetRequested]
    rcases hadvances.cursor (Nat.le_of_lt hwithin) with hlt | ⟨hsame, position, hoffset, hleast⟩
    · exact Or.inl (Nat.lt_of_lt_of_le hlt (Nat.le_max_right ..))
    · refine Or.inr ⟨?_, ?_⟩
      · rw [hsame]
        exact (Nat.max_eq_right hone).symm
      · rw [startOffset_eq hwithin] at hleast
        simp only [hoffset, Option.getD_some, Bool.false_eq_true, if_false]
        cases hreset : h.session.resetRequested with
        | true =>
          simp only [if_true]
          omega
        | false =>
          simp only [hreset, Bool.false_eq_true, if_false] at hleast ⊢
          cases hkept : h.session.offset with
          | none => exact Nat.lt_of_le_of_lt (Nat.zero_le _) hleast
          | some before => simpa [hkept] using hleast
  · rw [reply_cursor, reply_args]
    exact hadvances.cursor_le

/-- What there is to read, less the letters that were read of the element under the cursor. -/
def remaining (h : Host) : Nat :=
  volume (h.args.drop h.start.cursor) - h.startOffset.getD 0

/-- A call that finds something leaves less to read, also if some letters of the first element
count as read before. -/
theorem remaining_reply_lt (hsound : h.session.Sound) (hcall : h.call grammar = .ok reply)
    (hcode : reply.code ≠ none) (spent : Nat) (hspent : spent ≤ h.startOffset.getD 1)
    (hroom : ∀ element rest, h.args.drop h.start.cursor = element :: rest →
      spent ≤ byteWidth element.toList) :
    reply.host.remaining + spent < volume (h.args.drop h.start.cursor) := by
  obtain ⟨hwithin, r, rfl, hadvances⟩ := call_advances hsound hcall hcode
  have hone : 1 ≤ h.start.cursor := Nat.le_max_left ..
  have hstart : (h.reply grammar r).host.start.cursor = r.walk.cursor := by
    show max 1 (h.reply grammar r).host.session.cursor = _
    rw [reply_cursor]
    rcases hadvances.cursor (Nat.le_of_lt hwithin) with hlt | ⟨hsame, _⟩
    · omega
    · omega
  obtain ⟨element, rest, hahead⟩ : ∃ element rest, h.args.drop h.start.cursor = element :: rest :=
    List.exists_cons_of_ne_nil (by simpa using hwithin)
  have hfirst := hroom element rest hahead
  obtain ⟨hlength, hle, used, hused, hinside⟩ := hadvances
  have hvolume := congrArg volume hused
  rw [volume_append] at hvolume
  unfold remaining
  rw [hstart, reply_args]
  cases used with
  | nil =>
    obtain ⟨position, hoffset, hleast⟩ := hinside rfl
    have hsame : (h.reply grammar r).host.startOffset = some position := by
      have hunread : (h.reply grammar r).host.start.cursor <
          (h.reply grammar r).host.args.length := by
        have hparts := congrArg List.length hused
        simp only [List.length_drop, List.nil_append] at hparts
        rw [hstart, reply_args]
        omega
      rw [startOffset_eq hunread, reply_resetRequested, reply_offset, hoffset]
      rfl
    rw [hsame, Option.getD_some]
    rw [hahead, volume] at hvolume ⊢
    simp only [volume] at hvolume
    omega
  | cons head more =>
    obtain rfl : head = element := by
      rw [hahead] at hused
      exact (List.cons.inj hused).1.symm
    rw [volume] at hvolume
    omega

/-- The elements from the cursor on are enough for all the calls that can find something. -/
theorem remaining_reply_lt_volume (hsound : h.session.Sound) (hcall : h.call grammar = .ok reply)
    (hcode : reply.code ≠ none) :
    reply.host.remaining < volume (h.args.drop h.start.cursor) :=
  remaining_reply_lt hsound hcall hcode 0 (Nat.zero_le _) (fun _ _ _ => Nat.zero_le _)

theorem remaining_reply_lt_remaining (hanswered : h.Answered) (hcursor : 1 ≤ h.session.cursor)
    (hcall : h.call grammar = .ok reply) (hcode : reply.code ≠ none) :
    reply.host.remaining < h.remaining := by
  have hless := remaining_reply_lt hanswered.sound hcall hcode (h.startOffset.getD 0)
  have hspent : h.startOffset.getD 0 ≤ h.startOffset.getD 1 := by
    cases h.startOffset with
    | none => exact Nat.zero_le 1
    | some offset => exact Nat.le_refl offset
  have hroom : ∀ element rest, h.args.drop h.start.cursor = element :: rest →
      h.startOffset.getD 0 ≤ byteWidth element.toList := by
    intro element rest hahead
    cases hoffset : h.startOffset with
    | none => exact Nat.zero_le _
    | some offset =>
      obtain ⟨hkept, _⟩ := offset_of_startOffset hoffset
      obtain ⟨_, half, before, letter, after, hget, hhalf, hwidth⟩ :=
        hanswered.halfRead offset hkept
      have hsame : h.start.cursor = h.session.cursor := Nat.max_eq_right hcursor
      obtain rfl : half = element := by
        have hhead := congrArg (·[0]?) hahead
        simpa [hsame, hget] using hhead
      rw [hhalf, byteWidth_append, hwidth]
      exact Nat.le_add_right ..
  have := hless hspent hroom
  unfold remaining at this ⊢
  omega

def callEach (h : Host) : (grammars : List Grammar) → Except Fault (List Reply)
  | [] => .ok []
  | grammar :: more => do
    let reply ← h.call grammar
    match reply.code with
    | none => .ok [reply]
    | some _ => do
      let rest ← reply.host.callEach more
      .ok (reply :: rest)

theorem exists_call (hsound : h.session.Sound) (hnot : ∀ first stop, ¬ h.Stranded first stop)
    (grammar : Grammar) : ∃ reply, h.call grammar = .ok reply := by
  cases hcall : h.call grammar with
  | ok reply => exact ⟨reply, rfl⟩
  | error fault =>
    obtain ⟨first, stop, hstranded, _⟩ := (call_error_iff hsound grammar fault).mp hcall
    exact absurd hstranded (hnot first stop)

theorem one_le_cursor_reply (hsound : h.session.Sound) (hcall : h.call grammar = .ok reply)
    (hcode : reply.code ≠ none) : 1 ≤ reply.host.session.cursor := by
  obtain ⟨hwithin, r, rfl, hadvances⟩ := call_advances hsound hcall hcode
  have hone : 1 ≤ h.start.cursor := Nat.le_max_left ..
  rw [reply_cursor]
  rcases hadvances.cursor (Nat.le_of_lt hwithin) with hlt | ⟨hsame, _⟩ <;> omega

/-- The calls come to an end if there are more of them than the first one that finds something
leaves to read. -/
theorem callEach_ends {budget : Nat} {grammars : List Grammar} (hsound : h.session.Sound)
    (hnot : ∀ first stop, ¬ h.Stranded first stop)
    (hless : ∀ grammar reply, h.call grammar = .ok reply → reply.code ≠ none →
      reply.host.remaining < budget) (hmany : budget < grammars.length) :
    ∃ options ended, h.callEach grammars = .ok (options ++ [ended]) ∧
      (∀ reply ∈ options, reply.code ≠ none) ∧ ended.code = none ∧ options.length ≤ budget := by
  induction grammars generalizing h budget with
  | nil => exact absurd hmany (Nat.not_lt_zero _)
  | cons grammar more ih =>
    obtain ⟨reply, hcall⟩ := exists_call hsound hnot grammar
    cases hcode : reply.code with
    | none =>
      refine ⟨[], reply, ?_, by simp, hcode, Nat.zero_le _⟩
      simp only [callEach, hcall, bind, Except.bind, hcode, List.nil_append]
    | some code =>
      have hfound : reply.code ≠ none := by simp [hcode]
      have hanswered := call_answered hsound hcall
      have hcursor := one_le_cursor_reply hsound hcall hfound
      have hspent := hless grammar reply hcall hfound
      rw [List.length_cons] at hmany
      -- What is left to read is the budget of the calls that follow.
      obtain ⟨options, ended, hmore, hoptions, hended, hbound⟩ := ih hanswered.sound
        hanswered.not_stranded
        (fun _ _ => remaining_reply_lt_remaining hanswered hcursor) (by omega)
      refine ⟨reply :: options, ended, ?_, List.forall_mem_cons.mpr ⟨hfound, hoptions⟩, hended, ?_⟩
      · simp only [callEach, hcall, bind, Except.bind, hcode, hmore, List.cons_append]
      · rw [List.length_cons]
        omega

/-- From every state a history leads to, a call that finds something gets on and stays within the
vector, whatever grammar it is given, and starts over at most once. If the calls can be made at
all, no more of them find something than the unread elements have bytes and elements together. -/
theorem progress (hreach : h.Reachable) :
    (∀ grammar reply, h.call grammar = .ok reply → reply.code ≠ none →
      h.session.position < reply.host.session.position ∧
        reply.host.session.cursor ≤ reply.host.args.length) ∧
    (∀ grammar retries, h.scan grammar (retries + 1) = (h.reading grammar).map some) ∧
    ((∀ first stop, ¬ h.Stranded first stop) →
      ∀ grammars : List Grammar, volume (h.args.drop (max 1 h.session.cursor)) < grammars.length →
        ∃ options ended, h.callEach grammars = .ok (options ++ [ended]) ∧
          (∀ reply ∈ options, reply.code ≠ none) ∧ ended.code = none ∧
          options.length ≤ volume (h.args.drop (max 1 h.session.cursor))) := by
  have hsound := hreach.sound
  refine ⟨?_, scan_succ hsound, ?_⟩
  · intro grammar reply
    exact position_lt hsound
  · intro hnot grammars hmany
    exact callEach_ends hsound hnot (fun _ _ => remaining_reply_lt_volume hsound) hmany

/-- An element is left behind its second letter while an operand waits. In the vector that replaces
this one the place falls inside a letter, so the call starts over. -/
theorem progress_replaced_vector :
    ∃ replies h reply,
      Host.run { args := ["prog", "in", "-abc"] }
        [.call ⟨⟨"abc"⟩, []⟩, .call ⟨⟨"abc"⟩, []⟩, .setArgs ["prog", "-", "xyé", "-q"]] =
          .ok (replies, h) ∧
      h.call ⟨⟨"é:"⟩, []⟩ = .ok reply ∧ reply.code = some .unknown ∧
      h.session.position < reply.host.session.position ∧
      reply.host.session.cursor ≤ reply.host.args.length ∧
      h.scan ⟨⟨"é:"⟩, []⟩ 1 = (h.reading ⟨⟨"é:"⟩, []⟩).map some ∧
      ∃ options ended, h.callEach (List.replicate 9 ⟨⟨"q"⟩, []⟩) = .ok (options ++ [ended]) ∧
        ended.code = none ∧ options.length ≤ 8 := by
  obtain ⟨replies, h, reply, hrun, hcall, hcode, hcursor, hlength, hvolume⟩ :
      ∃ replies h reply,
        Host.run { args := ["prog", "in", "-abc"] }
          [.call ⟨⟨"abc"⟩, []⟩, .call ⟨⟨"abc"⟩, []⟩, .setArgs ["prog", "-", "xyé", "-q"]] =
            .ok (replies, h) ∧
        h.call ⟨⟨"é:"⟩, []⟩ = .ok reply ∧ reply.code = some .unknown ∧
        h.session.cursor = 2 ∧ h.args.length = 4 ∧
        volume (h.args.drop (max 1 h.session.cursor)) = 8 :=
    ⟨_, _, _, rfl, rfl, rfl, rfl, rfl, rfl⟩
  have hreach : h.Reachable := ⟨_, _, _, _, _, replies, hrun⟩
  obtain ⟨hadvances, honce, hends⟩ := progress hreach
  have hnot : ∀ first stop, ¬ h.Stranded first stop := by
    rintro first stop ⟨_, _, hpast⟩
    omega
  obtain ⟨options, ended, hall, _, hended, hbound⟩ :=
    hends hnot (List.replicate 9 ⟨⟨"q"⟩, []⟩) (by simp [hvolume])
  obtain ⟨hposition, hwithin⟩ := hadvances ⟨⟨"é:"⟩, []⟩ reply hcall (by simp [hcode])
  exact ⟨replies, h, reply, hrun, hcall, hcode, hposition, hwithin, honce ⟨⟨"é:"⟩, []⟩ 0,
    options, ended, hall, hended, hvolume ▸ hbound⟩

/-- A reset that is asked for inside an element lets the next call read a letter again, so the byte
position goes back; and where an operand waits that lies in another, longer vector there is nothing
to read, but the call does not answer so. -/
theorem position_back_after_reset :
    (∃ replies h reply,
      Host.run { args := ["prog", "-abc"] }
        [.call ⟨⟨"abc"⟩, []⟩, .call ⟨⟨"abc"⟩, []⟩, .requestReset] = .ok (replies, h) ∧
      h.call ⟨⟨"abc"⟩, []⟩ = .ok reply ∧ reply.code = some (.ofChar 'a') ∧
      ¬ toLex (max 1 h.session.cursor, h.session.offset.getD 0) <
        toLex (max 1 reply.host.session.cursor, reply.host.session.offset.getD 0)) ∧
    ∃ replies h,
      Host.run { args := ["prog", "in", "-a"] } [.call ⟨⟨"a"⟩, []⟩, .setArgs ["prog"]] =
        .ok (replies, h) ∧
      volume (h.args.drop (max 1 h.session.cursor)) = 0 ∧
      h.call ⟨⟨"a"⟩, []⟩ = .error (.badBounds 1 2 3 1) := by
  refine ⟨?_, _, _, rfl, rfl, rfl⟩
  refine ⟨_, _, _, rfl, rfl, rfl, ?_⟩
  rw [Prod.Lex.toLex_lt_toLex]
  decide

end Host

end OptionScan
