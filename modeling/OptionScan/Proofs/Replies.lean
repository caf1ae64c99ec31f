import OptionScan.Proofs.Quiet

/-!
From readings to replies. A chain of readings determines the replies that the calls of a scan give:
the item, the flag cells and the diagnostics of a reply depend on the finding of its reading alone,
and the host after the last reply has the vector and the cursor of the last reading.
-/

namespace OptionScan

/-- The cursor is at an element to be looked at afresh: no element is half read and no block of
operands waits. A new session starts so, and so does one whose cursor was set. -/
structure Session.StartsAt (s : Session) (k : Nat) : Prop where
  cursor_eq : s.cursor = k
  offset_eq : s.offset = none
  block_eq : s.block = .absent

theorem Session.startsAt_setCursor (s : Session) (k : Nat) : (s.setCursor k).StartsAt k :=
  ⟨rfl, rfl, rfl⟩

theorem Session.startsAt_new (config : Config) (reporter : Reporter) :
    Session.StartsAt { config, reporter } 1 :=
  ⟨rfl, rfl, rfl⟩

theorem Reply.exists_item {reply : Reply} (hcode : reply.code ≠ none) :
    ∃ item, reply.item? = some item := by
  obtain ⟨code, hsome⟩ := Option.ne_none_iff_exists'.mp hcode
  exact ⟨_, congrArg (Option.map _) hsome⟩

theorem Reply.code_of_item? {reply : Reply} {item : Item} (hitem : reply.item? = some item) :
    reply.code = some item.code := by
  obtain ⟨code, hcode, rfl⟩ := Option.map_eq_some_iff.mp hitem
  exact hcode

namespace Finding

def diagnostics (config : Config) (reporter : Reporter) (letters : OptionString) :
    Finding → String
  | failed error _ =>
    if config.reportErrors && !letters.silent then Output.diagnostics (reporter error) else ""
  | found _ _ _ _ => ""

def allDiagnostics (config : Config) (reporter : Reporter) (letters : OptionString) :
    List Finding → String
  | [] => ""
  | finding :: rest =>
    finding.diagnostics config reporter letters ++ allDiagnostics config reporter letters rest

def results (letters : OptionString) (cells : List Int) : List Finding → List (Item × List Int)
  | [] => []
  | finding :: rest =>
    let cells := Store.apply cells finding.store
    (finding.item letters, cells) :: results letters cells rest

def finalCells (cells : List Int) (findings : List Finding) : List Int :=
  findings.foldl (fun cells finding => Store.apply cells finding.store) cells

theorem map_fst_results (letters : OptionString) (cells : List Int) (findings : List Finding) :
    (results letters cells findings).map Prod.fst = findings.map (item letters) := by
  induction findings generalizing cells with
  | nil => rfl
  | cons finding rest ih => simp only [results, List.map_cons, ih]

end Finding

theorem diagnostics_announce (s : Session) (grammar : Grammar) (error : OptionError)
    (culprit : Code) :
    Output.diagnostics (s.announce grammar error) =
      (Finding.failed error culprit).diagnostics s.config s.reporter grammar.letters := by
  unfold Session.announce Finding.diagnostics
  rw [Output.diagnostics]
  split <;> rfl

namespace Host

def reading (h : Host) (grammar : Grammar) : Except Fault Reading :=
  (h.session.prepare h.args.length).read grammar h.args

def reply (h : Host) (grammar : Grammar) (r : Reading) : Reply :=
  let turn := (h.session.prepare h.args.length).conclude grammar r
  { code := turn.code
    host := { session := turn.session, args := turn.args, cells := Store.apply h.cells turn.store }
    outputs := turn.outputs }

def replies (h : Host) (grammar : Grammar) : List Reading → List Reply
  | [] => []
  | r :: rs => h.reply grammar r :: (h.reply grammar r).host.replies grammar rs

variable {h : Host} {grammar : Grammar} {r : Reading}

theorem call_of_reading (hreading : h.reading grammar = .ok r) :
    h.call grammar = .ok (h.reply grammar r) := by
  have hread : (h.session.prepare h.args.length).read grammar h.args = .ok r := hreading
  unfold call Session.next
  simp only [hread]
  rfl

section Reply

variable (h grammar r)

theorem reply_config : (h.reply grammar r).host.session.config = h.session.config := by
  unfold reply Session.conclude
  cases r.outcome <;> rfl

theorem reply_reporter : (h.reply grammar r).host.session.reporter = h.session.reporter := by
  unfold reply Session.conclude
  cases r.outcome <;> rfl

theorem reply_args : (h.reply grammar r).host.args = r.walk.args := by
  unfold reply Session.conclude
  cases r.outcome <;> rfl

theorem reply_cursor : (h.reply grammar r).host.session.cursor = r.walk.cursor := by
  unfold reply Session.conclude
  cases r.outcome <;> rfl

theorem reply_block : (h.reply grammar r).host.session.block = r.walk.block := by
  unfold reply Session.conclude
  cases r.outcome <;> rfl

theorem reply_offset : (h.reply grammar r).host.session.offset = r.offset := by
  unfold reply Session.conclude
  cases r.outcome <;> rfl

theorem reply_resetRequested : (h.reply grammar r).host.session.resetRequested = false := by
  unfold reply Session.conclude
  cases r.outcome <;> rfl

theorem reply_item? :
    (h.reply grammar r).item? = r.finding?.map (Finding.item grammar.letters) := by
  unfold reply Session.conclude Reading.finding?
  cases r.outcome <;> rfl

theorem reply_cells :
    (h.reply grammar r).host.cells = Store.apply h.cells (r.finding?.bind Finding.store) := by
  unfold reply Session.conclude Reading.finding?
  cases r.outcome <;> rfl

theorem diagnostics_reply (hquiet : r.walk.Quiet) :
    Output.diagnostics (h.reply grammar r).outputs =
      (r.finding?.map (Finding.diagnostics h.session.config h.session.reporter
        grammar.letters)).getD "" := by
  have hwalk : Output.diagnostics r.walk.outputs = "" := hquiet
  unfold reply Session.conclude Reading.finding?
  cases r.outcome with
  | ended => exact hwalk
  | found code argument entryIndex store => exact hwalk
  | failed error culprit =>
    show Output.diagnostics (r.walk.outputs ++ _) = _
    rw [Output.diagnostics_append, hwalk, String.empty_append]
    exact diagnostics_announce _ grammar error culprit

theorem code_reply : (h.reply grammar r).code = none ↔ r.outcome = .ended := by
  unfold reply Session.conclude
  cases r.outcome <;> simp

end Reply

/-- A call after a reply goes on where the reading of the reply stopped. -/
theorem reading_reply (hresumable : r.Resumable) :
    (h.reply grammar r).host.reading grammar =
      r.next grammar (h.session.config.policy grammar.letters) := by
  obtain ⟨hcursor, hinside⟩ := hresumable
  have hmax : max 1 r.walk.cursor = r.walk.cursor := by omega
  unfold reading Session.read
  simp only [Session.prepare, reply_args, reply_cursor, reply_block, reply_offset,
    reply_resetRequested, reply_config, hmax, Bool.false_or, Bool.false_eq_true, if_false]
  unfold Reading.next
  rcases hinside with hnone | hlt
  · simp [hnone]
  · have hwithin : ¬ r.walk.args.length ≤ r.walk.cursor := by omega
    cases r.offset with
    | none => simp [hwithin]
    | some offset => simp [hwithin]

theorem collect_of_ended {reply : Reply} (hcall : h.call grammar = .ok reply)
    (hcode : reply.code = none) (limit : Nat) :
    h.collect grammar (limit + 1) = .ok [reply] := by
  simp only [collect, hcall, bind, Except.bind, hcode]

theorem collect_of_found {reply : Reply} {more : List Reply} {limit : Nat}
    (hcall : h.call grammar = .ok reply) (hcode : reply.code ≠ none)
    (hmore : reply.host.collect grammar limit = .ok more) :
    h.collect grammar (limit + 1) = .ok (reply :: more) := by
  obtain ⟨code, hsome⟩ := Option.ne_none_iff_exists'.mp hcode
  simp only [collect, hcall, bind, Except.bind, hsome, hmore]

/-- The calls of a scan that has `limit` calls left after the first. -/
inductive Collects (h : Host) (grammar : Grammar) (limit : Nat) : List Reply → Prop
  | ended (reply : Reply) (hcall : h.call grammar = .ok reply) (hcode : reply.code = none) :
      Collects h grammar limit [reply]
  | found (reply : Reply) (more : List Reply) (hcall : h.call grammar = .ok reply)
      (hcode : reply.code ≠ none) (hmore : reply.host.collect grammar limit = .ok more) :
      Collects h grammar limit (reply :: more)

theorem collects_of_collect {limit : Nat} {replies : List Reply}
    (hcollect : h.collect grammar (limit + 1) = .ok replies) :
    h.Collects grammar limit replies := by
  obtain ⟨first, hcall, hrest⟩ := exists_of_bind_ok hcollect
  cases hcode : first.code with
  | none =>
    rw [hcode] at hrest
    cases hrest
    exact .ended first hcall hcode
  | some code =>
    rw [hcode] at hrest
    obtain ⟨more, hmore, hreplies⟩ := exists_of_bind_ok hrest
    cases hreplies
    exact .found first more hcall (by simp [hcode]) hmore

/-- A chain of readings up to the end of the scan is a drain, if the limit allows for it. -/
theorem collect_of_steps {policy : OperandPolicy} {first : Except Fault Reading}
    {rs : List Reading} {last : Reading} (hsteps : Steps grammar policy first rs (.ok last))
    (hlast : last.outcome = .ended) (hreading : h.reading grammar = first)
    (hpolicy : h.session.config.policy grammar.letters = policy) (limit : Nat)
    (hlimit : rs.length < limit) :
    h.collect grammar limit = .ok (h.replies grammar (rs ++ [last])) := by
  generalize htarget : (Except.ok last : Except Fault Reading) = target at hsteps
  induction hsteps generalizing h limit with
  | refl current =>
    obtain ⟨n, rfl⟩ : ∃ n, limit = n + 1 := ⟨limit - 1, by simp at hlimit; omega⟩
    have hcall := call_of_reading (hreading.trans htarget.symm)
    exact collect_of_ended hcall ((code_reply h grammar last).mpr hlast) n
  | @step r rs target hfound hresumable hsteps ih =>
    obtain ⟨n, rfl⟩ : ∃ n, limit = n + 1 := ⟨limit - 1, by simp at hlimit; omega⟩
    simp only [List.length_cons, Nat.add_lt_add_iff_right] at hlimit
    have hcode : (h.reply grammar r).code ≠ none := fun hnone =>
      hfound ((code_reply h grammar r).mp hnone)
    have hmore := ih (hpolicy ▸ reading_reply hresumable) (by rw [reply_config]; exact hpolicy) n
      hlimit htarget
    exact collect_of_found (call_of_reading hreading) hcode hmore

section Replies

variable (h : Host) (grammar : Grammar)

/-- The items of the replies, and the flag cells after each. -/
theorem results_replies (rs : List Reading) :
    (h.replies grammar rs).filterMap (fun reply => reply.item?.map (·, reply.host.cells)) =
      Finding.results grammar.letters h.cells (rs.filterMap Reading.finding?) := by
  induction rs generalizing h with
  | nil => rfl
  | cons r rs ih =>
    rw [replies, List.filterMap_cons, reply_item?, reply_cells, List.filterMap_cons]
    have hrest := ih (h.reply grammar r).host
    rw [reply_cells] at hrest
    cases hfinding : r.finding? with
    | none =>
      rw [hfinding] at hrest
      exact hrest
    | some finding =>
      rw [hfinding] at hrest
      simp only [Option.map_some, Finding.results, hrest]
      rfl

theorem items_replies (rs : List Reading) :
    (h.replies grammar rs).filterMap Reply.item? =
      (rs.filterMap Reading.finding?).map (Finding.item grammar.letters) := by
  rw [← Finding.map_fst_results grammar.letters h.cells, ← results_replies, List.map_filterMap]
  congr 1
  funext reply
  cases reply.item? <;> rfl

theorem diagnostics_replies (rs : List Reading) (hquiet : ∀ r ∈ rs, r.walk.Quiet) :
    Output.diagnostics ((h.replies grammar rs).flatMap Reply.outputs) =
      Finding.allDiagnostics h.session.config h.session.reporter grammar.letters
        (rs.filterMap Reading.finding?) := by
  induction rs generalizing h with
  | nil => rfl
  | cons r rs ih =>
    have hfirst := diagnostics_reply h grammar r (hquiet r (List.mem_cons_self ..))
    have hrest := ih (h.reply grammar r).host
      (fun r' hr' => hquiet r' (List.mem_cons_of_mem r hr'))
    rw [reply_config, reply_reporter] at hrest
    rw [replies, List.flatMap_cons, Output.diagnostics_append, hfirst, hrest, List.filterMap_cons]
    cases r.finding? with
    | none => exact String.empty_append
    | some finding => rfl

theorem after_cons (reply : Reply) (more : List Reply) :
    h.after (reply :: more) = reply.host.after more := by
  cases more with
  | nil => rfl
  | cons second rest =>
    unfold after
    rw [List.getLast?_cons_cons, List.getLast?_eq_some_getLast (List.cons_ne_nil second rest)]
    rfl

/-- The last reply comes from the last reading. -/
theorem replies_concat (rs : List Reading) (last : Reading) :
    h.replies grammar (rs ++ [last]) =
      h.replies grammar rs ++ [(h.after (h.replies grammar rs)).reply grammar last] := by
  induction rs generalizing h with
  | nil => rfl
  | cons r rs ih =>
    rw [List.cons_append, replies, ih, replies, after_cons]
    rfl

theorem after_replies_concat (rs : List Reading) (last : Reading) :
    h.after (h.replies grammar (rs ++ [last])) =
      ((h.after (h.replies grammar rs)).reply grammar last).host := by
  rw [replies_concat]
  simp [after]

theorem cells_after_replies (rs : List Reading) :
    (h.after (h.replies grammar rs)).cells =
      Finding.finalCells h.cells (rs.filterMap Reading.finding?) := by
  induction rs generalizing h with
  | nil => rfl
  | cons r rs ih =>
    rw [replies, after_cons, ih, reply_cells, List.filterMap_cons]
    cases r.finding? <;> rfl

end Replies

end Host

end OptionScan
