import OptionScan.Proofs.Drain

/-!
Accounts of a scan. What a caller sees of the replies who looks neither at the vector nor at the
cursor hangs on what the parse finds alone, with the settings, the reporter and the flag cells that
the scan starts with. So vectors that are parsed alike cannot be told apart by their accounts.
-/

namespace OptionScan

/-- What a caller sees of a reply who looks neither at the vector nor at the cursor: the item, the
culprit if a problem was found, the flag cells, and what reached the diagnostic sink. -/
structure Account where
  item : Option Item
  culprit : Option Code
  cells : List Int
  diagnostics : String
  deriving DecidableEq, Repr

def Reply.account (reply : Reply) : Account where
  item := reply.item?
  culprit := reply.host.session.lastError.map fun _ => reply.host.session.culprit
  cells := reply.host.cells
  diagnostics := Output.diagnostics reply.outputs

namespace Finding

def culprit? : Finding → Option Code
  | failed _ culprit => some culprit
  | found _ _ _ _ => none

def accounts (config : Config) (reporter : Reporter) (letters : OptionString)
    (cells : List Int) : List Finding → List Account
  | [] => [{ item := none, culprit := none, cells, diagnostics := "" }]
  | finding :: rest =>
    let cells := Store.apply cells finding.store
    { item := some (finding.item letters)
      culprit := finding.culprit?
      cells
      diagnostics := finding.diagnostics config reporter letters } ::
      accounts config reporter letters cells rest

end Finding

namespace Host

theorem culprit_reply (h : Host) (grammar : Grammar) (r : Reading) :
    (h.reply grammar r).account.culprit = r.finding?.bind Finding.culprit? := by
  unfold Reply.account reply Session.conclude Reading.finding?
  cases r.outcome <;> rfl

/-- Of a reply a caller has the account of what its reading found. -/
theorem account_reply (h : Host) (grammar : Grammar) {r : Reading} (hquiet : r.walk.Quiet) :
    (h.reply grammar r).account =
      { item := r.finding?.map (Finding.item grammar.letters)
        culprit := r.finding?.bind Finding.culprit?
        cells := Store.apply h.cells (r.finding?.bind Finding.store)
        diagnostics := (r.finding?.map (Finding.diagnostics h.session.config h.session.reporter
          grammar.letters)).getD "" } := by
  rw [← culprit_reply h grammar, ← reply_item?, ← reply_cells,
    ← diagnostics_reply h grammar r hquiet]
  rfl

theorem accounts_replies (h : Host) (grammar : Grammar) {rs : List Reading} {last : Reading}
    (hfound : ∀ r ∈ rs, r.outcome ≠ .ended) (hended : last.outcome = .ended)
    (hquiet : ∀ r ∈ rs ++ [last], r.walk.Quiet) :
    (h.replies grammar (rs ++ [last])).map Reply.account =
      Finding.accounts h.session.config h.session.reporter grammar.letters h.cells
        (rs.filterMap Reading.finding?) := by
  induction rs generalizing h with
  | nil =>
    have hnone : last.finding? = none := by
      simp only [Reading.finding?, hended, Outcome.finding?]
    have hlast := account_reply h grammar (hquiet last (by simp))
    rw [hnone] at hlast
    exact congrArg (fun account => [account]) hlast
  | cons r rs ih =>
    obtain ⟨hr, hrs⟩ := List.forall_mem_cons.mp hfound
    obtain ⟨hquietR, hquietRs⟩ := List.forall_mem_cons.mp hquiet
    obtain ⟨finding, hfinding⟩ := Reading.exists_finding hr
    have hfirst := account_reply h grammar hquietR
    have hmore := ih (h.reply grammar r).host hrs hquietRs
    rw [reply_config, reply_reporter, reply_cells] at hmore
    rw [hfinding] at hfirst hmore
    rw [List.cons_append, replies, List.map_cons, hfirst, hmore,
      List.filterMap_cons_some hfinding]
    rfl

/-- Scans of the two hosts come to their end with the same accounts of their replies, and with the
same elements ahead of the cursor. -/
def ScansAlike (grammar : Grammar) (h h' : Host) : Prop :=
  ∃ replies replies', h.drain grammar = .ok replies ∧ h'.drain grammar = .ok replies' ∧
    replies.getLast?.map Reply.code = some none ∧
    replies'.getLast?.map Reply.code = some none ∧
    replies.map Reply.account = replies'.map Reply.account ∧
    (h.after replies).args.drop (h.after replies).session.cursor =
      (h'.after replies').args.drop (h'.after replies').session.cursor

end Host

structure Parse.Alike (policy : OperandPolicy) (p q : Parse) : Prop where
  findings_eq : p.findings policy = q.findings policy
  ahead_eq : p.held policy ++ p.rest = q.held policy ++ q.rest

namespace Host

/-- Vectors that have the front in common, behind which the scan starts, and the elements `after`
are scanned alike if what is behind the front is parsed alike. -/
theorem scansAlike_of_parse {session : Session} {grammar : Grammar} {before : List String}
    (hbefore : before ≠ []) (hstart : session.StartsAt before.length)
    {elements elements' after : List String} (cells : List Int)
    (halike : (parse grammar (session.config.policy grammar.letters) (elements ++ after)).Alike
      (session.config.policy grammar.letters)
      (parse grammar (session.config.policy grammar.letters) (elements' ++ after))) :
    ScansAlike grammar { session, args := before ++ elements ++ after, cells }
      { session, args := before ++ elements' ++ after, cells } := by
  rw [List.append_assoc, List.append_assoc]
  have hmax : max 1 before.length = before.length :=
    Nat.max_eq_right (List.length_pos_of_ne_nil hbefore)
  have hscan (behind : List String) : ∃ rs last,
      Scanned { session, args := before ++ behind, cells } grammar before.length
        (session.config.policy grammar.letters)
        (parse grammar (session.config.policy grammar.letters) behind) rs last := by
    have hscanned := exists_scanned { session, args := before ++ behind, cells } grammar
      before.length hstart _ rfl _ rfl
    rwa [hmax, List.drop_left] at hscanned
  obtain ⟨rs, last, hscanned⟩ := hscan (elements ++ after)
  obtain ⟨rs', last', hscanned'⟩ := hscan (elements' ++ after)
  have hdrained := hscanned.drained (by rw [List.drop_left])
  have hdrained' := hscanned'.drained (by rw [List.drop_left])
  refine ⟨_, _, hdrained.drain_eq, hdrained'.drain_eq, hdrained.ended, hdrained'.ended, ?_, ?_⟩
  · rw [accounts_replies _ grammar hscanned.found hscanned.ended hscanned.quiet,
      accounts_replies _ grammar hscanned'.found hscanned'.ended hscanned'.quiet,
      hscanned.findings_eq, hscanned'.findings_eq, halike.findings_eq]
  · rw [hdrained.ahead_eq, hdrained'.ahead_eq, halike.ahead_eq]

end Host

end OptionScan
