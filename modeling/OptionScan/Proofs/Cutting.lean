import OptionScan.Proofs.ModeAgreement
import OptionScan.Proofs.Partition
import OptionScan.Proofs.Strictness

/-!
A scan that stops at the first operand against one that reports operands. Up to the first operand
the two sessions are the same, call by call; there the one hands the operand back and goes on, and
the other has come to its end.
-/

namespace OptionScan

/-- The readings of one call in the two modes: the same, or, where the call comes to the operand
`text`, the end for the one and the operand for the other. -/
inductive Reading.Cut : (stopped reported : Reading) → Prop
  | same (r : Reading) : Cut r r
  | operand (w : Walk) (text : String) (hget : w.args[w.cursor]? = some text) :
      Cut ⟨w, none, .ended⟩ ⟨w.advance, none, .found .operand (some ⟨w.cursor, 0⟩) none none⟩

namespace Walk

variable {grammar : Grammar} {w : Walk} {stopped reported : Reading}

theorem readNext_cut (hstopped : w.readNext grammar .stop = .ok stopped)
    (hreported : w.readNext grammar .report = .ok reported) : stopped.Cut reported := by
  unfold readNext at hstopped hreported
  cases hahead : w.args.drop w.cursor with
  | nil =>
    rw [hahead] at hstopped hreported
    cases hstopped.symm.trans hreported
    exact .same stopped
  | cons element ahead =>
    have hget : w.args[w.cursor]? = some element := by
      rw [← Nat.add_zero w.cursor, ← List.getElem?_drop, hahead]
      rfl
    rw [hahead, seek.eq_def] at hstopped hreported
    cases helement : Element.ofString element with
    | operand =>
      simp only [helement] at hstopped hreported
      cases hstopped
      cases hreported
      exact .operand w element hget
    | letters first rest =>
      simp only [helement] at hstopped hreported
      cases hstopped.symm.trans hreported
      exact .same stopped
    | name =>
      simp only [helement] at hstopped hreported
      cases hstopped.symm.trans hreported
      exact .same stopped

theorem resume_cut {offset : Nat} (hstopped : w.resume grammar .stop offset = .ok stopped)
    (hreported : w.resume grammar .report offset = .ok reported) : stopped.Cut reported := by
  unfold resume at hstopped hreported
  split at hstopped
  · cases hstopped
  · next hget =>
    simp only [hget] at hreported
    split at hstopped
    · next hdrop =>
      simp only [hdrop] at hreported
      cases hstopped.symm.trans hreported
      exact .same stopped
    · next hdrop =>
      simp only [hdrop] at hreported
      exact readNext_cut hstopped hreported
    · next hdrop =>
      simp only [hdrop] at hreported
      exact readNext_cut hstopped hreported

end Walk

inductive Reply.Cut : (stopped reported : List Reply) → Prop
  | limit : Cut [] []
  | ended (reply : Reply) (hcode : reply.code = none) : Cut [reply] [reply]
  | option {stopped reported : List Reply} (reply : Reply) (hfound : reply.code ≠ none)
      (hoption : reply.code ≠ some .operand) (hmore : Cut stopped reported) :
      Cut (reply :: stopped) (reply :: reported)
  /-- The one scan ends at the operand `text`, which the other hands back. -/
  | operand (ended reply : Reply) (more : List Reply) (text : String) (hended : ended.code = none)
      (hitem : reply.item? = some ⟨.operand, some text, none, none⟩)
      (hargs : reply.host.args = ended.host.args)
      (hargument : reply.host.session.argument = some ⟨ended.host.session.cursor, 0⟩)
      (hget : ended.host.args[ended.host.session.cursor]? = some text) :
      Cut [ended] (reply :: more)

namespace Reply.Cut

variable {stopped reported : List Reply}

theorem items_eq (h : Cut stopped reported) :
    stopped.filterMap item? = (reported.filterMap item?).takeWhile (·.code ≠ .operand) := by
  induction h with
  | limit => rfl
  | ended reply hcode =>
    have hnone : reply.item? = none := by simp [item?, hcode]
    simp [hnone]
  | option reply hfound hoption _ ih =>
    obtain ⟨item, hitem⟩ := exists_item hfound
    have hkept : item.code ≠ .operand := by
      rintro hcode
      exact hoption (hcode ▸ code_of_item? hitem)
    rw [List.filterMap_cons_some hitem, List.filterMap_cons_some hitem,
      List.takeWhile_cons_of_pos (by simpa using hkept), ih]
  | operand ended reply more text hended hitem =>
    have hnone : ended.item? = none := by simp [item?, hended]
    rw [List.filterMap_cons_some hitem, List.takeWhile_cons_of_neg (by simp)]
    simp [hnone]

theorem eq_of_no_operand (h : Cut stopped reported)
    (hnone : ∀ reply ∈ reported, reply.code ≠ some .operand) : stopped = reported := by
  induction h with
  | limit => rfl
  | ended reply hcode => rfl
  | option reply hfound hoption _ ih =>
    rw [ih fun reply hreply => hnone reply (List.mem_cons_of_mem _ hreply)]
  | operand ended reply more text hended hitem =>
    exact absurd (code_of_item? hitem) (hnone reply List.mem_cons_self)

/-- The cursor of the scan that stops is at the first operand that the other scan hands back. -/
theorem at_first_operand (hcut : Cut stopped reported) (h : Host) {before after : List Reply}
    {reply : Reply} (hsplit : reported = before ++ reply :: after)
    (hcode : reply.code = some .operand)
    (hearlier : ∀ earlier ∈ before, earlier.code ≠ some .operand) :
    reply.host.args = (h.after stopped).args ∧
      reply.host.session.argument = some ⟨(h.after stopped).session.cursor, 0⟩ ∧
      ∃ text, reply.item? = some ⟨.operand, some text, none, none⟩ ∧
        (h.after stopped).args[(h.after stopped).session.cursor]? = some text := by
  induction hcut generalizing h before with
  | limit => exact absurd hsplit (by simp)
  | ended last hended =>
    have hmem : reply ∈ [last] := hsplit ▸ List.mem_append_right _ List.mem_cons_self
    rw [List.mem_singleton.mp hmem, hended] at hcode
    cases hcode
  | option first hfound hoption hmore ih =>
    cases before with
    | nil =>
      obtain ⟨rfl, _⟩ := List.cons.inj hsplit
      exact absurd hcode hoption
    | cons second before =>
      obtain ⟨_, hrest⟩ := List.cons.inj hsplit
      rw [Host.after_cons]
      exact ih first.host hrest fun earlier hmem => hearlier earlier (List.mem_cons_of_mem _ hmem)
  | operand ended first more text hended hitem hargs hargument hget =>
    cases before with
    | nil =>
      obtain ⟨rfl, _⟩ := List.cons.inj hsplit
      exact ⟨hargs, hargument, text, hitem, hget⟩
    | cons second before =>
      obtain ⟨rfl, _⟩ := List.cons.inj hsplit
      exact absurd (code_of_item? hitem) (hearlier first List.mem_cons_self)

end Reply.Cut

namespace Host

variable {h : Host} {letters : OptionString} (hplain : letters.Plain) (table : LongTable)
include hplain

theorem reading_cut {stopped reported : Reading} (hstrict : h.session.config.strict = false)
    (hstopped : h.reading ⟨letters.stopping, table⟩ = .ok stopped)
    (hreported : h.reading ⟨letters.reporting, table⟩ = .ok reported) : stopped.Cut reported := by
  rw [reading_eq, Config.policy_stopping] at hstopped
  rw [reading_eq, Config.policy_reporting hstrict] at hreported
  have hsame := OptionString.kinds_of_letters (OptionString.letters_stopping hplain)
  have hsame' := OptionString.kinds_of_letters (OptionString.letters_reporting hplain)
  cases hoffset : h.startOffset with
  | none =>
    simp only [hoffset] at hstopped hreported
    rw [Walk.readNext_of_kinds hsame] at hstopped
    rw [Walk.readNext_of_kinds hsame'] at hreported
    exact Walk.readNext_cut hstopped hreported
  | some offset =>
    simp only [hoffset] at hstopped hreported
    rw [Walk.resume_of_kinds hsame] at hstopped
    rw [Walk.resume_of_kinds hsame'] at hreported
    exact Walk.resume_cut hstopped hreported

theorem reply_of_stopping (r : Reading) :
    h.reply ⟨letters.stopping, table⟩ r = h.reply ⟨letters.reporting, table⟩ r := by
  unfold reply
  rw [Session.conclude_of_letters (OptionString.letters_stopping hplain),
    Session.conclude_of_letters (OptionString.letters_reporting hplain)]

/-- One call in the two modes. -/
theorem call_cut {stopped reported : Reply} (hstrict : h.session.config.strict = false)
    (hstopped : h.call ⟨letters.stopping, table⟩ = .ok stopped)
    (hreported : h.call ⟨letters.reporting, table⟩ = .ok reported) :
    reported = stopped ∨
      stopped.code = none ∧ reported.code ≠ none ∧
        ∀ more, Reply.Cut [stopped] (reported :: more) := by
  obtain ⟨r, hreading, rfl⟩ := exists_reading_of_call hstopped
  obtain ⟨r', hreading', rfl⟩ := exists_reading_of_call hreported
  have hcut := reading_cut hplain table hstrict hreading hreading'
  cases hcut with
  | same => exact Or.inl (reply_of_stopping hplain table r).symm
  | operand w text hget =>
    refine Or.inr ⟨rfl, Option.some_ne_none _, fun more => .operand _ _ more text rfl ?_ ?_ rfl hget⟩
    · rw [reply_item?]
      simp [Reading.finding?, Outcome.finding?, Walk.advance, Location.text?_whole hget,
        Finding.item]
    · rw [reply_args, reply_args]
      rfl

/-- Two sessions that are the same answer alike until the first operand is met. -/
theorem collect_cut {limit : Nat} {stopped reported : List Reply}
    (hstrict : h.session.config.strict = false)
    (hstopped : h.collect ⟨letters.stopping, table⟩ limit = .ok stopped)
    (hreported : h.collect ⟨letters.reporting, table⟩ limit = .ok reported)
    (hoptions : ∀ reply ∈ stopped, reply.code ≠ some .operand) : Reply.Cut stopped reported := by
  induction limit generalizing h stopped reported with
  | zero =>
    cases hstopped
    cases hreported
    exact .limit
  | succ limit ih =>
    cases collects_of_collect hstopped with
    | ended reply hcall hcode =>
      cases collects_of_collect hreported with
      | ended reply' hcall' hcode' =>
        rcases call_cut hplain table hstrict hcall hcall' with rfl | ⟨_, hfound, _⟩
        · exact .ended _ hcode
        · exact absurd hcode' hfound
      | found reply' more' hcall' hfound' _ =>
        rcases call_cut hplain table hstrict hcall hcall' with rfl | ⟨_, _, hcut⟩
        · exact absurd hcode hfound'
        · exact hcut more'
    | found reply more hcall hfound hmore =>
      obtain ⟨hoption, hlater⟩ := List.forall_mem_cons.mp hoptions
      obtain ⟨r, _, hreply⟩ := exists_reading_of_call hcall
      have hkept : reply.host.session.config.strict = false := by
        rw [hreply, reply_config, hstrict]
      cases collects_of_collect hreported with
      | ended reply' hcall' hcode' =>
        rcases call_cut hplain table hstrict hcall hcall' with rfl | ⟨hnone, _⟩
        · exact absurd hcode' hfound
        · exact absurd hnone hfound
      | found reply' more' hcall' _ hmore' =>
        rcases call_cut hplain table hstrict hcall hcall' with rfl | ⟨hnone, _⟩
        · exact .option _ hfound hoption (ih hkept hmore hmore' hlater)
        · exact absurd hnone hfound

end Host

theorem takeWhile_prefix_filter {α : Type} (p : α → Bool) (items : List α) :
    items.takeWhile p <+: items.filter p := by
  have hkept : (items.takeWhile p).filter p = items.takeWhile p :=
    List.filter_eq_self.mpr fun _ hitem => List.mem_takeWhile_imp hitem
  rw [← hkept]
  exact (List.takeWhile_prefix p).filter p

namespace Host

theorem Drained.no_operand {h : Host} {grammar : Grammar} {k : Nat} {policy : OperandPolicy}
    {p : Parse} {replies : List Reply} (hdrained : h.Drained grammar k policy p replies)
    (hoptions : ∀ finding ∈ p.findings policy, finding.IsOption grammar.letters) :
    ∀ reply ∈ replies, reply.code ≠ some .operand := by
  intro reply hreply hcode
  obtain ⟨item, hitem⟩ := Reply.exists_item (Option.ne_none_iff_exists'.mpr ⟨_, hcode⟩)
  have hmem := List.mem_filterMap.mpr ⟨reply, hreply, hitem⟩
  rw [hdrained.items_eq] at hmem
  obtain ⟨finding, hfinding, rfl⟩ := List.mem_map.mp hmem
  exact hoptions finding hfinding (Option.some.inj ((Reply.code_of_item? hitem).symm.trans hcode))

/-- Three new sessions scan the same vector: one stops at the first operand, one reports operands
and one moves them. The first answers what the second answers before it hands back an operand, which
is what the third answers first; it leaves the vector as it is, and its cursor at that operand or,
if there is none, where the second leaves it. -/
theorem drain_stopping_cuts (config : Config) (reporter : Reporter) (letters : OptionString)
    (table : LongTable) (args : List String) (cells : List Int) (hstrict : config.strict = false)
    (hplain : letters.Plain) (hletters : '\x01' ∉ letters.text.toList)
    (hvalues : ∀ entry ∈ table, entry.cell = none → entry.value ≠ Code.operand) :
    let h : Host := { session := { config, reporter }, args, cells }
    ∃ stopped reported moved, h.drain ⟨letters.stopping, table⟩ = .ok stopped ∧
      h.drain ⟨letters.reporting, table⟩ = .ok reported ∧ h.drain ⟨letters, table⟩ = .ok moved ∧
      stopped.getLast?.map Reply.code = some none ∧
      reported.getLast?.map Reply.code = some none ∧
      moved.getLast?.map Reply.code = some none ∧
      stopped.filterMap Reply.item? =
        (reported.filterMap Reply.item?).takeWhile (·.code ≠ .operand) ∧
      stopped.filterMap Reply.item? <+: moved.filterMap Reply.item? ∧
      (h.after stopped).args = args ∧
      (∀ before reply after, reported = before ++ reply :: after → reply.code = some .operand →
        (∀ earlier ∈ before, earlier.code ≠ some .operand) →
        reply.host.args = args ∧
          reply.host.session.argument = some ⟨(h.after stopped).session.cursor, 0⟩ ∧
          ∃ text, reply.item? = some ⟨.operand, some text, none, none⟩ ∧
            args[(h.after stopped).session.cursor]? = some text) ∧
      ((∀ reply ∈ reported, reply.code ≠ some .operand) →
        (h.after stopped).session.cursor = (h.after reported).session.cursor) := by
  intro h
  have hstart : h.session.StartsAt 1 := Session.startsAt_new config reporter
  obtain ⟨stopped, hstopped⟩ :=
    exists_drained h ⟨letters.stopping, table⟩ 1 (Nat.le_refl 1) hstart .stop
      Config.policy_stopping _ rfl
  obtain ⟨reported, hreported⟩ :=
    exists_drained h ⟨letters.reporting, table⟩ 1 (Nat.le_refl 1) hstart .report
      (Config.policy_reporting hstrict) _ (parse_reporting hplain table (h.args.drop 1)).symm
  obtain ⟨moved, hmoved⟩ :=
    exists_drained h ⟨letters, table⟩ 1 (Nat.le_refl 1) hstart .move
      (Config.policy_of_plain hstrict hplain) _ rfl
  have hoptions : ∀ reply ∈ stopped, reply.code ≠ some .operand :=
    hstopped.no_operand (isOption_parse (by simpa [OptionString.toList_stopping] using hletters)
      hvalues (by decide) _)
  have hcut := collect_cut hplain table hstrict hstopped.drain_eq hreported.drain_eq hoptions
  have hargs : (h.after stopped).args = args := hstopped.args_unmoved (by decide)
  have hkept : (reported.filterMap Reply.item?).filter (·.code ≠ .operand) =
      moved.filterMap Reply.item? := by
    rw [hreported.items_eq, hmoved.items_eq, Finding.item_reporting hplain]
    exact (interleaves_parse ⟨letters, table⟩ hletters hvalues (h.args.drop 1)).items_others
  refine ⟨stopped, reported, moved, hstopped.drain_eq, hreported.drain_eq, hmoved.drain_eq,
    hstopped.ended, hreported.ended, hmoved.ended, hcut.items_eq, ?_, hargs, ?_, ?_⟩
  · rw [hcut.items_eq, ← hkept]
    exact takeWhile_prefix_filter _ _
  · intro before reply after hsplit hcode hearlier
    rw [← hargs]
    exact hcut.at_first_operand h hsplit hcode hearlier
  · intro hnone
    rw [hcut.eq_of_no_operand hnone]

/-- An unknown letter and an argument in an element of its own stand in front of the first operand,
options and an end marker behind it. -/
theorem drain_stopping_cuts_interleaved :
    let h : Host :=
      { args := ["prog", "-axb", "v", "--flag", "in", "-a", "out", "--", "z"], cells := [0] }
    let table : LongTable := [⟨"flag", .none, 1, some 0⟩]
    ∃ stopped reported moved, h.drain ⟨⟨"+ab:"⟩, table⟩ = .ok stopped ∧
      h.drain ⟨⟨"-ab:"⟩, table⟩ = .ok reported ∧ h.drain ⟨⟨"ab:"⟩, table⟩ = .ok moved ∧
      stopped.filterMap Reply.item? =
        [⟨97, none, none, none⟩, ⟨63, none, none, some (.unknownLetter 'x')⟩,
          ⟨98, some "v", none, none⟩, ⟨0, none, some 0, none⟩] ∧
      stopped.filterMap Reply.item? =
        (reported.filterMap Reply.item?).takeWhile (·.code ≠ .operand) ∧
      stopped.filterMap Reply.item? <+: moved.filterMap Reply.item? ∧
      (h.after stopped).args = h.args ∧ (h.after stopped).session.cursor = 4 := by
  intro h table
  obtain ⟨stopped, reported, moved, hstopped, hreported, hmoved, _, _, _, hcut, hprefix, hargs,
      _⟩ :=
    drain_stopping_cuts {} (Reporter.lines Reporter.defaultLabel) ⟨"ab:"⟩
      [⟨"flag", .none, 1, some 0⟩] ["prog", "-axb", "v", "--flag", "in", "-a", "out", "--", "z"] [0]
      rfl ⟨by decide, by decide⟩ (by decide) (by simp)
  have hseen : (h.drain ⟨⟨"+ab:"⟩, table⟩).toOption.map (fun replies =>
      (replies.filterMap Reply.item?, (h.after replies).session.cursor)) =
      some ([⟨97, none, none, none⟩, ⟨63, none, none, some (.unknownLetter 'x')⟩,
        ⟨98, some "v", none, none⟩, ⟨0, none, some 0, none⟩], 4) := by
    decide +kernel
  rw [show h.drain ⟨⟨"+ab:"⟩, table⟩ = .ok stopped from hstopped] at hseen
  obtain ⟨hitems, hcursor⟩ := Prod.mk.inj (Option.some.inj hseen)
  exact ⟨stopped, reported, moved, hstopped, hreported, hmoved, hitems, hcut, hprefix, hargs,
    hcursor⟩

end Host

end OptionScan
