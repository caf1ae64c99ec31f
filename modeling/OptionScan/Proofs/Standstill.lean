import OptionScan.Proofs.Endings
import OptionScan.Proofs.Rescan

/-!
After the end of a scan. Where no element ended the options, there are none behind the cursor: the
vector is used up but for the operands that were moved there, or the options stop at an operand. A
further call walks over what is ahead and comes back, and leaves the host as it was.
-/

namespace OptionScan

def Output.IsSkip (output : Output) : Prop :=
  ∃ cursor blockStart, output = .event (.operandSkipped cursor blockStart)

/-- Elements off which a scan reads no option: operands that are moved, or one at which the options
stop. -/
inductive Barren (policy : OperandPolicy) : List String → Prop
  | nil : Barren policy []
  | stop {element : String} {ahead : List String} (hoperand : isOperand element)
      (hpolicy : policy = .stop) : Barren policy (element :: ahead)
  | move {elements : List String} (hoperands : ∀ element ∈ elements, isOperand element)
      (hpolicy : policy = .move) : Barren policy elements

/-- What a scan leaves ahead of the cursor is barren where nothing ended the options, and also where
nothing is behind the element that ended them. -/
theorem barren_of_exhausted {grammar : Grammar} {policy : OperandPolicy} {elements : List String}
    (hexhausted : (parse grammar policy elements).marker = none ∨
      (parse grammar policy elements).rest = []) :
    Barren policy
      ((parse grammar policy elements).held policy ++ (parse grammar policy elements).rest) := by
  have hrest : (parse grammar policy elements).rest = [] ∨
      policy = .stop ∧ ∃ element ahead,
        (parse grammar policy elements).rest = element :: ahead ∧ isOperand element := by
    rcases hexhausted with hmarker | hnil
    · exact rest_of_unmarked hmarker
    · exact Or.inl hnil
  rcases hrest with hnil | ⟨rfl, element, ahead, hrest, hoperand⟩
  · rw [hnil, List.append_nil]
    by_cases hpolicy : policy = .move
    · exact .move isOperand_of_held hpolicy
    · rw [Parse.held_of_ne_move hpolicy]
      exact .nil
  · rw [Parse.held_of_ne_move (by decide), List.nil_append, hrest]
    exact .stop hoperand rfl

namespace Walk

def OpenFrom (w : Walk) (start : Nat) : Prop :=
  w.block = .opened start ∨ w.block = .absent ∧ w.cursor = start

section OpenFrom

variable {w : Walk} {start : Nat}

theorem OpenFrom.settle_eq (hopen : w.OpenFrom start) :
    w.settle = .ok { w with cursor := start, block := .absent } := by
  rcases hopen with hblock | ⟨hblock, rfl⟩
  · simp only [settle, hblock]
  · have hsettle : w.settle = .ok w := by simp only [settle, hblock]
    rw [hsettle, ← hblock]

theorem OpenFrom.passOperand_eq (hopen : w.OpenFrom start) :
    w.passOperand = .ok (w.skip start) := by
  rcases hopen with hblock | ⟨hblock, rfl⟩
  · simp only [passOperand, hblock]
  · simp only [passOperand, hblock]

/-- Operands are walked over up to the end of the vector, and the cursor comes back to the first. -/
theorem seek_operands {elements : List String}
    (hoperands : ∀ element ∈ elements, isOperand element) (hopen : w.OpenFrom start) :
    ∃ skips, seek .move elements w =
        .ok ({ w with cursor := start, block := .absent, outputs := w.outputs ++ skips }, .finish) ∧
      ∀ output ∈ skips, output.IsSkip := by
  induction elements generalizing w with
  | nil =>
    refine ⟨[], ?_, fun _ hskip => absurd hskip List.not_mem_nil⟩
    rw [seek, hopen.settle_eq, List.append_nil]
    rfl
  | cons element rest ih =>
    obtain ⟨hoperand, hrest⟩ := List.forall_mem_cons.mp hoperands
    have hskip : (w.skip start).OpenFrom start := Or.inl rfl
    obtain ⟨skips, hseek, hskips⟩ := ih hrest hskip
    refine ⟨.event (.operandSkipped w.cursor start) :: skips, ?_,
      List.forall_mem_cons.mpr ⟨⟨w.cursor, start, rfl⟩, hskips⟩⟩
    rw [seek, ofString_of_isOperand hoperand]
    simp only [hopen.passOperand_eq, bind, Except.bind, hseek]
    simp [skip]

end OpenFrom

/-- A walk over barren elements leaves nothing but notes. -/
theorem seek_barren {policy : OperandPolicy} {elements : List String}
    (hbarren : Barren policy elements) (w : Walk) (hblock : w.block = .absent) :
    ∃ skips, seek policy elements w = .ok ({ w with outputs := w.outputs ++ skips }, .finish) ∧
      ∀ output ∈ skips, output.IsSkip := by
  cases hbarren with
  | nil =>
    have hsettle : w.settle = .ok w := by simp only [settle, hblock]
    refine ⟨[], ?_, fun _ hskip => absurd hskip List.not_mem_nil⟩
    rw [seek, hsettle, List.append_nil]
    rfl
  | stop hoperand hpolicy =>
    subst policy
    refine ⟨[], ?_, fun _ hskip => absurd hskip List.not_mem_nil⟩
    rw [seek, ofString_of_isOperand hoperand]
    simp only [List.append_nil]
  | move hoperands hpolicy =>
    subst policy
    obtain ⟨skips, hseek, hskips⟩ := seek_operands hoperands (Or.inr ⟨hblock, rfl⟩)
    rw [← hblock] at hseek
    exact ⟨skips, hseek, hskips⟩

end Walk

theorem Session.StartsAt.sound {s : Session} {j : Nat} (hstart : s.StartsAt j) : s.Sound := by
  refine ⟨hstart.block_eq ▸ .absent, ?_⟩
  intro position hposition
  rw [hstart.offset_eq] at hposition
  cases hposition

namespace Host

variable {h : Host} {grammar : Grammar} {reply : Reply}

/-- The session is as a call leaves it that finds nothing and has no operands to wait for. -/
structure AtRest (h : Host) : Prop where
  cursor : 1 ≤ h.session.cursor
  offset_eq : h.session.offset = none
  block_eq : h.session.block = .absent
  argument_eq : h.session.argument = none
  entryIndex_eq : h.session.entryIndex = none
  lastError_eq : h.session.lastError = none
  resetRequested_eq : h.session.resetRequested = false

theorem AtRest.prepare_eq (hrest : h.AtRest) (size : Nat) : h.session.prepare size = h.session := by
  obtain ⟨⟨config, cursor, culprit, argument, entryIndex, resetRequested, offset, block, lastError,
    reporter⟩, args, cells⟩ := h
  obtain ⟨hcursor, rfl, rfl, rfl, rfl, rfl, rfl⟩ := hrest
  simp [Session.prepare, Nat.max_eq_right hcursor]

/-- Where nothing can be read ahead, a call finds nothing and leaves the host as it is. -/
theorem AtRest.call_eq (hrest : h.AtRest)
    (hbarren : Barren (h.session.config.policy grammar.letters)
      (h.args.drop h.session.cursor)) :
    ∃ outputs, h.call grammar = .ok { code := none, host := h, outputs } ∧
      ∀ output ∈ outputs, output.IsSkip := by
  let w : Walk := { args := h.args, cursor := h.session.cursor }
  obtain ⟨skips, hseek, hskips⟩ := Walk.seek_barren hbarren w rfl
  have hreading : h.reading grammar = .ok ⟨{ w with outputs := skips }, none, .ended⟩ := by
    unfold reading Session.read
    simp only [hrest.prepare_eq, hrest.offset_eq, hrest.block_eq]
    show w.readNext grammar _ = _
    unfold Walk.readNext
    simp only [show w.args.drop w.cursor = h.args.drop h.session.cursor from rfl, hseek]
    rfl
  refine ⟨skips, ?_, hskips⟩
  rw [call_of_reading hreading]
  unfold reply Session.conclude
  simp only [hrest.prepare_eq, w, ← hrest.offset_eq, ← hrest.block_eq]
  rfl

/-- So do all calls that follow. -/
theorem AtRest.run_eq (hrest : h.AtRest)
    (hbarren : Barren (h.session.config.policy grammar.letters)
      (h.args.drop h.session.cursor)) (n : Nat) :
    ∃ more, h.run (List.replicate n (.call grammar)) = .ok (more, h) ∧ more.length = n ∧
      ∀ reply ∈ more, reply.code = none ∧ reply.host = h ∧
        ∀ output ∈ reply.outputs, output.IsSkip := by
  obtain ⟨outputs, hcall, hskips⟩ := hrest.call_eq hbarren
  induction n with
  | zero => exact ⟨[], rfl, rfl, fun _ hreply => absurd hreply List.not_mem_nil⟩
  | succ n ih =>
    obtain ⟨more, hmore, hlength, hall⟩ := ih
    refine ⟨{ code := none, host := h, outputs } :: more, ?_, congrArg (· + 1) hlength,
      List.forall_mem_cons.mpr ⟨⟨rfl, rfl, hskips⟩, hall⟩⟩
    simp only [List.replicate_succ, run, perform, hcall, bind, Except.bind, hmore,
      List.singleton_append]

/-- A call that finds nothing leaves no element half read. -/
theorem offset_of_ended {r : Reading} (hsound : h.session.Sound)
    (hreading : h.reading grammar = .ok r) (hended : r.outcome = .ended) : r.offset = none := by
  rcases Nat.lt_or_ge h.args.length h.start.cursor with hpast | hwithin
  · rcases reading_past hsound hpast grammar with ⟨_, hread⟩ | ⟨_, _, _, herror⟩
    · cases hread.symm.trans hreading
      rfl
    · cases herror.symm.trans hreading
  · obtain ⟨front, options, operands, r', _, _, hread, hleaves⟩ :=
      reading_leaves hsound hwithin grammar
    obtain rfl : r = r' := Except.ok.inj (hreading.symm.trans hread)
    have hnone : ∀ {options ahead least}, r.Leaves front options operands ahead least →
        r.offset = none := by
      intro options ahead least hleaves
      cases hleaves with
      | past _ _ _ _ _ hfound => exact absurd hended hfound
      | inside _ _ _ _ _ _ _ hfound => exact absurd hended hfound
      | ends _ _ _ _ hends => exact hends.offset_eq
      | stops _ _ _ _ _ hoffset => exact hoffset
    rcases hleaves with hleaves | ⟨_, _, _, hleaves⟩
    · exact hnone hleaves
    · exact hnone hleaves

theorem atRest_of_ended (hsound : h.session.Sound) (hcall : h.call grammar = .ok reply)
    (hcode : reply.code = none) (hcursor : 1 ≤ reply.host.session.cursor)
    (hblock : reply.host.session.block = .absent) : reply.host.AtRest := by
  obtain ⟨r, hreading, rfl⟩ := exists_reading_of_call hcall
  have hended := (code_reply h grammar r).mp hcode
  have hoffset := offset_of_ended hsound hreading hended
  obtain ⟨ending, hends⟩ := exists_ends hcall
  cases hends with
  | failed _ _ _ _ hfound => cases hfound.symm.trans hcode
  | found _ _ _ _ hfound => cases hfound.symm.trans hcode
  | ended _ herror _ hargument hentry _ =>
    exact ⟨hcursor, (reply_offset h grammar r).trans hoffset, hblock, hargument, hentry, herror,
      reply_resetRequested h grammar r⟩

/-- A scan starts where no element is half read and no block waits. If no element ended the options,
so that the vector is used up or an operand stopped them, or if nothing is behind the element that
ended them, then every further call finds nothing, lets out nothing but notes that it passes over
operands, and leaves the host as it is: the vector, the cursor, the flag cells and all the rest. -/
theorem drain_stands_still (h : Host) (grammar : Grammar) (j : Nat)
    (hstart : h.session.StartsAt j) :
    let p := parse grammar (h.session.config.policy grammar.letters) (h.args.drop (max 1 j))
    ∃ replies, h.drain grammar = .ok replies ∧ replies.getLast?.map Reply.code = some none ∧
      (p.marker = none ∨ p.rest = [] → ∀ n, ∃ more,
        (h.after replies).run (List.replicate n (.call grammar)) = .ok (more, h.after replies) ∧
        more.length = n ∧
        ∀ reply ∈ more, reply.code = none ∧ reply.host = h.after replies ∧
          ∀ output ∈ reply.outputs, output.IsSkip) := by
  intro p
  obtain ⟨replies, hdrained⟩ := exists_drained_from h grammar j hstart _ rfl p rfl
  refine ⟨replies, hdrained.drain_eq, hdrained.ended, ?_⟩
  intro hexhausted
  obtain ⟨last, hlast, hcode⟩ := Option.map_eq_some_iff.mp hdrained.ended
  have hafter : h.after replies = last.host := by
    simp only [after, hlast, Option.map_some, Option.getD_some]
  have hcursor := hdrained.cursor_eq
  have hahead := hdrained.ahead_eq
  have hblock := hdrained.block_eq
  rw [hafter] at hcursor hahead hblock ⊢
  obtain ⟨before, hcall, hconfig, _, hsound⟩ :=
    exists_call_of_collect hdrained.drain_eq last (List.mem_of_getLast? hlast)
  obtain ⟨r, _, rfl⟩ := exists_reading_of_call hcall
  have hrest := atRest_of_ended (hsound hstart.sound) hcall hcode (by omega) hblock
  apply hrest.run_eq
  rw [reply_config, hconfig, hahead]
  exact barren_of_exhausted hexhausted

/-- Three operands that are moved behind an option and one with its argument; and a strict session,
which stops at an operand in front of an option. -/
theorem drain_stands_still_interleaved :
    let h : Host :=
      { session := Session.setCursor {} 0
        args := ["prog", "in", "-a", "x", "-b", "v", "-"] }
    let strict : Host :=
      { session := { config := { strict := true } }, args := ["prog", "-b", "v", "in", "-a"] }
    let grammar : Grammar := ⟨⟨"ab:"⟩, []⟩
    (∃ replies more, h.drain grammar = .ok replies ∧
      (h.after replies).run (List.replicate 3 (.call grammar)) = .ok (more, h.after replies) ∧
      more.length = 3 ∧ ∀ reply ∈ more, reply.code = none ∧ reply.host = h.after replies ∧
        ∀ output ∈ reply.outputs, output.IsSkip) ∧
    ∃ replies more, strict.drain grammar = .ok replies ∧
      (strict.after replies).run (List.replicate 2 (.call grammar)) =
        .ok (more, strict.after replies) ∧
      more.length = 2 ∧ ∀ reply ∈ more, reply.code = none ∧ reply.host = strict.after replies ∧
        ∀ output ∈ reply.outputs, output.IsSkip := by
  intro h strict grammar
  obtain ⟨replies, hdrain, _, hstill⟩ :=
    drain_stands_still h grammar 0 (Session.startsAt_setCursor {} 0)
  obtain ⟨more, hmore⟩ := hstill (Or.inl (by decide +kernel)) 3
  obtain ⟨replies', hdrain', _, hstill'⟩ :=
    drain_stands_still strict grammar 1 (Session.startsAt_new { strict := true } _)
  obtain ⟨more', hmore'⟩ := hstill' (Or.inl (by decide +kernel)) 2
  exact ⟨⟨replies, more, hdrain, hmore⟩, replies', more', hdrain', hmore'⟩

/-- Behind an end marker there may be what looks like an option, and the next call takes it for
one. -/
example :
    let h : Host := { args := ["prog", "--", "-a"] }
    let codes (limit : Nat) : Option (List (Option Code)) :=
      (h.run (List.replicate limit (.call ⟨⟨"a"⟩, []⟩))).toOption.map fun answer =>
        answer.1.map Reply.code
    codes 3 = some [none, some 97, none] := by
  decide +kernel

end Host

end OptionScan
