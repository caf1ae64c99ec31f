import OptionScan.Proofs.Drain
import OptionScan.Proofs.Reports
import OptionScan.Proofs.Strictness

/-!
Silence. A `:` in front of the letters, behind the mode if there is one, is no letter itself and has
no say in what a scan reads. So a silent scan goes through the same states, call by call, as one
that is given the same letters without the `:`. It answers with a code of its own where a problem is
about an argument, and it never asks its reporter.
-/

namespace OptionScan

def OperandPolicy.mode : OperandPolicy → String
  | .move => ""
  | .report => "-"
  | .stop => "+"

namespace OptionString

def behindMode (policy : OperandPolicy) (text : String) : OptionString :=
  ⟨policy.mode ++ text⟩

theorem behindMode_move (text : String) : behindMode .move text = ⟨text⟩ :=
  congrArg OptionString.mk String.empty_append

section Mode

variable {text : String} {policy : OperandPolicy}

/-- Behind a mode any text is the letters; without one they must not start with one. -/
theorem letters_behindMode_of (hplain : policy = .move → Plain ⟨text⟩) :
    (behindMode policy text).letters = text.toList := by
  cases policy with
  | move =>
    rw [behindMode_move]
    exact letters_of_plain (hplain rfl)
  | report =>
    show (reporting ⟨text⟩).letters = _
    simp only [letters, toList_reporting]
  | stop =>
    show (stopping ⟨text⟩).letters = _
    simp only [letters, toList_stopping]

theorem policy_behindMode_of (hplain : policy = .move → Plain ⟨text⟩) :
    (behindMode policy text).policy = policy := by
  cases policy with
  | move =>
    rw [behindMode_move]
    exact policy_of_plain (hplain rfl)
  | report => exact policy_reporting
  | stop => exact policy_stopping

theorem letters_behindMode (hplain : Plain ⟨text⟩) (policy : OperandPolicy) :
    (behindMode policy text).letters = text.toList :=
  letters_behindMode_of fun _ => hplain

theorem policy_behindMode (hplain : Plain ⟨text⟩) (policy : OperandPolicy) :
    (behindMode policy text).policy = policy :=
  policy_behindMode_of fun _ => hplain

end Mode

theorem plain_colon (text : String) : Plain ⟨":" ++ text⟩ := by
  constructor
  · simp
  · simp

variable {o other : OptionString} (hcolon : other.letters = ':' :: o.letters)
include hcolon

theorem silent_of_colon : other.silent = true := by
  simp only [silent, hcolon, List.head?_cons, beq_self_eq_true]

/-- The `:` is passed over when a letter is looked up. -/
theorem kinds_of_colon : other.kind? = o.kind? := by
  funext letter
  unfold kind?
  by_cases hletter : letter = ':'
  · rw [if_pos hletter, if_pos hletter]
  · have hpast : (':' :: o.letters).dropWhile (· != letter) = o.letters.dropWhile (· != letter) :=
      List.dropWhile_cons_of_pos (bne_iff_ne.mpr (Ne.symm hletter))
    rw [if_neg hletter, if_neg hletter, hcolon, hpast]

end OptionString

def Reply.argumentProblem (reply : Reply) : Bool :=
  reply.host.session.lastError.any OptionError.concernsArgument

def Reply.report (reply : Reply) : List Output :=
  if reply.host.session.config.reportErrors then
    (reply.host.session.lastError.map reply.host.session.reporter).getD []
  else []

/-- A reply and that of a silent session to the same call. A caller sees the same of the two
sessions; the code is another one where the problem is about an argument; and what the reporter of
the first has to say is missing from the outputs of the second, in which no diagnostic is left. -/
structure Reply.Muted (reply muted : Reply) : Prop where
  sight_eq : muted.host.sight = reply.host.sight
  argument : reply.argumentProblem = true →
    reply.code = some .unknown ∧ muted.code = some .argumentProblem
  other : reply.argumentProblem = false → muted.code = reply.code
  outputs_eq : reply.outputs = muted.outputs ++ reply.report
  quiet : Output.diagnostics muted.outputs = ""

/-- A call that finds no problem is answered alike. -/
theorem Reply.Muted.of_quiet {reply muted : Reply} (hquiet : Output.diagnostics reply.outputs = "")
    (hnone : reply.host.session.lastError = none) (hsight : muted.host.sight = reply.host.sight)
    (hcode : muted.code = reply.code) (houtputs : muted.outputs = reply.outputs) :
    reply.Muted muted where
  sight_eq := hsight
  argument hargument := by
    rw [Reply.argumentProblem, hnone] at hargument
    cases hargument
  other _ := hcode
  outputs_eq := by
    rw [houtputs, Reply.report, hnone]
    simp
  quiet := houtputs ▸ hquiet

/-- Both calls find something, or neither does. -/
theorem Reply.Muted.code_eq_none_iff {reply muted : Reply} (h : reply.Muted muted) :
    reply.code = none ↔ muted.code = none := by
  cases hproblem : reply.argumentProblem with
  | true =>
    obtain ⟨hcode, hmuted⟩ := h.argument hproblem
    simp [hcode, hmuted]
  | false => rw [h.other hproblem]

namespace Host

section Call

variable {letters other : OptionString} (h : Host) (table : LongTable)

/-- What comes of the same reading in the two sessions. -/
theorem reply_muted (hloud : letters.silent = false) (hsilent : other.silent = true) (on : Bool)
    (reporter : Reporter) {r : Reading} (hquiet : r.walk.Quiet) :
    (h.reply ⟨letters, table⟩ r).Muted ((h.reporting on reporter).reply ⟨other, table⟩ r) ∧
      ((h.reporting on reporter).reply ⟨other, table⟩ r).host =
        (h.reply ⟨letters, table⟩ r).host.reporting on reporter := by
  unfold reply Session.conclude
  cases r.outcome with
  | ended => exact ⟨.of_quiet hquiet rfl rfl rfl rfl, rfl⟩
  | found code argument entryIndex store => exact ⟨.of_quiet hquiet rfl rfl rfl rfl, rfl⟩
  | failed error culprit =>
    refine ⟨⟨rfl, ?_, ?_, ?_, ?_⟩, rfl⟩
    · intro hargument
      have hconcerns : error.concernsArgument = true := hargument
      simp only [OptionError.code, hconcerns, OptionString.argumentCode, hloud, hsilent]
      exact ⟨rfl, rfl⟩
    · intro hother
      have hconcerns : error.concernsArgument = false := hother
      simp only [OptionError.code, hconcerns]
      rfl
    · simp [Session.announce, Reply.report, hloud, hsilent, Session.prepare]
    · simp only [Session.announce, hsilent, Bool.not_true, Bool.and_false]
      exact hquiet.event _

end Call

end Host

def muting : Comparison Unit where
  hosts _ h h' := ∃ on reporter, h' = h.reporting on reporter
  replies _ reply muted _ := reply.Muted muted

theorem muting.calls {letters other : OptionString} (hkinds : other.kind? = letters.kind?)
    (hpolicy : other.policy = letters.policy) (hloud : letters.silent = false)
    (hsilent : other.silent = true) (table : LongTable) :
    muting.Calls ⟨letters, table⟩ ⟨other, table⟩ := by
  rintro s h _ ⟨on, reporter, rfl⟩
  have hoperands : (h.reporting on reporter).session.config.policy other =
      h.session.config.policy letters := by
    simp only [Config.policy, hpolicy]
    rfl
  have hreading : (h.reporting on reporter).reading ⟨other, table⟩ = h.reading ⟨letters, table⟩ :=
    h.reading_of_kinds (h.reporting on reporter) rfl rfl hkinds hoperands table
  refine Host.call_abreast hreading fun r hread => ?_
  obtain ⟨hmuted, hhost⟩ :=
    h.reply_muted table hloud hsilent on reporter (Session.read_quiet hread)
  exact ⟨hmuted.code_eq_none_iff, s, hmuted, on, reporter, hhost⟩

/-- Letters that start with none of `:`, `-` and `+` stand behind a mode, or behind the mode and a
`:`. In the second case a whole scan goes as in the first: after every call the vector, the cursor,
the culprit, the argument, the index, the error and the flag cells are the same, and so is the code
unless the problem is about an argument, where it is `?` in the first scan and `:` in the second.
The second scan reports nothing. Whether its session is to report, and to whom, is left open; so it
may be the session of the first scan. -/
theorem Host.drain_muted (config : Config) (reporter : Reporter) (policy : OperandPolicy)
    (text : String) (hplain : OptionString.Plain ⟨text⟩) (hletter : text.toList.head? ≠ some ':')
    (table : LongTable) (args : List String) (cells : List Int) (on : Bool) (other : Reporter) :
    let h : Host := { session := { config, reporter }, args, cells }
    let letters := OptionString.behindMode policy text
    let silent := OptionString.behindMode policy (":" ++ text)
    ∃ replies muted, h.drain ⟨letters, table⟩ = .ok replies ∧
      (h.reporting on other).drain ⟨silent, table⟩ = .ok muted ∧
      replies.getLast?.map Reply.code = some none ∧ muted.getLast?.map Reply.code = some none ∧
      List.Forall₂ Reply.Muted replies muted := by
  intro h letters silent
  have hletters : letters.letters = text.toList := OptionString.letters_behindMode hplain policy
  have hcolon : silent.letters = ':' :: letters.letters := by
    rw [hletters, OptionString.letters_behindMode (OptionString.plain_colon text)]
    exact String.toList_append
  have hloud : letters.silent = false := by
    rw [OptionString.silent, hletters]
    exact beq_eq_false_iff_ne.mpr hletter
  have hpolicy : silent.policy = letters.policy := by
    rw [OptionString.policy_behindMode (OptionString.plain_colon text),
      OptionString.policy_behindMode hplain]
  obtain ⟨replies, hreplies⟩ :=
    Host.exists_drained h ⟨letters, table⟩ 1 (Nat.le_refl 1) (Session.startsAt_new config reporter) _
      rfl _ rfl
  obtain ⟨muted, hmuted⟩ :=
    Host.exists_drained (h.reporting on other) ⟨silent, table⟩ 1 (Nat.le_refl 1)
      (Session.startsAt_new _ other) _ rfl _ rfl
  have hcalls := muting.calls (OptionString.kinds_of_colon hcolon) hpolicy hloud
    (OptionString.silent_of_colon hcolon) table
  have hhosts : muting.hosts () h (h.reporting on other) := ⟨on, other, rfl⟩
  obtain ⟨_, hseries, _⟩ :=
    Comparison.answers_of_drain hcalls hhosts rfl hreplies.drain_eq hmuted.drain_eq
  exact ⟨replies, muted, hreplies.drain_eq, hmuted.drain_eq, hreplies.ended, hmuted.ended,
    hseries.forall₂ fun _ _ _ _ halike => halike⟩

/-- Operands are reported. The scans find an unknown letter, an unwanted value, an operand, a name
that no entry has, and a letter whose argument is missing. -/
theorem Host.drain_muted_problems :
    let h : Host := { args := ["prog", "-xa", "--flag=v", "in", "--no", "-b"], cells := [0] }
    let table : LongTable := [⟨"flag", .none, 1, some 0⟩]
    ∃ replies muted, h.drain ⟨⟨"-ab:"⟩, table⟩ = .ok replies ∧
      h.drain ⟨⟨"-:ab:"⟩, table⟩ = .ok muted ∧
      List.Forall₂ Reply.Muted replies muted ∧
      replies.map Reply.code = [some 63, some 97, some 63, some 1, some 63, some 63, none] ∧
      muted.map Reply.code = [some 63, some 97, some 58, some 1, some 63, some 58, none] ∧
      Output.diagnostics (muted.flatMap Reply.outputs) = "" := by
  intro h table
  obtain ⟨replies, muted, hreplies, hmuted, _, _, halike⟩ :=
    Host.drain_muted {} (Reporter.lines Reporter.defaultLabel) .report "ab:"
      ⟨by decide, by decide⟩ (by decide) table h.args h.cells true
      (Reporter.lines Reporter.defaultLabel)
  have hloud : (h.drain ⟨⟨"-ab:"⟩, table⟩).toOption.map (List.map Reply.code) =
      some [some 63, some 97, some 63, some 1, some 63, some 63, none] := by
    decide +kernel
  have hsilent : (h.drain ⟨⟨"-:ab:"⟩, table⟩).toOption.map (fun replies =>
      (replies.map Reply.code, Output.diagnostics (replies.flatMap Reply.outputs))) =
      some ([some 63, some 97, some 58, some 1, some 63, some 58, none], "") := by
    decide +kernel
  rw [show h.drain ⟨⟨"-ab:"⟩, table⟩ = .ok replies from hreplies] at hloud
  rw [show h.drain ⟨⟨"-:ab:"⟩, table⟩ = .ok muted from hmuted] at hsilent
  obtain ⟨hcodes, hquiet⟩ := Prod.mk.inj (Option.some.inj hsilent)
  exact ⟨replies, muted, hreplies, hmuted, halike, Option.some.inj hloud, hcodes, hquiet⟩

end OptionScan
