import OptionScan.Proofs.Drain
import OptionScan.Proofs.Names

/-!
The same letters with and without the mode that reports operands. Both scans read the same options
off a vector; the one reports the operands between them, the other moves the operands behind them.
That the results of operands can be told from the others needs that no option answers with the
code of an operand.
-/

namespace OptionScan

section Reporting

variable {letters : OptionString} (hplain : letters.Plain)
include hplain

theorem Finding.item_reporting : Finding.item letters.reporting = Finding.item letters :=
  item_of_letters (OptionString.letters_reporting hplain)

theorem Finding.diagnostics_reporting (config : Config) (reporter : Reporter) :
    Finding.diagnostics config reporter letters.reporting =
      Finding.diagnostics config reporter letters := by
  funext finding
  cases finding with
  | failed error culprit =>
    simp only [diagnostics,
      OptionString.silent_of_letters (OptionString.letters_reporting hplain)]
  | found code argument entryIndex store => rfl

theorem Finding.allDiagnostics_reporting (config : Config) (reporter : Reporter)
    (findings : List Finding) :
    Finding.allDiagnostics config reporter letters.reporting findings =
      Finding.allDiagnostics config reporter letters findings := by
  induction findings with
  | nil => rfl
  | cons finding rest ih =>
    simp only [allDiagnostics, Finding.diagnostics_reporting hplain, ih]

/-- A vector has the same pieces in both modes. -/
theorem parse_reporting (table : LongTable) (elements : List String) :
    parse ⟨letters.reporting, table⟩ .report elements = parse ⟨letters, table⟩ .move elements := by
  rw [parse_of_letters (OptionString.letters_reporting hplain)]
  induction elements using parse_induction ⟨letters, table⟩ .move with
  | nil => simp only [parse]
  | stop element ahead hoperand hpolicy => cases hpolicy
  | operand element ahead hoperand hpolicy ih =>
    rw [parse_operand hoperand (by decide), parse_operand hoperand hpolicy, ih]
  | marker ahead => rw [parse_marker, parse_marker]
  | ends element ahead hoption hmarker hends =>
    rw [parse_ends hoption hmarker hends, parse_ends hoption hmarker hends]
  | option element ahead hoption hmarker hends ih =>
    rw [parse_option hoption hmarker hends, parse_option hoption hmarker hends, ih]

end Reporting

def Finding.IsOption (letters : OptionString) (finding : Finding) : Prop :=
  (finding.item letters).code ≠ .operand

section Codes

variable {grammar : Grammar} (hletters : '\x01' ∉ grammar.letters.text.toList)
  (hvalues : ∀ entry ∈ grammar.table, entry.cell = none → entry.value ≠ Code.operand)

theorem isOption_failed (error : OptionError) (culprit : Code) :
    Finding.IsOption grammar.letters (.failed error culprit) := by
  show error.code grammar.letters ≠ .operand
  unfold OptionError.code OptionString.argumentCode
  split
  · split
    · decide
    · decide
  · decide

include hletters in
theorem isOption_letter {letter : Char} {kind : LetterKind}
    (hkind : grammar.letters.kind? letter = some kind) (argument : Option String) :
    Finding.IsOption grammar.letters (.letter letter argument) := by
  intro hcode
  have hone : letter.toNat = '\x01'.toNat := Int.ofNat_inj.mp hcode
  rw [Char.toNat_inj] at hone
  subst letter
  exact hletters (OptionString.mem_text_of_kind? hkind)

include hvalues

theorem isOption_entry {token : String} {resolved : Resolution}
    (hresolve : grammar.table.resolve token = .ok resolved) (argument : Option String) :
    Finding.IsOption grammar.letters (.entry resolved argument) := by
  unfold Finding.IsOption Finding.entry
  cases hcell : resolved.entry.cell with
  | none => exact hvalues _ (LongTable.mem_of_resolve hresolve) hcell
  | some cell => exact (by decide : Code.stored ≠ Code.operand)

theorem isOption_parseName (token : String) (ahead : List String) :
    ∀ finding ∈ (parseName grammar.table token ahead).findings,
      finding.IsOption grammar.letters := by
  unfold parseName
  split
  · next error _ => simpa using isOption_failed error 0
  · next resolved hresolve =>
    have hentry := isOption_entry hvalues hresolve
    split
    · simpa using isOption_failed _ _
    · simpa using isOption_failed _ _
    · simpa using hentry _
    · simpa using hentry _

include hletters

theorem isOption_parseLetters (ahead : List String) (text : List Char) :
    ∀ finding ∈ (parseLetters grammar ahead text).findings, finding.IsOption grammar.letters := by
  induction text with
  | nil => simp [parseLetters]
  | cons letter rest ih =>
    have hname := isOption_parseName hvalues
    unfold parseLetters
    split
    · exact List.forall_mem_cons.mpr ⟨isOption_failed _ _, ih⟩
    · next hkind => exact List.forall_mem_cons.mpr ⟨isOption_letter hletters hkind _, ih⟩
    · next hkind => simpa using isOption_letter hletters hkind _
    · next hkind => simpa using isOption_letter hletters hkind _
    · next hkind => simpa using isOption_letter hletters hkind _
    · next hkind => simpa using isOption_letter hletters hkind _
    · exact hname _ _
    · next token more _ =>
      by_cases hempty : token = ""
      · simp [hempty]
      · rw [if_neg hempty]
        exact hname token more
    · simpa using isOption_failed _ _
    · simpa using isOption_failed _ _

theorem isOption_parseOption (element : String) (ahead : List String) :
    ∀ finding ∈ (parseOption grammar element ahead).findings,
      finding.IsOption grammar.letters := by
  unfold parseOption
  split
  · exact isOption_parseName hvalues _ _
  · exact isOption_parseLetters hletters hvalues _ _
  · simp

/-- Where operands are not reported, none of the findings is one. -/
theorem isOption_parse {policy : OperandPolicy} (hpolicy : policy ≠ .report)
    (elements : List String) :
    ∀ finding ∈ (parse grammar policy elements).findings policy,
      finding.IsOption grammar.letters := by
  have hoptions := isOption_parseOption hletters hvalues
  induction elements using parse_induction grammar policy with
  | nil => simp [parse, Parse.findings]
  | stop element ahead hoperand hstop =>
    subst policy
    simp [parse_stop hoperand, Parse.findings]
  | operand element ahead hoperand hnever ih =>
    rw [parse_operand hoperand hnever, Parse.findings_cons]
    simpa [Segment.findings, hpolicy] using ih
  | marker ahead => simp [parse_marker, Parse.findings]
  | ends element ahead hoption hmarker hends =>
    rw [parse_ends hoption hmarker hends]
    simpa [Parse.findings] using hoptions element ahead
  | option element ahead hoption hmarker hends ih =>
    rw [parse_option hoption hmarker hends, Parse.findings_cons]
    exact List.forall_mem_append.mpr ⟨hoptions element ahead, ih⟩

end Codes

/-- Findings `all` that are made of findings `others`, none of them an operand, and of the operands
`texts`, each in its order. -/
inductive Finding.Interleaves (letters : OptionString) :
    (texts : List String) → (others all : List Finding) → Prop where
  | nil : Interleaves letters [] [] []
  | operand {texts : List String} {others all : List Finding} (text : String)
      (h : Interleaves letters texts others all) :
      Interleaves letters (text :: texts) others (.operand text :: all)
  | option {texts : List String} {others all : List Finding} {finding : Finding}
      (hoption : finding.IsOption letters) (h : Interleaves letters texts others all) :
      Interleaves letters texts (finding :: others) (finding :: all)

namespace Finding.Interleaves

variable {letters : OptionString} {texts : List String} {others all : List Finding}

theorem append {findings : List Finding} (hfindings : ∀ finding ∈ findings, finding.IsOption letters)
    (h : Interleaves letters texts others all) :
    Interleaves letters texts (findings ++ others) (findings ++ all) := by
  induction findings with
  | nil => exact h
  | cons finding rest ih =>
    obtain ⟨hfirst, hrest⟩ := List.forall_mem_cons.mp hfindings
    exact .option hfirst (ih hrest)

theorem items_others (h : Interleaves letters texts others all) :
    (all.map (Finding.item letters)).filter (·.code ≠ .operand) =
      others.map (Finding.item letters) := by
  induction h with
  | nil => rfl
  | operand text _ ih => exact ih
  | option hoption _ ih =>
    rw [List.map_cons, List.filter_cons_of_pos (by simpa [IsOption] using hoption), ih,
      List.map_cons]

theorem arguments_operands (h : Interleaves letters texts others all) :
    ((all.map (Finding.item letters)).filter (·.code = .operand)).filterMap Item.argument =
      texts := by
  induction h with
  | nil => rfl
  | operand text _ ih =>
    rw [List.map_cons, List.filter_cons_of_pos (by rfl), List.filterMap_cons, ih]
    rfl
  | option hoption _ ih =>
    rw [List.map_cons, List.filter_cons_of_neg (by simpa [IsOption] using hoption), ih]

theorem finalCells_eq (h : Interleaves letters texts others all) (cells : List Int) :
    Finding.finalCells cells others = Finding.finalCells cells all := by
  induction h generalizing cells with
  | nil => rfl
  | operand text _ ih => exact ih cells
  | @option _ _ _ finding _ _ ih => exact ih (Store.apply cells finding.store)

theorem allDiagnostics_eq (h : Interleaves letters texts others all) (config : Config)
    (reporter : Reporter) :
    Finding.allDiagnostics config reporter letters others =
      Finding.allDiagnostics config reporter letters all := by
  induction h with
  | nil => rfl
  | operand text _ ih => exact ih.trans String.empty_append.symm
  | option _ _ ih => simp only [Finding.allDiagnostics, ih]

end Finding.Interleaves

/-- The findings of a vector with and without those of the operands. -/
theorem interleaves_parse (grammar : Grammar) (hletters : '\x01' ∉ grammar.letters.text.toList)
    (hvalues : ∀ entry ∈ grammar.table, entry.cell = none → entry.value ≠ Code.operand)
    (elements : List String) :
    let p := parse grammar .move elements
    Finding.Interleaves grammar.letters p.operands (p.findings .move) (p.findings .report) := by
  intro p
  have hoptions := isOption_parseOption hletters hvalues
  induction elements using parse_induction grammar .move with
  | nil =>
    simp only [p, parse]
    exact .nil
  | stop element ahead hoperand hpolicy => cases hpolicy
  | operand element ahead hoperand hpolicy ih =>
    simp only [p, parse_operand hoperand hpolicy]
    exact .operand element ih
  | marker ahead =>
    simp only [p, parse_marker]
    exact .nil
  | ends element ahead hoption hmarker hends =>
    simp only [p, parse_ends hoption hmarker hends]
    exact .append (hoptions element ahead) .nil
  | option element ahead hoption hmarker hends ih =>
    simp only [p, parse_option hoption hmarker hends, Parse.findings_cons,
      Segment.findings_option]
    exact .append (hoptions element ahead) ih

namespace Host

/-- Two new sessions scan the same vector, one moving the operands and one reporting them. They
answer alike but for the reported operands, leave the same flag cells and write the same
diagnostics; and the elements that the first leaves ahead of its cursor are the operands that the
second reported, followed by what that one leaves ahead. -/
theorem drain_modes_agree (config : Config) (reporter : Reporter) (letters : OptionString)
    (table : LongTable) (args : List String) (cells : List Int) (hstrict : config.strict = false)
    (hplain : letters.Plain) (hletters : '\x01' ∉ letters.text.toList)
    (hvalues : ∀ entry ∈ table, entry.cell = none → entry.value ≠ Code.operand) :
    let h : Host := { session := { config, reporter }, args, cells }
    ∃ moved reported, h.drain ⟨letters, table⟩ = .ok moved ∧
      h.drain ⟨letters.reporting, table⟩ = .ok reported ∧
      moved.getLast?.map Reply.code = some none ∧
      reported.getLast?.map Reply.code = some none ∧
      moved.filterMap Reply.item? =
        (reported.filterMap Reply.item?).filter (·.code ≠ .operand) ∧
      (h.after moved).cells = (h.after reported).cells ∧
      Output.diagnostics (moved.flatMap Reply.outputs) =
        Output.diagnostics (reported.flatMap Reply.outputs) ∧
      (h.after moved).args.drop (h.after moved).session.cursor =
        ((reported.filterMap Reply.item?).filter (·.code = .operand)).filterMap Item.argument ++
          (h.after reported).args.drop (h.after reported).session.cursor := by
  intro h
  have hmove : h.session.config.policy letters = .move := by
    simp only [h, Config.policy, hstrict, OptionString.policy_of_plain hplain]
    rfl
  have hreport : h.session.config.policy letters.reporting = .report := by
    simp only [h, Config.policy, hstrict, OptionString.policy_reporting]
    rfl
  have hstart : h.session.StartsAt 1 := Session.startsAt_new config reporter
  have hwoven := interleaves_parse ⟨letters, table⟩ hletters hvalues (h.args.drop 1)
  obtain ⟨moved, hmoved⟩ :=
    exists_drained h ⟨letters, table⟩ 1 (Nat.le_refl 1) hstart .move hmove _ rfl
  obtain ⟨reported, hreported⟩ :=
    exists_drained h ⟨letters.reporting, table⟩ 1 (Nat.le_refl 1) hstart .report hreport _
      (parse_reporting hplain table (h.args.drop 1)).symm
  have hitems := hreported.items_eq
  rw [Finding.item_reporting hplain] at hitems
  refine ⟨moved, reported, hmoved.drain_eq, hreported.drain_eq, hmoved.ended, hreported.ended, ?_,
    ?_, ?_, ?_⟩
  · rw [hmoved.items_eq, hitems]
    exact hwoven.items_others.symm
  · rw [hmoved.cells_eq, hreported.cells_eq]
    exact hwoven.finalCells_eq h.cells
  · rw [hmoved.diagnostics_eq, hreported.diagnostics_eq, Finding.allDiagnostics_reporting hplain]
    exact hwoven.allDiagnostics_eq config reporter
  · rw [hmoved.ahead_eq, hreported.ahead_eq, hitems, hwoven.arguments_operands, Parse.held_report]
    rfl

/-- Operands on both sides of a cluster with an unknown letter and of a detached argument, and an
entry whose value would be that of an operand but goes to a flag cell. -/
theorem drain_modes_agree_interleaved :
    let h : Host :=
      { args := ["prog", "in", "-axb", "v", "out", "--flag", "--", "z"], cells := [0] }
    ∃ moved reported, h.drain ⟨⟨"ab:"⟩, [⟨"flag", .none, 1, some 0⟩]⟩ = .ok moved ∧
      h.drain ⟨⟨"-ab:"⟩, [⟨"flag", .none, 1, some 0⟩]⟩ = .ok reported ∧
      moved.filterMap Reply.item? =
        (reported.filterMap Reply.item?).filter (·.code ≠ .operand) ∧
      (h.after moved).cells = (h.after reported).cells ∧
      (h.after moved).args.drop (h.after moved).session.cursor =
        ((reported.filterMap Reply.item?).filter (·.code = .operand)).filterMap Item.argument ++
          (h.after reported).args.drop (h.after reported).session.cursor := by
  obtain ⟨moved, reported, hmoved, hreported, _, _, hitems, hcells, _, hahead⟩ :=
    drain_modes_agree {} (Reporter.lines Reporter.defaultLabel) ⟨"ab:"⟩
      [⟨"flag", .none, 1, some 0⟩] ["prog", "in", "-axb", "v", "out", "--flag", "--", "z"] [0] rfl
      ⟨by decide, by decide⟩ (by decide) (by simp)
  exact ⟨moved, reported, hmoved, hreported, hitems, hcells, hahead⟩

end Host

end OptionScan
