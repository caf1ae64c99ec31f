import OptionScan.Proofs.ElementSteps

/-!
The readings of a whole scan. By induction on what is ahead of the walk, the calls find what the
parse of that part says, and the scan ends with the options, the end marker, the operands and the
rest of the vector in this order.
-/

namespace OptionScan

theorem exists_of_not_isOperand {element : String} (h : ¬ isOperand element) :
    ∃ first rest, element.toList = '-' :: first :: rest := by
  cases hlist : element.toList with
  | nil => simp [isOperand, hlist] at h
  | cons c tail =>
    cases tail with
    | nil =>
      by_cases hc : c = '-'
      · have hdash : element = "-" := by
          rw [← String.ofList_toList (s := element), hlist, hc]
        simp [isOperand, hdash] at h
      · simp [isOperand, hlist, hc] at h
    | cons first rest =>
      by_cases hc : c = '-'
      · exact ⟨first, rest, by rw [hc]⟩
      · simp [isOperand, hlist, hc] at h

theorem ofString_of_isOperand {element : String} (h : isOperand element) :
    Element.ofString element = .operand := by
  unfold Element.ofString
  split
  · next rest hlist =>
    have hdash : element ≠ "-" := by
      intro heq
      rw [heq] at hlist
      cases hlist
    simp [isOperand, hlist, hdash] at h
  · next first rest _ hlist =>
    have hdash : element ≠ "-" := by
      intro heq
      rw [heq] at hlist
      cases hlist
    simp [isOperand, hlist, hdash] at h
  · rfl

theorem ofString_name {element : String} {rest : List Char}
    (h : element.toList = '-' :: '-' :: rest) : Element.ofString element = .name := by
  simp only [Element.ofString, h]

theorem ofString_letters {element : String} {first : Char} {rest : List Char}
    (h : element.toList = '-' :: first :: rest) (hfirst : first ≠ '-') :
    Element.ofString element = .letters first rest := by
  simp [Element.ofString, h]

section Seek

variable {front options operands ahead : List String} {element : String} {w : Walk}
variable {grammar : Grammar} {policy : OperandPolicy}

theorem seek_name (h : Element.ofString element = .name) :
    Walk.seek policy (element :: ahead) w = .ok (w.closeBlock, .name) := by
  rw [Walk.seek.eq_def]
  simp only [h]

theorem seek_letters {first : Char} {rest : List Char}
    (h : Element.ofString element = .letters first rest) :
    Walk.seek policy (element :: ahead) w = .ok (w.closeBlock, .letters first rest) := by
  rw [Walk.seek.eq_def]
  simp only [h]

/-- Every option closes the block. -/
theorem seek_option (policy : OperandPolicy) (hoption : ¬ isOperand element) (ahead : List String)
    (w : Walk) :
    ∃ landing, Walk.seek policy (element :: ahead) w = .ok (w.closeBlock, landing) := by
  obtain ⟨first, rest, hlist⟩ := exists_of_not_isOperand hoption
  by_cases hfirst : first = '-'
  · subst first
    exact ⟨_, seek_name (ofString_name hlist)⟩
  · exact ⟨_, seek_letters (ofString_letters hlist hfirst)⟩

/-- A call that starts at an element, by what the walk meets. -/
def Walk.land (grammar : Grammar) : Walk × Landing → Except Fault Reading
  | (w, .finish) => .ok ⟨w, none, .ended⟩
  | (w, .operand) => .ok ⟨w.advance, none, .found .operand (some ⟨w.cursor, 0⟩) none none⟩
  | (w, .letters first rest) => w.readLetter grammar 1 first rest
  | (w, .name) => w.readName grammar.table w.cursor 2

theorem readNext_eq (hlaid : Laid front options operands ahead w) :
    w.readNext grammar policy = Walk.seek policy ahead w >>= Walk.land grammar := by
  unfold Walk.readNext
  rw [hlaid.drop_cursor]
  congr 1
  funext landed
  obtain ⟨w', landing⟩ := landed
  cases landing <;> rfl

theorem readNext_nil (grammar : Grammar) (policy : OperandPolicy)
    (hlaid : Laid front options operands [] w) :
    ∃ last, w.readNext grammar policy = .ok last ∧ last.Ends front options operands [] := by
  obtain ⟨w', hsettle, hargs, hcursor, hblock⟩ := hlaid.settle
  refine ⟨⟨w', none, .ended⟩, ?_, rfl, rfl, hargs, hcursor, hblock⟩
  rw [readNext_eq hlaid, Walk.seek, hsettle]
  rfl

/-- An operand that is passed over costs no call. -/
theorem readNext_pass (grammar : Grammar) (hoperand : isOperand element)
    (hlaid : Laid front options operands (element :: ahead) w) :
    ∃ w', w.readNext grammar .move = w'.readNext grammar .move ∧
      Laid front options (operands ++ [element]) ahead w' := by
  obtain ⟨w', hpass, hlaid'⟩ := hlaid.passOperand
  refine ⟨w', ?_, hlaid'⟩
  rw [readNext_eq hlaid, readNext_eq hlaid', Walk.seek, ofString_of_isOperand hoperand]
  simp only [hpass]
  rfl

theorem readNext_report (grammar : Grammar) (hoperand : isOperand element)
    (hlaid : Laid front options operands (element :: ahead) w) :
    w.readNext grammar .report =
      .ok ⟨w.advance, none, .found .operand (some ⟨w.cursor, 0⟩) none none⟩ := by
  rw [readNext_eq hlaid, Walk.seek, ofString_of_isOperand hoperand]
  rfl

theorem readNext_halt (grammar : Grammar) (hoperand : isOperand element)
    (hlaid : Laid front options operands (element :: ahead) w) :
    w.readNext grammar .stop = .ok ⟨w, none, .ended⟩ := by
  rw [readNext_eq hlaid, Walk.seek, ofString_of_isOperand hoperand]
  rfl

theorem readNext_stop (grammar : Grammar) (hoperand : isOperand element)
    (hlaid : Laid front options [] (element :: ahead) w) :
    ∃ last, w.readNext grammar .stop = .ok last ∧
      last.Ends front options [] (element :: ahead) := by
  refine ⟨⟨w, none, .ended⟩, readNext_halt grammar hoperand hlaid, rfl, rfl, ?_, ?_,
    hlaid.block_eq_absent⟩
  · cases hlaid with
    | clear _ _ hargs _ => simpa using hargs
    | opened _ hoperands _ _ => exact absurd rfl hoperands
    | closed _ _ _ _ hoperands _ _ => exact absurd rfl hoperands
  · cases hlaid with
    | clear _ _ _ hcursor => exact hcursor
    | opened _ hoperands _ _ => exact absurd rfl hoperands
    | closed _ _ _ _ hoperands _ _ => exact absurd rfl hoperands

theorem readNext_marker (grammar : Grammar) (policy : OperandPolicy)
    (hlaid : Laid front options operands (endMarker :: ahead) w) :
    ∃ last, w.readNext grammar policy = .ok last ∧
      last.Ends front (options ++ [endMarker]) operands ahead := by
  obtain ⟨hclosed, hshut⟩ := hlaid.closeBlock
  have hget : w.closeBlock.args[w.closeBlock.cursor]? = some endMarker := by
    simpa using hclosed.getElem?_cursor_add 0
  have hpast : Laid front (options ++ [endMarker]) operands ahead
      { w.closeBlock with cursor := w.closeBlock.cursor + 1 } := hclosed.advance hshut
  obtain ⟨w', hsettle, hargs, hcursor, hblock⟩ := hpast.settle
  refine ⟨⟨w', none, .ended⟩, ?_, rfl, rfl, hargs, hcursor, hblock⟩
  rw [readNext_eq hlaid, seek_name (@ofString_name endMarker [] rfl)]
  show w.closeBlock.readName grammar.table w.closeBlock.cursor 2 = _
  unfold Walk.readName
  have hwidth : byteWidth endMarker.toList ≤ 2 := by decide
  simp only [hget, if_pos hwidth, hsettle]
  rfl

/-- The first of the calls that read an option, behind its one dash or its two. -/
theorem readNext_option_reads (grammar : Grammar) (policy : OperandPolicy)
    (hoption : ¬ isOperand element) (hmarker : element ≠ endMarker)
    (hlaid : Laid front options operands (element :: ahead) w) :
    ∃ r, w.readNext grammar policy = .ok r ∧
      r.Reads grammar front options operands ahead element 1
        (parseOption grammar element ahead) := by
  obtain ⟨hclosed, hshut⟩ := hlaid.closeBlock
  obtain ⟨first, rest, hlist⟩ := exists_of_not_isOperand hoption
  rw [readNext_eq hlaid]
  by_cases hfirst : first = '-'
  · subst first
    have hparts : element.toList = ['-', '-'] ++ (String.ofList rest).toList := by
      simp [hlist]
    rw [seek_name (ofString_name hlist), parseOption_name grammar hlist]
    obtain ⟨r, hread, hcovers⟩ := readName_covers grammar.table hclosed hshut hparts
      (token_ne_empty hlist hmarker)
    exact ⟨r, hread, .whole hcovers⟩
  · have hparts : element.toList = ['-'] ++ first :: rest := hlist
    rw [seek_letters (ofString_letters hlist hfirst), parseOption_letters grammar hlist hfirst]
    exact readLetter_reads grammar hclosed hshut hparts

theorem readNext_option (grammar : Grammar) (policy : OperandPolicy)
    (hfront : 0 < front.length) (hoption : ¬ isOperand element) (hmarker : element ≠ endMarker)
    (hlaid : Laid front options operands (element :: ahead) w) :
    ReadsAs grammar policy front options operands ahead element
      (parseOption grammar element ahead) (w.readNext grammar policy) := by
  obtain ⟨r, hread, hreads⟩ := readNext_option_reads grammar policy hoption hmarker hlaid
  rw [hread]
  exact hreads.readsAs policy hfront

end Seek

/-- The calls of a scan find what the parse says, and the scan ends where the parse ends. -/
theorem readNext_parse {front : List String} (grammar : Grammar) (policy : OperandPolicy)
    (hfront : 0 < front.length) (ahead : List String) {options operands : List String} {w : Walk}
    (hlaid : Laid front options operands ahead w) (hheld : policy ≠ .move → operands = []) :
    ∃ rs last, Steps grammar policy (w.readNext grammar policy) rs (.ok last) ∧
      rs.filterMap Reading.finding? = (parse grammar policy ahead).findings policy ∧
      last.Ends front
        (options ++ (parse grammar policy ahead).passed policy ++
          (parse grammar policy ahead).marker.toList)
        (operands ++ (parse grammar policy ahead).held policy)
        (parse grammar policy ahead).rest := by
  -- How the vector lies is the invariant; operands wait only where they are moved.
  induction ahead using parse_induction grammar policy generalizing options operands w with
  | nil =>
    obtain ⟨last, hread, hends⟩ := readNext_nil grammar policy hlaid
    refine ⟨[], last, hread ▸ .refl _, ?_, ?_⟩
    · simp [parse, Parse.findings]
    · simpa [parse, Parse.passed, Parse.held] using hends
  | stop element ahead hoperand hpolicy =>
    subst policy
    have hnone : operands = [] := hheld (by decide)
    subst operands
    obtain ⟨last, hread, hends⟩ := readNext_stop grammar hoperand hlaid
    refine ⟨[], last, hread ▸ .refl _, ?_, ?_⟩
    · simp [parse_stop hoperand, Parse.findings]
    · simpa [parse_stop hoperand, Parse.passed, Parse.held] using hends
  | operand element ahead hoperand hpolicy ih =>
    rw [parse_operand hoperand hpolicy]
    cases policy with
    | stop => exact absurd rfl hpolicy
    | move =>
      obtain ⟨w', hread, hlaid'⟩ := readNext_pass grammar hoperand hlaid
      obtain ⟨rs, last, hsteps, hfindings, hends⟩ := ih hlaid' (fun h => absurd rfl h)
      refine ⟨rs, last, hread ▸ hsteps, ?_, ?_⟩
      · simpa [Segment.findings] using hfindings
      · simpa [Segment.passed, Segment.held, Segment.optionElements, Segment.operands] using hends
    | report =>
      have hnone : operands = [] := hheld (by decide)
      subst operands
      have hlaid' := hlaid.advance (Walk.shut_of_absent hlaid.block_eq_absent)
      obtain ⟨rs, last, hsteps, hfindings, hends⟩ :=
        ih (hlaid'.of_outputs []) (fun _ => rfl)
      have hget : w.args[w.cursor]? = some element := by
        simpa using hlaid.getElem?_cursor_add 0
      have hcursor : 1 ≤ w.advance.cursor := Nat.le_add_left ..
      rw [readNext_report grammar hoperand hlaid]
      refine ⟨_ :: rs, last, Steps.step ?_ ⟨hcursor, Or.inl rfl⟩ hsteps, ?_, ?_⟩
      · exact Outcome.noConfusion
      · simp [Segment.findings, Reading.finding?, Outcome.finding?, Walk.advance,
          Location.text?_whole hget, Finding.operand, hfindings]
      · simpa [Segment.passed, Segment.held, Segment.elements] using hends
  | marker ahead =>
    obtain ⟨last, hread, hends⟩ := readNext_marker grammar policy hlaid
    refine ⟨[], last, hread ▸ .refl _, ?_, ?_⟩
    · simp [parse_marker, Parse.findings]
    · simpa [parse_marker, Parse.passed, Parse.held] using hends
  | ends element ahead hoption hmarker hends =>
    obtain ⟨rs, target, hsteps, hfindings, hlands⟩ :=
      readNext_option grammar policy hfront hoption hmarker hlaid
    rw [parse_ends hoption hmarker hends]
    cases hlands with
    | goesOn w' hgoes _ _ => exact absurd (hgoes.symm.trans hends) (by decide)
    | ends last _ hlast =>
      refine ⟨rs, last, hsteps, ?_, ?_⟩
      · simpa [Parse.findings] using hfindings
      · simpa [Parse.passed, Parse.held] using hlast
  | option element ahead hoption hmarker hends ih =>
    obtain ⟨rs, target, hsteps, hfindings, hlands⟩ :=
      readNext_option grammar policy hfront hoption hmarker hlaid
    rw [parse_option hoption hmarker hends]
    cases hlands with
    | ends last hstops _ => exact absurd (hends.symm.trans hstops) (by decide)
    | goesOn w' _ hlaid' _ =>
      obtain ⟨rs', last, hsteps', hfindings', hlast⟩ := ih hlaid' hheld
      refine ⟨rs ++ rs', last, hsteps.trans hsteps', ?_, ?_⟩
      · rw [List.filterMap_append, hfindings, hfindings']
        simp
      · simpa using hlast

end OptionScan
