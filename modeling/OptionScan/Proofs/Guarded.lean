import OptionScan.Proofs.Histories

/-!
The same call with a guard at every place where a machine could refuse it. Elements are read from
the vector as it is at that moment, by an index that must be one of the vector; a name must start
between two characters; the cursor, which is moved one element at a time, must stay below a bound;
and every swap of an exchange must stay inside the vector. From whatever state a history leads to,
the guards change nothing, and a call fails in one way alone.
-/

namespace OptionScan

inductive Trap where
  | fault (fault : Fault)
  | overflow (cursor : Nat)
  deriving DecidableEq, Repr

namespace Guarded

def lift {α : Type} (x : Except Fault α) : Except Trap α :=
  x.mapError .fault

def elementAt (args : List String) (index : Nat) : Except Trap String :=
  match args[index]? with
  | some element => .ok element
  | none => .error (.fault (.noElement index args.length))

def successor (bound cursor : Nat) : Except Trap Nat :=
  if cursor + 1 < bound then .ok (cursor + 1) else .error (.overflow (cursor + 1))

def advance (bound : Nat) (w : Walk) : Except Trap Walk := do
  let cursor ← successor bound w.cursor
  .ok { w with cursor }

def moveBlock (w : Walk) (start stop : Nat) : Except Trap (Walk × Nat) := do
  let moved ← lift (w.moveBlock start stop)
  if ∀ swap ∈ swaps start stop w.cursor, swap.1 < w.args.length ∧ swap.2 < w.args.length then
    .ok moved
  else
    .error (.fault (.noElement w.cursor w.args.length))

def settle (w : Walk) : Except Trap Walk :=
  match w.block with
  | .absent => .ok w
  | .opened start => .ok { w with cursor := start, block := .absent }
  | .closed start stop => do
    let (w, start) ← moveBlock w start stop
    .ok { w with cursor := start, block := .absent }

def skip (bound : Nat) (w : Walk) (start : Nat) : Except Trap Walk := do
  let cursor ← successor bound w.cursor
  .ok { w.skip start with cursor }

def passOperand (bound : Nat) (w : Walk) : Except Trap Walk :=
  match w.block with
  | .absent => skip bound w w.cursor
  | .opened start => skip bound w start
  | .closed start stop => do
    let (w, start) ← moveBlock w start stop
    skip bound w start

def seek (bound : Nat) (policy : OperandPolicy) :
    (remaining : Nat) → Walk → Except Trap (Walk × Landing)
  | 0, w => do
    let w ← settle w
    .ok (w, .finish)
  | remaining + 1, w => do
    let element ← elementAt w.args w.cursor
    match Element.ofString element with
    | .letters first more => .ok (w.closeBlock, .letters first more)
    | .name => .ok (w.closeBlock, .name)
    | .operand =>
      match policy with
      | .report => .ok (w, .operand)
      | .stop => .ok (w, .finish)
      | .move => do
        let w ← passOperand bound w
        seek bound policy remaining w

def readEntry (bound : Nat) (w : Walk) (index offset : Nat) (token : String)
    (found : Resolution) : Except Trap Reading :=
  match found.entry.argument, found.value with
  | .required, none =>
    if w.cursor < w.args.length then do
      let past ← advance bound w
      .ok ⟨past, none, .entry found (some ⟨w.cursor, 0⟩)⟩
    else
      .ok (w.readEntry index offset token found)
  | _, _ => .ok (w.readEntry index offset token found)

def readName (bound : Nat) (w : Walk) (table : LongTable) (index offset : Nat) :
    Except Trap Reading := do
  let element ← elementAt w.args index
  let cursor ← successor bound index
  let w := { w with cursor }
  if byteWidth element.toList ≤ offset then do
    let w ← settle w
    .ok ⟨w, none, .ended⟩
  else
    match dropBytes? element.toList offset with
    | none => .error (.fault (.noBoundary offset))
    | some rest =>
      let token := String.ofList rest
      match table.resolve token with
      | .error error => .ok ⟨w, none, .failed error 0⟩
      | .ok found => readEntry bound w index offset token found

def afterLetter (bound : Nat) (w : Walk) (next : Nat) (rest : List Char) (outcome : Outcome) :
    Except Trap Reading :=
  match rest with
  | [] => do
    let w ← advance bound w
    .ok ⟨w, none, outcome⟩
  | _ :: _ => .ok ⟨w, some next, outcome⟩

def readLetter (bound : Nat) (w : Walk) (grammar : Grammar) (offset : Nat) (letter : Char)
    (rest : List Char) : Except Trap Reading :=
  let next := offset + letter.utf8Size
  match grammar.letters.kind? letter, rest with
  | none, _ =>
    afterLetter bound w next rest (.failed (.unknownLetter letter) (.ofChar letter))
  | some .flag, _ =>
    afterLetter bound w next rest (.letter letter none)
  | some .required, _ :: _ | some .optional, _ :: _ => do
    let past ← advance bound w
    .ok ⟨past, none, .letter letter (some ⟨w.cursor, next⟩)⟩
  | some .optional, [] => do
    let past ← advance bound w
    .ok ⟨past, none, .letter letter none⟩
  | some .required, [] => do
    let w ← advance bound w
    if w.cursor < w.args.length then do
      let past ← advance bound w
      .ok ⟨past, none, .letter letter (some ⟨w.cursor, 0⟩)⟩
    else
      .ok ⟨w, none, .failed (.missingLetterArgument letter) (.ofChar letter)⟩
  | some .introducesName, _ :: _ =>
    readName bound w grammar.table w.cursor next
  | some .introducesName, [] => do
    let w ← advance bound w
    if w.cursor < w.args.length then
      readName bound w grammar.table w.cursor 0
    else
      .ok ⟨w, none, .failed (.missingLetterArgument letter) (.ofChar letter)⟩

def land (bound : Nat) (grammar : Grammar) : Walk × Landing → Except Trap Reading
  | (w, .finish) => .ok ⟨w, none, .ended⟩
  | (w, .operand) => do
    let past ← advance bound w
    .ok ⟨past, none, .found .operand (some ⟨w.cursor, 0⟩) none none⟩
  | (w, .letters first rest) => readLetter bound w grammar 1 first rest
  | (w, .name) => readName bound w grammar.table w.cursor 2

def readNext (bound : Nat) (w : Walk) (grammar : Grammar) (policy : OperandPolicy) :
    Except Trap Reading := do
  let landed ← seek bound policy (w.args.length - w.cursor) w
  land bound grammar landed

def resume (bound : Nat) (w : Walk) (grammar : Grammar) (policy : OperandPolicy) (offset : Nat) :
    Except Trap Reading := do
  let element ← elementAt w.args w.cursor
  match dropBytes? element.toList offset with
  | some (letter :: rest) => readLetter bound w grammar offset letter rest
  | some [] | none => do
    let w ← advance bound w
    readNext bound w grammar policy

def reading (bound : Nat) (h : Host) (grammar : Grammar) : Except Trap Reading :=
  let policy := h.session.config.policy grammar.letters
  match h.startOffset with
  | none => readNext bound h.start grammar policy
  | some offset => resume bound h.start grammar policy offset

def call (bound : Nat) (h : Host) (grammar : Grammar) : Except Trap Reply := do
  let r ← reading bound h grammar
  .ok (h.reply grammar r)

section Lift

variable {α β : Type}

@[simp] theorem lift_ok (a : α) : lift (.ok a) = .ok a := rfl

theorem lift_bind (x : Except Fault α) (f : α → Except Fault β) :
    lift (x >>= f) = lift x >>= fun a => lift (f a) := by
  cases x <;> rfl

end Lift

theorem elementAt_eq {args : List String} {index : Nat} {element : String}
    (hget : args[index]? = some element) : elementAt args index = .ok element := by
  simp only [elementAt, hget]

/-- A block is moved by swaps inside the vector, if it is moved at all. -/
theorem moveBlock_eq (w : Walk) (start stop : Nat) :
    moveBlock w start stop = lift (w.moveBlock start stop) := by
  unfold moveBlock
  cases hmove : w.moveBlock start stop with
  | error fault => rfl
  | ok moved =>
    obtain ⟨args, hexchange, _⟩ := exists_of_bind_ok hmove
    have hbounds : start ≤ stop ∧ stop ≤ w.cursor ∧ w.cursor ≤ w.args.length := by
      unfold exchange at hexchange
      split at hexchange
      · assumption
      · cases hexchange
    obtain ⟨hstart, hstop, hcursor⟩ := hbounds
    have hswaps : ∀ swap ∈ swaps start stop w.cursor,
        swap.1 < w.args.length ∧ swap.2 < w.args.length := by
      intro swap hswap
      obtain ⟨hslot, hanchor⟩ := Slots.swaps_lt hstart hstop swap hswap
      omega
    simp only [lift_ok, bind, Except.bind, if_pos hswaps]

theorem cursor_moveBlock {w w' : Walk} {start stop first : Nat}
    (h : w.moveBlock start stop = .ok (w', first)) : w'.cursor = w.cursor := by
  obtain ⟨args, _, hmoved⟩ := exists_of_bind_ok h
  by_cases hsize : stop - start ≤ w.cursor
  · rw [if_pos hsize] at hmoved
    cases hmoved
    rfl
  · rw [if_neg hsize] at hmoved
    cases hmoved

theorem settle_eq (w : Walk) : settle w = lift w.settle := by
  unfold settle Walk.settle
  cases w.block with
  | absent => rfl
  | opened start => rfl
  | closed start stop =>
    simp only [moveBlock_eq, lift_bind]
    rfl

section Word

variable {bound : Nat} {w : Walk}

theorem successor_eq {cursor : Nat} (h : cursor + 1 < bound) :
    successor bound cursor = .ok (cursor + 1) :=
  if_pos h

variable (hbound : w.args.length < bound)
include hbound

theorem advance_eq (hcursor : w.cursor < w.args.length) : advance bound w = .ok w.advance := by
  have hnext : w.cursor + 1 < bound := by omega
  unfold advance
  rw [successor_eq hnext]
  rfl

theorem passOperand_eq (hcursor : w.cursor < w.args.length) :
    passOperand bound w = lift w.passOperand := by
  have hnext : w.cursor + 1 < bound := by omega
  unfold passOperand Walk.passOperand
  cases w.block with
  | absent =>
    simp only [skip, successor_eq hnext]
    rfl
  | opened start =>
    simp only [skip, successor_eq hnext]
    rfl
  | closed start stop =>
    simp only [moveBlock_eq, lift_bind]
    cases hmove : w.moveBlock start stop with
    | error fault => rfl
    | ok moved =>
      obtain ⟨w', first⟩ := moved
      have hsame := cursor_moveBlock hmove
      simp only [lift_ok, bind, Except.bind, skip, hsame, successor_eq hnext]
      rw [← hsame]
      rfl

theorem readEntry_eq (index offset : Nat) (token : String) (found : Resolution) :
    readEntry bound w index offset token found =
      .ok (w.readEntry index offset token found) := by
  unfold readEntry
  split
  · next hrule hvalue =>
    split
    · next hcursor =>
      rw [advance_eq hbound hcursor]
      simp only [Walk.readEntry, hrule, hvalue, if_pos hcursor]
      rfl
    · rfl
  · rfl

theorem readName_eq (table : LongTable) (index offset : Nat) :
    readName bound w table index offset = lift (w.readName table index offset) := by
  unfold readName Walk.readName elementAt
  cases hget : w.args[index]? with
  | none => rfl
  | some element =>
    have hindex : index < w.args.length := (List.getElem?_eq_some_iff.mp hget).1
    have hnext : index + 1 < bound := by omega
    simp only [successor_eq hnext, bind, Except.bind]
    split
    · rw [settle_eq]
      cases Walk.settle { w with cursor := index + 1 } <;> rfl
    · cases dropBytes? element.toList offset with
      | none => rfl
      | some rest =>
        simp only
        cases table.resolve (String.ofList rest) with
        | error error => rfl
        | ok found => exact readEntry_eq (w := { w with cursor := index + 1 }) hbound ..

theorem afterLetter_eq (hcursor : w.cursor < w.args.length) (next : Nat) (rest : List Char)
    (outcome : Outcome) :
    afterLetter bound w next rest outcome = .ok (w.afterLetter next rest outcome) := by
  cases rest with
  | nil =>
    simp only [afterLetter, advance_eq hbound hcursor]
    rfl
  | cons second more => rfl

theorem readLetter_eq (hcursor : w.cursor < w.args.length) (grammar : Grammar) (offset : Nat)
    (letter : Char) (rest : List Char) :
    readLetter bound w grammar offset letter rest =
      lift (w.readLetter grammar offset letter rest) := by
  have hadvance := advance_eq hbound hcursor
  unfold readLetter Walk.readLetter
  cases hkind : grammar.letters.kind? letter with
  | none => simp only [afterLetter_eq hbound hcursor, lift_ok]
  | some kind =>
    cases kind with
    | flag => simp only [afterLetter_eq hbound hcursor, lift_ok]
    | optional =>
      cases rest with
      | nil =>
        simp only [hadvance]
        rfl
      | cons second more =>
        simp only [hadvance]
        rfl
    | required =>
      cases rest with
      | cons second more =>
        simp only [hadvance]
        rfl
      | nil =>
        by_cases hnext : w.cursor + 1 < w.args.length
        · have hnext' : w.advance.cursor < w.advance.args.length := hnext
          have hadvance' := advance_eq (w := w.advance) hbound hnext'
          simp only [hadvance, if_pos hnext, if_pos hnext', hadvance', bind, Except.bind]
          rfl
        · have hnext' : ¬ w.advance.cursor < w.advance.args.length := hnext
          simp only [hadvance, if_neg hnext, if_neg hnext', bind, Except.bind]
          rfl
    | introducesName =>
      cases rest with
      | cons second more => exact readName_eq hbound ..
      | nil =>
        by_cases hnext : w.cursor + 1 < w.args.length
        · have hnext' : w.advance.cursor < w.advance.args.length := hnext
          have hname := readName_eq (w := w.advance) hbound grammar.table w.advance.cursor 0
          simp only [hadvance, if_pos hnext, if_pos hnext', bind, Except.bind]
          exact hname
        · have hnext' : ¬ w.advance.cursor < w.advance.args.length := hnext
          simp only [hadvance, if_neg hnext, if_neg hnext', bind, Except.bind]
          rfl

end Word

section Reading

variable {bound : Nat} {front options operands ahead : List String} {w : Walk}

theorem land_eq (hbound : w.args.length < bound) (hcursor : w.cursor < w.args.length)
    (grammar : Grammar) (landing : Landing) :
    land bound grammar (w, landing) = lift (Walk.land grammar (w, landing)) := by
  cases landing with
  | finish => rfl
  | operand =>
    simp only [land, advance_eq hbound hcursor]
    rfl
  | letters first rest => exact readLetter_eq hbound hcursor ..
  | name => exact readName_eq hbound ..

/-- The walk reads the elements afresh from a vector that it changes; behind the cursor alone. -/
theorem seek_land_eq (grammar : Grammar) (policy : OperandPolicy) (ahead : List String)
    (hbound : w.args.length < bound) (hlaid : Laid front options operands ahead w) :
    (seek bound policy ahead.length w >>= land bound grammar) =
      lift (Walk.seek policy ahead w >>= Walk.land grammar) := by
  induction ahead generalizing operands w with
  | nil =>
    rw [List.length_nil, seek, Walk.seek, settle_eq]
    cases w.settle <;> rfl
  | cons element ahead ih =>
    have hlength := hlaid.length_args
    simp only [List.length_cons] at hlength
    have hcursor : w.cursor < w.args.length := by omega
    have hget : w.args[w.cursor]? = some element := by
      simpa using hlaid.getElem?_cursor_add 0
    have hclosedBound : w.closeBlock.args.length < bound := by simpa using hbound
    have hclosedCursor : w.closeBlock.cursor < w.closeBlock.args.length := by simpa using hcursor
    rw [List.length_cons, seek.eq_def, Walk.seek.eq_def]
    simp only [elementAt_eq hget, bind, Except.bind]
    cases Element.ofString element with
    | letters first rest => exact land_eq hclosedBound hclosedCursor grammar _
    | name => exact land_eq hclosedBound hclosedCursor grammar _
    | operand =>
      cases policy with
      | report => exact land_eq hbound hcursor grammar _
      | stop => exact land_eq hbound hcursor grammar _
      | move =>
        obtain ⟨w', hpass, hlaid'⟩ := hlaid.passOperand
        have hsame : w'.args.length = w.args.length := by
          rw [hlaid.length_args_eq, hlaid'.length_args_eq]
          simp only [List.length_append, List.length_cons, List.length_nil]
          omega
        simp only [passOperand_eq hbound hcursor, hpass, lift_ok]
        exact ih (by omega) hlaid'

theorem readNext_eq (grammar : Grammar) (policy : OperandPolicy)
    (hbound : w.args.length < bound) (hlaid : Laid front options operands ahead w) :
    readNext bound w grammar policy = lift (w.readNext grammar policy) := by
  have hlength := hlaid.length_args
  have hremaining : w.args.length - w.cursor = ahead.length := by omega
  rw [OptionScan.readNext_eq hlaid, ← seek_land_eq grammar policy ahead hbound hlaid]
  unfold readNext
  rw [hremaining]

theorem resume_eq {element : String} (grammar : Grammar) (policy : OperandPolicy) (offset : Nat)
    (hbound : w.args.length < bound) (hlaid : Laid front options operands (element :: ahead) w)
    (hshut : w.Shut) :
    resume bound w grammar policy offset = lift (w.resume grammar policy offset) := by
  have hlength := hlaid.length_args
  simp only [List.length_cons] at hlength
  have hcursor : w.cursor < w.args.length := by omega
  have hget : w.args[w.cursor]? = some element := by
    simpa using hlaid.getElem?_cursor_add 0
  have hgiven := readNext_eq (w := w.advance) grammar policy hbound (hlaid.advance hshut)
  unfold resume Walk.resume
  simp only [elementAt_eq hget, hget, bind, Except.bind, advance_eq hbound hcursor]
  cases dropBytes? element.toList offset with
  | none => exact hgiven
  | some text =>
    cases text with
    | nil => exact hgiven
    | cons letter rest => exact readLetter_eq hbound hcursor ..

end Reading

theorem reading_eq {bound : Nat} {h : Host} (hsound : h.session.Sound)
    (hbound : h.args.length < bound) (grammar : Grammar) :
    reading bound h grammar = lift (h.reading grammar) := by
  unfold reading
  rcases Nat.lt_or_ge h.start.cursor h.args.length with hwithin | hpast
  · obtain ⟨front, options, operands, _, hlaid⟩ :=
      Host.start_laid hsound (Nat.le_of_lt hwithin)
    rw [Host.reading_eq]
    cases hoffset : h.startOffset with
    | none => exact readNext_eq grammar _ hbound hlaid
    | some offset =>
      obtain ⟨element, rest, hahead⟩ :
          ∃ element rest, h.args.drop h.start.cursor = element :: rest :=
        List.exists_cons_of_ne_nil (by simpa using hwithin)
      rw [hahead] at hlaid
      exact resume_eq grammar _ offset hbound hlaid (Host.start_shut hsound)
  · have hzero : h.start.args.length - h.start.cursor = 0 := Nat.sub_eq_zero_of_le hpast
    rw [Host.reading_of_past hpast, Host.startOffset_of_past hpast]
    show (seek bound _ (h.start.args.length - h.start.cursor) h.start >>= land bound grammar) = _
    rw [hzero, seek, settle_eq]
    cases h.start.settle <;> rfl

/-- In a sound session the guards of a call change nothing. -/
theorem call_eq {bound : Nat} {h : Host} (hsound : h.session.Sound)
    (hbound : h.args.length < bound) (grammar : Grammar) :
    call bound h grammar = lift (h.call grammar) := by
  unfold call
  rw [reading_eq hsound hbound]
  cases hreading : h.reading grammar with
  | error fault =>
    rw [Host.call_of_error hreading]
    rfl
  | ok r =>
    rw [Host.call_of_reading hreading]
    rfl

end Guarded

def Operation.Scans : Operation → Prop
  | .call _ => True
  | .collect _ limit => 0 < limit
  | _ => False

namespace Host

theorem perform_error_iff {h : Host} (hsound : h.session.Sound) (operation : Operation)
    (fault : Fault) :
    h.perform operation = .error fault ↔ operation.Scans ∧ ∃ first stop, h.Stranded first stop ∧
      fault = .badBounds first stop h.session.cursor h.args.length := by
  cases operation with
  | call grammar =>
    rw [← call_error_iff hsound grammar fault]
    simp only [Operation.Scans, true_and, perform]
    cases h.call grammar with
    | error other => simp only [bind, Except.bind, Except.error.injEq]
    | ok reply => simp [bind, Except.bind]
  | collect grammar limit =>
    have hcollect := collect_error_iff hsound grammar limit fault
    simp only [Operation.Scans, perform]
    rw [← hcollect]
    cases h.collect grammar limit with
    | error other => simp only [bind, Except.bind, Except.error.injEq]
    | ok replies => simp [bind, Except.bind]
  | setCursor cursor => simp [perform, Operation.Scans]
  | requestReset => simp [perform, Operation.Scans]
  | setArgs args => simp [perform, Operation.Scans]
  | setReportErrors on => simp [perform, Operation.Scans]
  | setReporter reporter => simp [perform, Operation.Scans]

/-- After whatever history of operations, an operation breaks off if and only if it makes a call
while no reset is requested, a closed block waits and the cursor is past the end of the vector; the
fault is then that of the bounds of the block. No index leaves the vector, no name starts inside a
character and the cursor neither falls below zero nor outgrows a machine word: a call that is
guarded against all of these is the same call. -/
theorem perform_fails_iff {h : Host} (hreach : h.Reachable) :
    (∀ operation fault, h.perform operation = .error fault ↔
      operation.Scans ∧ h.session.resetRequested = false ∧ ∃ first stop,
        h.session.block = .closed first stop ∧ h.args.length < h.session.cursor ∧
        fault = .badBounds first stop h.session.cursor h.args.length) ∧
    (h.args.length < 2 ^ 64 → ∀ grammar,
      Guarded.call (2 ^ 64) h grammar = Guarded.lift (h.call grammar)) := by
  refine ⟨?_, fun hword grammar => Guarded.call_eq hreach.sound hword grammar⟩
  intro operation fault
  rw [perform_error_iff hreach.sound]
  constructor
  · rintro ⟨hscans, first, stop, ⟨hreset, hclosed, hpast⟩, hfault⟩
    exact ⟨hscans, hreset, first, stop, hclosed, hpast, hfault⟩
  · rintro ⟨hscans, hreset, first, stop, hclosed, hpast, hfault⟩
    exact ⟨hscans, first, stop, ⟨hreset, hclosed, hpast⟩, hfault⟩

/-- The vector is replaced by a shorter one while a block waits. -/
theorem perform_fails_after_shorter_vector :
    ∃ replies h, Host.run { args := ["prog", "in", "-a", "out"] }
        [.call ⟨⟨"a"⟩, []⟩, .setArgs ["prog"]] = .ok (replies, h) ∧
      h.perform (.collect ⟨⟨"-b:"⟩, []⟩ 5) = .error (.badBounds 1 2 3 1) ∧
      Guarded.call (2 ^ 64) h ⟨⟨"-b:"⟩, []⟩ = .error (.fault (.badBounds 1 2 3 1)) := by
  obtain ⟨replies, h, hrun, hreset, hblock, hcursor, hargs⟩ : ∃ replies h,
      Host.run { args := ["prog", "in", "-a", "out"] }
        [.call ⟨⟨"a"⟩, []⟩, .setArgs ["prog"]] = .ok (replies, h) ∧
      h.session.resetRequested = false ∧ h.session.block = .closed 1 2 ∧
      h.session.cursor = 3 ∧ h.args = ["prog"] :=
    ⟨_, _, rfl, rfl, rfl, rfl, rfl⟩
  have hreach : h.Reachable :=
    ⟨{}, Reporter.lines Reporter.defaultLabel, ["prog", "in", "-a", "out"], [], _, replies, hrun⟩
  have hpast : h.args.length < h.session.cursor := by
    rw [hargs, hcursor]
    decide
  have hword : h.args.length < 2 ^ 64 := by
    rw [hargs]
    decide
  obtain ⟨hfails, hguarded⟩ := perform_fails_iff hreach
  have hcall : h.call ⟨⟨"-b:"⟩, []⟩ = .error (.badBounds 1 2 3 1) := by
    apply (call_error_iff hreach.sound _ _).mpr
    refine ⟨1, 2, ⟨hreset, hblock, hpast⟩, ?_⟩
    rw [hargs, hcursor]
    rfl
  refine ⟨replies, h, hrun, (hfails _ _).mpr ⟨Nat.succ_pos 4, hreset, 1, 2, hblock, hpast, ?_⟩, ?_⟩
  · rw [hargs, hcursor]
    rfl
  · rw [hguarded hword, hcall]
    rfl

end Host

end OptionScan
