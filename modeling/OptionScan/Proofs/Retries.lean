import OptionScan.Proofs.Histories

/-!
A call as passes over the vector. Each pass looks for a letter at a byte position of an element, and
gives the element up if it has none there, which happens where another vector was read before; the
call then starts over behind the element. The pass that starts over finds its letter right behind
the dash of an option, so a call never starts over twice.
-/

namespace OptionScan

inductive Pass where
  | read (reading : Reading)
  /-- The walk is past the element that was given up. -/
  | gaveUp (w : Walk)

namespace Walk

def passAt (w : Walk) (grammar : Grammar) (offset : Nat) : Except Fault Pass :=
  match w.args[w.cursor]? with
  | none => .error (.noElement w.cursor w.args.length)
  | some element =>
    match dropBytes? element.toList offset with
    | some (letter :: rest) => (w.readLetter grammar offset letter rest).map .read
    | some [] | none => .ok (.gaveUp w.advance)

def passFrom (grammar : Grammar) : Walk × Landing → Except Fault Pass
  | (w, .letters _ _) => w.passAt grammar 1
  | landed => (land grammar landed).map .read

def pass (w : Walk) (grammar : Grammar) (policy : OperandPolicy) :
    Option Nat → Except Fault Pass
  | none => seek policy (w.args.drop w.cursor) w >>= passFrom grammar
  | some offset => w.passAt grammar offset

def scan (grammar : Grammar) (policy : OperandPolicy) :
    (retries : Nat) → Walk → Option Nat → Except Fault (Option Reading)
  | 0, w, offset => do
    match ← w.pass grammar policy offset with
    | .read r => .ok (some r)
    | .gaveUp _ => .ok none
  | retries + 1, w, offset => do
    match ← w.pass grammar policy offset with
    | .read r => .ok (some r)
    | .gaveUp past => scan grammar policy retries past none

variable {front options operands ahead : List String} {w : Walk} {grammar : Grammar}
  {policy : OperandPolicy}

theorem ofString_eq_letters {element : String} {first : Char} {rest : List Char}
    (h : Element.ofString element = .letters first rest) :
    element.toList = '-' :: first :: rest := by
  unfold Element.ofString at h
  split at h
  · cases h
  · next hlist =>
    cases h
    exact hlist
  · cases h

/-- Where a walk comes to letters, they stand behind the dash of the element under the cursor. -/
theorem passFrom_seek (hlaid : Laid front options operands ahead w) :
    (seek policy ahead w >>= passFrom grammar) =
      (seek policy ahead w >>= land grammar).map Pass.read := by
  induction ahead generalizing operands w with
  | nil =>
    rw [seek]
    cases w.settle <;> rfl
  | cons element ahead ih =>
    have hget : w.args[w.cursor]? = some element := by
      simpa using hlaid.getElem?_cursor_add 0
    rw [seek.eq_def]
    simp only
    cases helement : Element.ofString element with
    | letters first rest =>
      have hdrop : dropBytes? element.toList 1 = some (first :: rest) := by
        rw [ofString_eq_letters helement]
        exact dropBytes?_append ['-'] (first :: rest)
      show w.closeBlock.passAt grammar 1 = (w.closeBlock.readLetter grammar 1 first rest).map .read
      simp only [passAt, args_closeBlock, cursor_closeBlock, hget, hdrop]
    | name => rfl
    | operand =>
      cases policy with
      | report => rfl
      | stop => rfl
      | move =>
        obtain ⟨w', hpass, hlaid'⟩ := hlaid.passOperand
        simp only [hpass, bind, Except.bind] at ih ⊢
        exact ih hlaid'

theorem pass_none (hlaid : Laid front options operands ahead w) :
    w.pass grammar policy none = (w.readNext grammar policy).map .read := by
  rw [readNext_eq hlaid, ← passFrom_seek hlaid]
  unfold pass
  rw [hlaid.drop_cursor]

/-- A pass that starts at an element needs no other. -/
theorem scan_none (hlaid : Laid front options operands ahead w) (retries : Nat) :
    scan grammar policy retries w none = (w.readNext grammar policy).map some := by
  cases retries with
  | zero =>
    rw [scan, pass_none hlaid]
    cases w.readNext grammar policy <;> rfl
  | succ retries =>
    rw [scan, pass_none hlaid]
    cases w.readNext grammar policy <;> rfl

/-- A pass that starts inside an element needs at most one other. -/
theorem scan_some {element : String} (hlaid : Laid front options operands (element :: ahead) w)
    (hshut : w.Shut) (retries offset : Nat) :
    scan grammar policy (retries + 1) w (some offset) =
      (w.resume grammar policy offset).map some := by
  have hget : w.args[w.cursor]? = some element := by
    simpa using hlaid.getElem?_cursor_add 0
  have hnext : scan grammar policy retries w.advance none =
      (w.advance.readNext grammar policy).map some :=
    scan_none (hlaid.advance hshut) retries
  rw [scan, pass, passAt, resume]
  simp only [hget]
  cases dropBytes? element.toList offset with
  | none => exact hnext
  | some text =>
    cases text with
    | nil => exact hnext
    | cons letter rest =>
      simp only
      cases w.readLetter grammar offset letter rest <;> rfl

end Walk

namespace Host

def scan (h : Host) (grammar : Grammar) (retries : Nat) : Except Fault (Option Reading) :=
  Walk.scan grammar (h.session.config.policy grammar.letters) retries h.start h.startOffset

/-- Whatever was replaced before a call, it starts over at most once. -/
theorem scan_succ {h : Host} (hsound : h.session.Sound) (grammar : Grammar) (retries : Nat) :
    h.scan grammar (retries + 1) = (h.reading grammar).map some := by
  unfold scan
  rcases Nat.lt_or_ge h.start.cursor h.args.length with hwithin | hpast
  · obtain ⟨front, options, operands, _, hlaid⟩ := start_laid hsound (Nat.le_of_lt hwithin)
    rw [reading_eq]
    cases hoffset : h.startOffset with
    | none => exact Walk.scan_none hlaid _
    | some offset =>
      obtain ⟨element, rest, hahead⟩ :
          ∃ element rest, h.args.drop h.start.cursor = element :: rest :=
        List.exists_cons_of_ne_nil (by simpa using hwithin)
      rw [hahead] at hlaid
      exact Walk.scan_some hlaid (start_shut hsound) retries offset
  · have hnil : h.args.drop h.start.cursor = [] := List.drop_eq_nil_of_le hpast
    rw [reading_of_past hpast, startOffset_of_past hpast, Walk.scan, Walk.pass]
    show (Walk.seek _ (h.args.drop h.start.cursor) h.start >>= Walk.passFrom grammar >>= _) = _
    rw [hnil, Walk.seek]
    cases h.start.settle <;> rfl

end Host

end OptionScan
