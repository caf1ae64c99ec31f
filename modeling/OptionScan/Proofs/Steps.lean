import OptionScan.Proofs.Layout
import OptionScan.Proofs.Parse

/-!
From call to call. The readings of successive calls are chained, each starting where the one before
it left off; and the readings that one option element gives rise to are compared with what the
parse says about that element.
-/

namespace OptionScan

def Outcome.finding? (args : List String) : Outcome → Option Finding
  | .ended => none
  | .failed error culprit => some (.failed error culprit)
  | .found code argument entryIndex store =>
    some (.found code (argument.bind (Location.text? args)) entryIndex store)

def Reading.finding? (r : Reading) : Option Finding :=
  r.outcome.finding? r.walk.args

def Reading.next (grammar : Grammar) (policy : OperandPolicy) (r : Reading) :
    Except Fault Reading :=
  let walk := { r.walk with outputs := [] }
  match r.offset with
  | none => walk.readNext grammar policy
  | some offset => walk.resume grammar policy offset

/-- The next call finds the cursor and the half-read element as they are: neither is the cursor
before the first argument, nor is it past the end of the vector inside an element. -/
def Reading.Resumable (r : Reading) : Prop :=
  1 ≤ r.walk.cursor ∧ (r.offset = none ∨ r.walk.cursor < r.walk.args.length)

/-- The readings of successive calls that find something, from the first call on up to one that is
still to be looked at. -/
inductive Steps (grammar : Grammar) (policy : OperandPolicy) :
    Except Fault Reading → List Reading → Except Fault Reading → Prop
  | refl (current : Except Fault Reading) : Steps grammar policy current [] current
  | step {r : Reading} {rs : List Reading} {target : Except Fault Reading}
      (hfound : r.outcome ≠ .ended) (hresumable : r.Resumable)
      (hsteps : Steps grammar policy (r.next grammar policy) rs target) :
      Steps grammar policy (.ok r) (r :: rs) target

theorem Steps.trans {grammar : Grammar} {policy : OperandPolicy}
    {first second third : Except Fault Reading} {rs rs' : List Reading}
    (h : Steps grammar policy first rs second) (h' : Steps grammar policy second rs' third) :
    Steps grammar policy first (rs ++ rs') third := by
  induction h with
  | refl => exact h'
  | step hfound hresumable _ ih => exact .step hfound hresumable (ih h')

/-- The end of a scan: `options` and what ended them lie in front of the cursor, and the operands
behind it. -/
structure Reading.Ends (front options operands rest : List String) (r : Reading) : Prop where
  outcome_eq : r.outcome = .ended
  offset_eq : r.offset = none
  args_eq : r.walk.args = front ++ options ++ operands ++ rest
  cursor_eq : r.walk.cursor = (front ++ options).length
  block_eq : r.walk.block = .absent

theorem Reading.outcome_ne_ended {r : Reading} {finding : Finding}
    (h : r.finding? = some finding) : r.outcome ≠ .ended := by
  intro hended
  simp [Reading.finding?, hended, Outcome.finding?] at h

theorem Reading.exists_finding {r : Reading} (hfound : r.outcome ≠ .ended) :
    ∃ finding, r.finding? = some finding := by
  unfold Reading.finding?
  cases houtcome : r.outcome with
  | ended => exact absurd houtcome hfound
  | failed error culprit => exact ⟨_, rfl⟩
  | found code argument entryIndex store => exact ⟨_, rfl⟩

/-- A position between two parts of an element names the second part. -/
theorem Location.text?_of_append {args : List String} {index : Nat} {element : String}
    {left right : List Char} (hget : args[index]? = some element)
    (helement : element.toList = left ++ right) :
    Location.text? args ⟨index, byteWidth left⟩ = some (String.ofList right) := by
  simp [Location.text?, hget, helement]

theorem Location.text?_whole {args : List String} {index : Nat} {element : String}
    (hget : args[index]? = some element) :
    Location.text? args ⟨index, 0⟩ = some element := by
  have htext : Location.text? args ⟨index, byteWidth []⟩ = some (String.ofList element.toList) :=
    Location.text?_of_append hget rfl
  rwa [String.ofList_toList] at htext

end OptionScan
