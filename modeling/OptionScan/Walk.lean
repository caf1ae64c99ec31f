import OptionScan.Event

/-!
The walk of a scan along the vector. Operands that are passed over form a block. The first option
after them closes the block, and a closed block is moved behind the options that follow it when
the next operand is met or when the walk ends.
-/

namespace OptionScan

/-- The operands that have been passed over and not yet moved. -/
inductive Block where
  | absent
  /-- The block reaches up to the cursor. -/
  | opened (start : Nat)
  /-- The block ends before the option at `stop`. -/
  | closed (start stop : Nat)
  deriving DecidableEq, Repr

inductive Element where
  | operand
  | letters (first : Char) (rest : List Char)
  /-- Two dashes, with or without a name. -/
  | name
  deriving DecidableEq, Repr

/-- A dash alone is an operand. -/
def Element.ofString (text : String) : Element :=
  match text.toList with
  | '-' :: '-' :: _ => .name
  | '-' :: first :: rest => .letters first rest
  | _ => .operand

structure Walk where
  args : List String
  cursor : Nat
  block : Block := .absent
  outputs : List Output := []
  deriving DecidableEq, Repr

inductive Landing where
  | finish
  | operand
  | letters (first : Char) (rest : List Char)
  | name
  deriving DecidableEq, Repr

namespace Walk

def advance (w : Walk) : Walk :=
  { w with cursor := w.cursor + 1 }

/-- Moves a closed block behind the options between it and the cursor. Also answers where the
block starts then. -/
def moveBlock (w : Walk) (start stop : Nat) : Except Fault (Walk × Nat) := do
  let args ← exchange start stop w.cursor w.args
  let size := stop - start
  if size ≤ w.cursor then
    let cycles := Cycles.ofBlocks size (w.cursor - stop)
    let moved := Output.event (.blockMoved start stop w.cursor cycles)
    .ok ({ w with args, outputs := w.outputs ++ [moved] }, w.cursor - size)
  else
    .error (.belowZero w.cursor size)

/-- Ends the walk: the cursor goes to the first operand of the block, which is moved first if it
is closed. -/
def settle (w : Walk) : Except Fault Walk :=
  match w.block with
  | .absent => .ok w
  | .opened start => .ok { w with cursor := start, block := .absent }
  | .closed start stop => do
    let (w, start) ← w.moveBlock start stop
    .ok { w with cursor := start, block := .absent }

def closeBlock (w : Walk) : Walk :=
  match w.block with
  | .opened start => { w with block := .closed start w.cursor }
  | _ => w

/-- The operand under the cursor has joined the block that starts at `start`. -/
def skip (w : Walk) (start : Nat) : Walk :=
  { w with
    cursor := w.cursor + 1
    block := .opened start
    outputs := w.outputs ++ [.event (.operandSkipped w.cursor start)] }

def passOperand (w : Walk) : Except Fault Walk :=
  match w.block with
  | .absent => .ok (w.skip w.cursor)
  | .opened start => .ok (w.skip start)
  | .closed start stop => do
    let (w, start) ← w.moveBlock start stop
    .ok (w.skip start)

/-- Walks over the unread elements to the next one that means something. -/
def seek (policy : OperandPolicy) :
    (unread : List String) → Walk → Except Fault (Walk × Landing)
  | [], w => do
    let w ← w.settle
    .ok (w, .finish)
  | element :: rest, w =>
    match Element.ofString element with
    | .letters first more => .ok (w.closeBlock, .letters first more)
    | .name => .ok (w.closeBlock, .name)
    | .operand =>
      match policy with
      | .report => .ok (w, .operand)
      | .stop => .ok (w, .finish)
      | .move => do
        let w ← w.passOperand
        seek policy rest w

end Walk

end OptionScan
