/-!
The ways in which a call can break off. Only the first is ever met: it says that a vector no
longer has the bounds it had when an earlier call looked at it.
-/

namespace OptionScan

inductive Fault where
  /-- Two neighbouring blocks that are not blocks of the vector. -/
  | badBounds (start mid stop size : Nat)
  | noElement (index size : Nat)
  /-- A byte position that is not between two characters of the element. -/
  | noBoundary (offset : Nat)
  | belowZero (cursor amount : Nat)
  deriving DecidableEq, Repr

namespace Fault

def message : Fault → String
  | badBounds start mid stop size =>
    s!"bad permutation bounds {start}..{mid}..{stop} for {size} arguments"
  | noElement index size => s!"no element {index} in a vector of {size}"
  | noBoundary offset => s!"byte {offset} is not a character boundary"
  | belowZero cursor amount => s!"cursor {cursor} cannot move back by {amount}"

end Fault

end OptionScan
