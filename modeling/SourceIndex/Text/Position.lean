/-! Positions are zero-based lines and columns, and a range is a pair of them. Columns count
UTF-16 units. Ranges are compared end by end, so a reversed range is allowed everywhere. -/

namespace SourceIndex

structure Position where
  line : Nat
  character : Nat
  deriving DecidableEq, Inhabited

/-- Lines decide, and columns within one line. -/
def Position.compare (a b : Position) : Ordering :=
  (Ord.compare a.line b.line).then (Ord.compare a.character b.character)

def Position.le (a b : Position) : Bool :=
  a.line < b.line || (a.line == b.line && a.character ≤ b.character)

structure Range where
  start : Position
  stop : Position
  deriving DecidableEq, Inhabited

/-- The other range lies inside this one, its ends included. -/
def Range.contains (outer inner : Range) : Bool :=
  outer.start.le inner.start && inner.stop.le outer.stop

def Range.compare (a b : Range) : Ordering :=
  (a.start.compare b.start).then (a.stop.compare b.stop)

def Range.le (a b : Range) : Bool := (a.compare b).isLE

end SourceIndex
