/-! The values that records are written as. Whole numbers are never negative here. -/

namespace SourceIndex

inductive Json where
  | null
  | bool (b : Bool)
  | number (n : Nat)
  | float (x : Float)
  | string (s : String)
  | array (items : List Json)
  | object (members : List (String × Json))

end SourceIndex
