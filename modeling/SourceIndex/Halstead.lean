import Std.Data.TreeSet.Basic

/-! Token counts after Halstead. Every open component collects each token that is met while it is
open, so what encloses a component also counts its tokens. Two conventions of the published
measures are kept: distinct operators are counted over the operands, and the volume is the length
of the program plus its number of operators. -/

namespace SourceIndex

structure Tokens where
  operands : Array String := #[]
  operators : Array String := #[]

structure Metrics where
  operandsTotal : Nat
  operatorsTotal : Nat
  operandsDistinct : Nat
  operatorsDistinct : Nat
  vocabulary : Nat
  length : Nat
  volume : Nat
  difficulty : Float
  effort : Float
  timeRequired : Float
  deliveredBugs : Float
  estimatedLength : Float

namespace Tokens

def distinctOperands (t : Tokens) : Nat := (Std.TreeSet.ofList t.operands.toList).size

/-- The measures that divide by the number of distinct operands are zero when there are none. -/
def metrics (t : Tokens) : Metrics :=
  let distinct := t.distinctOperands
  let length := t.operands.size + t.operators.size
  let volume := length + t.operators.size
  let n := Float.ofNat distinct
  let difficulty := if distinct = 0 then 0 else ((n / 2) * Float.ofNat t.operands.size) / n
  let effort := if distinct = 0 then 0 else difficulty * Float.ofNat volume
  { operandsTotal := t.operands.size
    operatorsTotal := t.operators.size
    operandsDistinct := distinct
    operatorsDistinct := distinct
    vocabulary := distinct + distinct
    length
    volume
    difficulty
    effort
    timeRequired := if distinct = 0 then 0 else effort / 18
    deliveredBugs := if distinct = 0 then 0 else effort.pow (2.0 / 3.0) / 3000
    estimatedLength := if distinct = 0 then 0 else n * n.log2 + n * n.log2 }

end Tokens

structure Component where
  id : Nat
  tokens : Tokens

/-- The open components, innermost first. -/
abbrev ComponentStack := List Component

namespace ComponentStack

def enter (s : ComponentStack) (id : Nat) : ComponentStack := ⟨id, {}⟩ :: s

def operator (s : ComponentStack) (token : String) : ComponentStack :=
  s.map fun c => { c with tokens := { c.tokens with operators := c.tokens.operators.push token } }

def operand (s : ComponentStack) (token : String) : ComponentStack :=
  s.map fun c => { c with tokens := { c.tokens with operands := c.tokens.operands.push token } }

def exit : ComponentStack → Option Component × ComponentStack
  | [] => (none, [])
  | c :: s => (some c, s)

end ComponentStack

end SourceIndex
