/-! The shortest decimal that reads back as a given binary number. A positive double is
`m * 2 ^ q` with whole `m`; every real closer to it than to its neighbours reads back as it, and
the two midpoints do so when `m` is even. For each number of digits in turn, the two decimals on
either side of the value are tried, and the nearer one that reads back wins. -/

namespace SourceIndex.Decimal

/-- A positive binary number with whole significand. The gap to the neighbour below is half as
wide when the significand is the least one of its exponent. -/
structure Binary where
  significand : Nat
  exponent : Int
  narrowBelow : Bool

/-- A positive decimal number, `digits * 10 ^ exponent`. -/
structure Shortest where
  digits : Nat
  exponent : Int

def compareScaled (a : Nat) (p : Int) (b : Nat) (e : Int) : Ordering :=
  compare (a * Nat.pow 2 p.toNat * Nat.pow 10 (-e).toNat)
    (b * Nat.pow 10 e.toNat * Nat.pow 2 (-p).toNat)

namespace Binary

def ofBits (bits : UInt64) : Binary :=
  let fraction := bits.toNat % 0x10000000000000
  let scale := bits.toNat / 0x10000000000000 % 0x800
  if scale = 0 then ⟨fraction, -1074, false⟩
  else ⟨fraction + 0x10000000000000, Int.ofNat scale - 1075, fraction = 0 && 1 < scale⟩

/-- Whether a decimal reads back as this number. Quarters of the last place are counted, so that
both midpoints are whole. -/
def readsBack (b : Binary) (d : Nat) (e : Int) : Bool :=
  let low := compareScaled (4 * b.significand - if b.narrowBelow then 1 else 2) (b.exponent - 2) d e
  let high := compareScaled (4 * b.significand + 2) (b.exponent - 2) d e
  if b.significand % 2 = 0 then low.isLE && high.isGE else low.isLT && high.isGT

def floorAt (b : Binary) (e : Int) : Nat :=
  (b.significand * Nat.pow 2 b.exponent.toNat * Nat.pow 10 (-e).toNat) /
    (Nat.pow 10 e.toNat * Nat.pow 2 (-b.exponent).toNat)

/-- Of the two decimals around the value, the nearer; a tie goes to the even one. -/
def nearer (b : Binary) (d : Nat) (e : Int) : Nat :=
  match compareScaled (2 * b.significand) b.exponent (2 * d + 1) e with
  | .lt => d
  | .gt => d + 1
  | .eq => if d % 2 = 0 then d else d + 1

def onGrid? (b : Binary) (e : Int) : Option Nat :=
  let d := b.floorAt e
  match b.readsBack d e, b.readsBack (d + 1) e with
  | true, true => some (b.nearer d e)
  | true, false => some d
  | false, true => some (d + 1)
  | false, false => none

def decade (b : Binary) : Int :=
  let whole := b.floorAt 0
  if 0 < whole then (Nat.toDigits 10 whole).length - 1
  else -Int.ofNat (((List.range 400).find? fun j => 0 < b.floorAt (-Int.ofNat j)).getD 400)

end Binary

def trimZeros : Nat → Nat → Int → Shortest
  | 0, d, e => ⟨d, e⟩
  | fuel + 1, d, e => if d % 10 = 0 && 0 < d then trimZeros fuel (d / 10) (e + 1) else ⟨d, e⟩

/-- Seventeen digits always suffice. -/
def Binary.shortest (b : Binary) : Shortest :=
  let grids := (List.range 17).map fun (n : Nat) => b.decade - n
  match grids.findSome? fun e => (b.onGrid? e).map fun d => (d, e) with
  | some (d, e) => trimZeros 20 d e
  | none => ⟨0, 0⟩

end SourceIndex.Decimal
