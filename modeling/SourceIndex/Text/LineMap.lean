import SourceIndex.Text.Offset
import SourceIndex.Text.Position

/-! A line ends with LF, with CR LF, or with a CR that no LF follows. A line map lists the byte
offsets at which lines start; it turns byte offsets into positions. -/

namespace SourceIndex

structure LineMap where
  starts : List Nat

namespace LineMap

/-- The starts of the lines after the first, for a text that begins at the given offset. -/
def startsFrom : Nat → Text → List Nat
  | _, [] => []
  | o, '\n' :: t => (o + 1) :: startsFrom (o + 1) t
  | o, '\r' :: t =>
    if t.head? = some '\n' then startsFrom (o + 1) t else (o + 1) :: startsFrom (o + 1) t
  | o, c :: t => startsFrom (o + c.utf8Size) t

def build (t : Text) : LineMap := ⟨0 :: startsFrom 0 t⟩

/-- The stretch of the table that begins at `base` is halved until it has one entry. No search takes
as many rounds as there are entries. -/
def narrow (starts : List Nat) (offset : Nat) : (rounds base size : Nat) → Nat
  | 0, base, _ => base
  | rounds + 1, base, size =>
    if size ≤ 1 then base
    else
      let mid := base + size / 2
      let base := if offset < starts[mid]?.getD 0 then base else mid
      narrow starts offset rounds base (size - size / 2)

/-- The place of an offset in the table, or else the place to insert it at. -/
def search (m : LineMap) (offset : Nat) : Except Nat Nat :=
  let base := narrow m.starts offset m.starts.length 0 m.starts.length
  match m.starts[base]? with
  | none => .error 0
  | some start =>
    if start = offset then .ok base else .error (if start < offset then base + 1 else base)

def lineAt (m : LineMap) (offset : Nat) : Nat :=
  match m.search offset with
  | .ok line => line
  | .error insertion => insertion - 1

def position (m : LineMap) (t : Text) (offset : Nat) : Position :=
  let line := m.lineAt offset
  let stop := min offset t.byteSize
  let start := min (m.starts[line]?.getD 0) stop
  ⟨line, ((t.slice? start stop).getD []).width16⟩

def range (m : LineMap) (t : Text) (start stop : Nat) : Range :=
  ⟨m.position t start, m.position t stop⟩

end LineMap

end SourceIndex
