import SourceIndex.Entry
import SourceIndex.Json.Write

/-! Where entries go. A sink may fail at any write and at the final flush. One sink keeps entries
in memory; another writes one line of JSON for each, into a space that may be bounded. -/

namespace SourceIndex

inductive SinkError where
  | io (cause : String)
  | serialize (cause : String)

namespace SinkError

def cause : SinkError → String
  | io cause => cause
  | serialize cause => cause

def message : SinkError → String
  | io cause => "I/O error: " ++ cause
  | serialize cause => "JSON serialization error: " ++ cause

end SinkError

class Sink (σ : Type) where
  write : Entry → σ → Except SinkError Unit × σ
  flush : σ → Except SinkError Unit × σ

structure MemorySink where
  entries : Array Entry := #[]

instance : Sink MemorySink where
  write e s := (.ok (), ⟨s.entries.push e⟩)
  flush s := (.ok (), s)

def Text.fitting : Text → Nat → Text × Nat
  | [], n => ([], n)
  | c :: t, n =>
    if c.utf8Size ≤ n then
      let (piece, left) := fitting t (n - c.utf8Size)
      (c :: piece, left)
    else ([], n)

/-- Lines written so far and the number of bytes for which there is still room, if that is bounded.
The output is torn when it ends within a character. -/
structure LineSink where
  output : String := ""
  isTorn : Bool := false
  room : Option Nat := none
  flushFails : Bool := false
  flushes : Nat := 0

namespace LineSink

def push (s : LineSink) (t : Text) : Bool × LineSink :=
  match s.room with
  | none => (true, { s with output := s.output ++ String.ofList t })
  | some n =>
    if t.byteSize ≤ n then
      (true, { s with output := s.output ++ String.ofList t, room := some (n - t.byteSize) })
    else
      let (piece, left) := t.fitting n
      (false, { s with
        output := s.output ++ String.ofList piece
        room := some 0
        isTorn := s.isTorn || 0 < left })

def full : String := "disk full"

def write (e : Entry) (s : LineSink) : Except SinkError Unit × LineSink :=
  match s.push e.toJson.render with
  | (false, s) => (.error (.serialize full), s)
  | (true, s) =>
    match s.push ['\n'] with
    | (false, s) => (.error (.io full), s)
    | (true, s) => (.ok (), s)

def flush (s : LineSink) : Except SinkError Unit × LineSink :=
  (if s.flushFails then .error (.io "flush failed") else .ok (),
    { s with flushes := s.flushes + 1 })

/-- What a reader sees; a torn character shows as a replacement character. -/
def text (s : LineSink) : String := if s.isTorn then s.output.push '\uFFFD' else s.output

end LineSink

instance : Sink LineSink where
  write := LineSink.write
  flush := LineSink.flush

end SourceIndex
