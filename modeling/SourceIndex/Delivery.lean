import SourceIndex.Effect
import SourceIndex.Sink

/-! Carries out effects on a sink, up to the first failure. -/

namespace SourceIndex

/-- Effects being carried out: those that were, and the failure that put an end to it. -/
structure Delivery (σ : Type) where
  sink : σ
  performed : Array Effect := #[]
  failure? : Option SinkError := none

namespace Delivery

variable {σ : Type} [Sink σ]

/-- After a failure nothing is carried out any more. -/
def perform (d : Delivery σ) (e : Effect) : Delivery σ :=
  let settle : Except SinkError Unit × σ → Delivery σ
    | (.ok _, sink) => { d with sink, performed := d.performed.push e }
    | (.error failure, sink) => { d with sink, failure? := some failure }
  match d.failure?, e with
  | some _, _ => d
  | none, .write entry => settle (Sink.write entry d.sink)
  | none, .flush => settle (Sink.flush d.sink)
  | none, _ => { d with performed := d.performed.push e }

def performAll (d : Delivery σ) (j : Journal) : Delivery σ := j.foldl perform d

end Delivery

end SourceIndex
