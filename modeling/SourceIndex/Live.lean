import SourceIndex.IndexError
import SourceIndex.Session

/-! A session whose effects are carried out at once. An entry that the sink refuses is an error for
whoever wanted it written; its id stays given out. The journal tells what was done. -/

namespace SourceIndex

/-- A state, and the sink into which entries go. -/
structure Live (S σ : Type) where
  state : S
  sink : σ

namespace Live

variable {S σ ε α : Type}

def sure (x : StateM S α) : Attempt (Live S σ) ε α :=
  Attempt.within (·.state) (fun state l => { l with state }) (Attempt.sure x)

def nextId : Attempt (Live Session σ) ε Nat := do
  if (← get).state.lastId + 1 < bound64 then sure Session.nextId else Attempt.overflow .id

def note (e : Effect) (s : Session) : Session := { s with journal := s.journal.push e }

variable [Sink σ]

def write (entry : Entry) : Attempt (Live Session σ) IndexError Unit := fun l =>
  match Sink.write entry l.sink with
  | (.ok _, sink) => .ok () ⟨note (.write entry) l.state, sink⟩
  | (.error failure, sink) => .error (.error (.sink failure)) { l with sink }

def flush : Attempt (Live Session σ) IndexError Unit := fun l =>
  match Sink.flush l.sink with
  | (.ok _, sink) => .ok () ⟨note .flush l.state, sink⟩
  | (.error failure, sink) => .error (.error (.sink failure)) { l with sink }

def emit (type : EntryType) (element : Element) : Attempt (Live Session σ) IndexError Nat := do
  let id ← nextId
  write ⟨id, type, element⟩
  pure id

def vertex (element : Element) : Attempt (Live Session σ) IndexError Nat := emit .vertex element

def edge (element : Element) : Attempt (Live Session σ) IndexError Nat := emit .edge element

def emitLink (id : Nat) (referrers : List Nat) : Attempt (Live Session σ) IndexError Unit := do
  let result ← vertex .referenceResult
  let _ ← edge (.references result)
  let _ ← edge (.item result [id] .definitions)
  let _ ← edge (.item result referrers .references)

def emitLinks : Attempt (Live Session σ) IndexError Nat := do
  let s := (← get).state
  let graph := link s.definitions s.references
  graph.entries.forM fun (id, referrers) => emitLink id referrers
  pure graph.size

end Live

end SourceIndex
