import SourceIndex.Link
import SourceIndex.Symbol.Resolve

/-! What all files of a run share: the ids given out, the symbols, the packages found, the tables
of definitions and references, and the journal of effects. -/

namespace SourceIndex

structure Session where
  lastId : Nat := 0
  symbols : SymbolTable := {}
  packages : Package.Cache := {}
  definitions : Table Nat Location := {}
  references : Table Nat (List Location) := {}
  journal : Journal := #[]

namespace Session

def nextId : StateM Session Nat :=
  modifyGet fun s => (s.lastId + 1, { s with lastId := s.lastId + 1 })

def emit (type : EntryType) (element : Element) : StateM Session Nat :=
  modifyGet fun s =>
    let id := s.lastId + 1
    (id, { s with lastId := id, journal := s.journal.push (.write ⟨id, type, element⟩) })

def vertex (element : Element) : StateM Session Nat := emit .vertex element

def edge (element : Element) : StateM Session Nat := emit .edge element

def define (id : Nat) (l : Location) : StateM Session Unit :=
  modify fun s => { s with definitions := s.definitions.insert id l }

def refer (id : Nat) (ls : List Location) : StateM Session Unit :=
  modify fun s => { s with references := s.references.insert id ls }

def consult {α : Type} (query : Query) (answer : Except OracleError α) (nothing : α) :
    StateM Session α :=
  modifyGet fun s =>
    let (a, journal) := s.journal.consult query answer nothing
    (a, { s with journal })

def emitLink (id : Nat) (referrers : List Nat) : StateM Session Unit := do
  let result ← vertex .referenceResult
  let _ ← edge (.references result)
  let _ ← edge (.item result [id] .definitions)
  let _ ← edge (.item result referrers .references)

def emitLinks : StateM Session Nat := do
  let s ← get
  let graph := link s.definitions s.references
  graph.entries.forM fun (id, referrers) => emitLink id referrers
  pure graph.size

/-- Takes the journal out, so that the next effects can be told from those before. -/
def takeJournal : StateM Session Journal :=
  modifyGet fun s => (s.journal, { s with journal := #[] })

end Session

end SourceIndex
