import SourceIndex.Tour.Node
import SourceIndex.Tree.SourceFile

/-! The tour of a file: all that is met on the way through its tree, in order. It depends on the
tree alone. Nodes with a parse error are passed by. Nothing keeps a stored tree from being a graph
with shared nodes or cycles, so a tour that goes too deep is cut off. -/

namespace SourceIndex

inductive Event where
  | enter (index : Nat) (node : Node)
  | operator (token : String)
  | operand (token : String)
  | leave

structure Tour where
  events : List Event := []
  isCut : Bool := false

namespace Tour

/-- Nothing comes after a cut. -/
def append (t : Tour) (rest : Unit → Tour) : Tour :=
  if t.isCut then t
  else
    let r := rest ()
    ⟨t.events ++ r.events, r.isCut⟩

def step (visit : NodeRef → Tour) : Step → Tour
  | .operator token => { events := [.operator token] }
  | .operand token => { events := [.operand token] }
  | .visit r => visit r

def steps (visit : NodeRef → Tour) : List Step → Tour
  | [] => {}
  | s :: ss => (step visit s).append fun _ => steps visit ss

end Tour

namespace SourceFile

/-- A type parameter inside a mapped type is written differently. -/
def isInMapped (f : SourceFile) (index : Nat) : Bool :=
  f.arena.kind? (f.arena.parent (some index)) = some .mappedType

/-- The tour of what is below a node, at most so many levels deep. -/
def visit (f : SourceFile) : Nat → NodeRef → Tour
  | levels, r =>
    match r, f.arena.get? r with
    | some index, some node =>
      if node.hasParseError then {}
      else
        match levels with
        | 0 => { isCut := true }
        | levels + 1 =>
          let inside := Tour.steps (f.visit levels) (node.steps (f.isInMapped index))
          let whole := inside.append fun _ => { events := [.leave] }
          { whole with events := .enter index node :: whole.events }
    | _, _ => {}

def maxVisitDepth : Nat := 1000

def tour (f : SourceFile) : Tour := f.visit maxVisitDepth f.root

end SourceFile

end SourceIndex
