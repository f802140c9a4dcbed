/-! The outline of a file: the forest of its declarations by their ids. A declaration that
encloses no other and is enclosed by none is left out. -/

namespace SourceIndex

inductive Outline where
  | node (id : Nat) (children : List Outline)

namespace Outline

def id : Outline → Nat
  | node id _ => id

def children : Outline → List Outline
  | node _ children => children

/-- A forest under construction: the open declarations, innermost first, and the finished trees.
Trees are listed latest first, in both places. -/
structure Builder where
  stack : List (Nat × List Outline) := []
  roots : List Outline := []

namespace Builder

def enter (b : Builder) (id : Nat) : Builder := { b with stack := (id, []) :: b.stack }

def exit (b : Builder) : Builder :=
  match b.stack with
  | [] => b
  | (id, below) :: (parent, siblings) :: outer =>
    { b with stack := (parent, .node id below.reverse :: siblings) :: outer }
  | [(_, [])] => { b with stack := [] }
  | [(id, below)] => ⟨[], .node id below.reverse :: b.roots⟩

def depth (b : Builder) : Nat := b.stack.length

/-- The finished trees in the order in which they were closed. What is still open is dropped. -/
def finish (b : Builder) : List Outline := b.roots.reverse

end Builder

end Outline

end SourceIndex
