import SourceIndex.Tree.Kind
import SourceIndex.Tree.Script

/-! The parts of a node. A node names other nodes by their index in the arena; a reference may be
absent, and may point at an index that no node has. Every payload lists its parts by name, in the
order of the source text. -/

namespace SourceIndex

/-- The index of a node, or nothing. -/
abbrev NodeRef := Option Nat

/-- The number a reference is written as; the greatest 32-bit number stands for none. -/
def NodeRef.number (r : NodeRef) : Nat := r.getD 0xFFFFFFFF

inductive Field where
  | node (r : NodeRef)
  | list (rs : List NodeRef)
  | optional (rs : Option (List NodeRef))
  | flag (b : Bool)
  | kind (k : Kind)
  | text (s : String)
  | script (k : ScriptKind)

def Field.children : Field → List Nat
  | node r => r.toList
  | list rs => rs.filterMap id
  | optional rs => (rs.getD []).filterMap id
  | _ => []

structure Layout where
  shape : String
  fields : List (String × Field)

def Layout.children (l : Layout) : List Nat := l.fields.flatMap (·.2.children)

/-- Where a stored payload's parts are found by name. A part that is not stored has the absent,
empty or false value of its sort. -/
structure FieldReader where
  node : String → NodeRef
  list : String → List NodeRef
  optional : String → Option (List NodeRef)
  flag : String → Bool
  kind : String → Kind
  text : String → String
  script : String → ScriptKind

end SourceIndex
