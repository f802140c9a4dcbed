import SourceIndex.Tree.Payload

/-! All nodes of one file, numbered in the order in which they were added. A node that is added
becomes the parent of every node it names that is already there, itself included, whatever the
parent was before. -/

namespace SourceIndex

structure Node where
  kind : Kind
  flags : Nat
  start : Nat
  stop : Nat
  payload : Payload
  deriving Inhabited

namespace Node

def letFlag : Nat := 1
def constFlag : Nat := 2
def usingFlag : Nat := 4
def namespaceFlag : Nat := 8
def nestedFlag : Nat := 16
def globalFlag : Nat := 32
def errorFlag : Nat := 64

def hasFlag (n : Node) (bit : Nat) : Bool := n.flags &&& bit != 0

def hasParseError (n : Node) : Bool := n.hasFlag errorFlag

end Node

structure Arena where
  nodes : Array Node
  parents : Array NodeRef

namespace Arena

def empty : Arena := ⟨#[], #[]⟩

def size (a : Arena) : Nat := a.nodes.size

/-- Adds a node without flags; its index is the size of the arena before. -/
def add (a : Arena) (kind : Kind) (start stop : Nat) (payload : Payload) : Arena where
  nodes := a.nodes.push ⟨kind, 0, start, stop, payload⟩
  parents := payload.children.foldl (fun ps child => ps.setIfInBounds child (some a.size))
    (a.parents.push none)

/-- Sets further flags of a node; an unknown node has none to set. -/
def addFlags (a : Arena) (r : NodeRef) (flags : Nat) : Arena :=
  match r with
  | none => a
  | some i => { a with nodes := a.nodes.modify i fun n => { n with flags := n.flags ||| flags } }

def get? (a : Arena) (r : NodeRef) : Option Node := r.bind (a.nodes[·]?)

def parent (a : Arena) (r : NodeRef) : NodeRef := r.bind fun i => a.parents[i]?.join

def kind? (a : Arena) (r : NodeRef) : Option Kind := (a.get? r).map (·.kind)

def children (a : Arena) (r : NodeRef) : List Nat := ((a.get? r).map (·.payload.children)).getD []

def nameOf (a : Arena) (r : NodeRef) : NodeRef := (a.get? r).bind (·.payload.name)

def payload? (a : Arena) (r : NodeRef) : Option Payload := (a.get? r).map (·.payload)

def identifier? (a : Arena) (r : NodeRef) : Option String :=
  match a.payload? r with
  | some (.identifier text) => some text
  | _ => none

def identifierText? (a : Arena) (r : NodeRef) : Option String :=
  match a.payload? r with
  | some (.identifier text) => some text
  | some (.literal text) => some text
  | _ => none

/-- Follows parents as long as there are any, for at most the given number of links. -/
def climb (a : Arena) : Nat → NodeRef → Option NodeRef
  | 0, r => if (a.parent r).isNone then some r else none
  | n + 1, r =>
    match a.parent r with
    | none => some r
    | some p => climb a n (some p)

/-- The topmost node above, when the chain of parents ends. A parent's index is never smaller
than its child's, so a chain that ends has no more links than there are nodes. -/
def rootOf? (a : Arena) (r : NodeRef) : Option NodeRef := a.climb a.size r

end Arena

end SourceIndex
