import SourceIndex.Tree.Arena

/-! What is met inside one node, in order: its own tokens and its children. Names and literals are
operands, all other tokens are operators. A pair of brackets counts once, a comma once between two
elements, and the end of a statement not at all. -/

namespace SourceIndex

inductive Step where
  | operator (token : String)
  | operand (token : String)
  | visit (r : NodeRef)

namespace Step

def visits (rs : List NodeRef) : List Step := rs.map .visit

def listed (rs : Option (List NodeRef)) : List Step := visits (rs.getD [])

def joined (token : String) (rs : List NodeRef) : List Step :=
  (visits rs).intersperse (.operator token)

def separated (rs : List NodeRef) : List Step := joined "," rs

/-- Type parameters or arguments; an empty list is not written at all. -/
def angle : Option (List NodeRef) → List Step
  | some (r :: rs) => .operator "<>" :: separated (r :: rs)
  | _ => []

def parens (rs : List NodeRef) : List Step := .operator "()" :: separated rs

def introduced (token : String) (r : NodeRef) : List Step :=
  if r.isSome then [.operator token, .visit r] else []

def typed (r : NodeRef) : List Step := introduced ":" r

def initializer (r : NodeRef) : List Step := introduced "=" r

def flag (present : Bool) (token : String) : List Step :=
  if present then [.operator token] else []

/-- The text of a token kind, nothing for any other kind. -/
def tokenOf (k : Kind) : List Step := k.tokenText?.toList.map .operator

end Step

end SourceIndex
