/-! Names of declarations that hold across files. A global symbol is the text of a package
followed by one descriptor for each declaration on the way in; a local one is a number that means
something in one file only. -/

namespace SourceIndex

inductive Role where
  | scope | type | term | method | parameter | typeParameter | metadata
  deriving DecidableEq

structure Descriptor where
  role : Role
  name : String
  deriving DecidableEq

namespace Descriptor

/-- A quote of a name; it is doubled inside. -/
def tick : Char := '\x60'

def isPlainChar (c : Char) : Bool := c.isAlphanum || c == '_' || c == '+' || c == '-' || c == '$'

/-- A name of plain characters stands as it is, any other between ticks. -/
def escape (name : String) : String :=
  let cs := name.toList
  if !cs.isEmpty && cs.all isPlainChar then name
  else .ofList (tick :: (cs.flatMap (fun c => if c = tick then [c, c] else [c]) ++ [tick]))

def render (d : Descriptor) : String :=
  let name := escape d.name
  match d.role with
  | .scope => name ++ "/"
  | .type => name ++ "#"
  | .term => name ++ "."
  | .method => name ++ "()."
  | .parameter => "(" ++ name ++ ")"
  | .typeParameter => "[" ++ name ++ "]"
  | .metadata => name ++ ":"

end Descriptor

inductive Symbol where
  | empty
  | fileLocal (n : Nat)
  | global (text : String)
  deriving DecidableEq

namespace Symbol

def render : Symbol → String
  | empty => ""
  | fileLocal n => "local " ++ toString n
  | global text => text

/-- The symbol of a package; a part that is missing is written as a dot. -/
def package (name version : String) : Symbol :=
  let orDot (s : String) := if s.isEmpty then "." else s
  .global ("lsif-ts npm " ++ orDot name ++ " " ++ orDot version ++ " ")

/-- The owner's text followed by one more descriptor. -/
def extend (owner : Symbol) (d : Descriptor) : Symbol := .global (owner.render ++ d.render)

end Symbol

end SourceIndex
