import SourceIndex.Tree.SourceFile

/-! The files of one run. A file's number is its place among them. -/

namespace SourceIndex

/-- A node of some file. Neither the file nor the node has to exist. -/
structure NodeKey where
  file : Nat
  node : NodeRef
  deriving DecidableEq

namespace NodeKey

/-- By file and then by node; the absent node comes last. -/
def le (a b : NodeKey) : Bool :=
  a.file < b.file || (a.file == b.file &&
    match a.node, b.node with
    | _, none => true
    | none, some _ => false
    | some i, some j => i ≤ j)

end NodeKey

structure Program where
  files : Array SourceFile := #[]

namespace Program

def add (p : Program) (f : SourceFile) : Program := ⟨p.files.push f⟩

def size (p : Program) : Nat := p.files.size

def file? (p : Program) (id : Nat) : Option SourceFile := p.files[id]?

/-- Of several files with one name the last one added is found. -/
def fileNamed? (p : Program) (name : String) : Option SourceFile :=
  p.files.toList.reverse.find? (·.name = name)

end Program

end SourceIndex
