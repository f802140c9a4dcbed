import SourceIndex.Text.LineMap
import SourceIndex.Tree.Arena

/-! One parsed file: its text, its nodes and the node at the top. -/

namespace SourceIndex

structure SourceFile where
  name : String
  text : Text
  arena : Arena
  root : NodeRef
  lines : LineMap := .build text
  lines_eq : lines = .build text := by rfl

namespace SourceFile

/-- The root says what language the file is in; without a proper root, the file's name does. -/
def scriptKind (f : SourceFile) : ScriptKind :=
  match f.arena.payload? f.root with
  | some (.sourceFile _ _ script _) => script
  | _ => .ofFileName f.name

def spanRange (f : SourceFile) (start stop : Nat) : Range := f.lines.range f.text start stop

/-- The text a node covers, empty when its span does not cut the text. -/
def nodeText (f : SourceFile) (r : NodeRef) : String :=
  .ofList (((f.arena.get? r).bind fun n => f.text.slice? n.start n.stop).getD [])

def nodeRange (f : SourceFile) (r : NodeRef) : Range :=
  match f.arena.get? r with
  | some n => f.spanRange n.start n.stop
  | none => ⟨⟨0, 0⟩, ⟨0, 0⟩⟩

end SourceFile

end SourceIndex
