import SourceIndex.Json.Write
import SourceIndex.Tree.Arena
import SourceIndex.Tree.Kind.Name

/-! The stored form of an arena. -/

namespace SourceIndex

def NodeRef.toJson (r : NodeRef) : Json := .number (NodeRef.number r)

def NodeRef.listToJson (rs : List NodeRef) : Json :=
  .object [("nodes", .array (rs.map NodeRef.toJson))]

def Field.toJson : Field → Json
  | node r => NodeRef.toJson r
  | list rs => NodeRef.listToJson rs
  | optional none => .null
  | optional (some rs) => NodeRef.listToJson rs
  | flag b => .bool b
  | kind k => .string k.name
  | text s => .string s
  | script k => .string k.name

def Payload.toJson (p : Payload) : Json :=
  match p.layout? with
  | none => .string "None"
  | some l => .object [(l.shape, .object (l.fields.map fun (name, f) => (name, f.toJson)))]

def Node.toJson (n : Node) : Json :=
  .object [("kind", .string n.kind.name), ("flags", .number n.flags), ("pos", .number n.start),
    ("end", .number n.stop), ("data", n.payload.toJson)]

def Arena.toJson (a : Arena) : Json :=
  .object [
    ("nodes", .array (a.nodes.toList.map Node.toJson)),
    ("extended_info", .array (a.parents.toList.map fun r =>
      .object [("parent", NodeRef.toJson r)]))]

end SourceIndex
