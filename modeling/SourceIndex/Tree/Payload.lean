import SourceIndex.Tree.Declaration
import SourceIndex.Tree.Expression
import SourceIndex.Tree.Jsx
import SourceIndex.Tree.ModuleItem
import SourceIndex.Tree.Statement
import SourceIndex.Tree.TypeNode

/-! What a node holds besides its kind and its span. The kind and the shape of the payload are
stored independently of each other, and nothing forces them to agree. -/

namespace SourceIndex

inductive Payload where
  | bare
  | identifier (text : String)
  | literal (text : String)
  | sourceFile (statements : List NodeRef) (fileName : String) (script : ScriptKind)
      (isDeclarationFile : Bool)
  | declaration (d : Declaration)
  | statement (s : Statement)
  | expression (e : Expression)
  | typeNode (t : TypeNode)
  | moduleItem (m : ModuleItem)
  | jsx (j : Jsx)
  deriving Inhabited

namespace Payload

/-- The named parts; a bare payload has no shape at all. -/
def layout? : Payload → Option Layout
  | bare => none
  | identifier text => some ⟨"Identifier", [("escaped_text", .text text)]⟩
  | literal text => some ⟨"Literal", [("text", .text text)]⟩
  | sourceFile statements fileName script isDeclarationFile =>
    some ⟨"SourceFile", [("statements", .list statements), ("file_name", .text fileName),
      ("script_kind", .script script), ("is_declaration_file", .flag isDeclarationFile)]⟩
  | declaration d => some d.layout
  | statement s => some s.layout
  | expression e => some e.layout
  | typeNode t => some t.layout
  | moduleItem m => some m.layout
  | jsx j => some j.layout

def read? (shape : String) (r : FieldReader) : Option Payload :=
  match shape with
  | "Identifier" => some (.identifier (r.text "escaped_text"))
  | "Literal" => some (.literal (r.text "text"))
  | "SourceFile" => some (.sourceFile (r.list "statements") (r.text "file_name")
      (r.script "script_kind") (r.flag "is_declaration_file"))
  | _ =>
    (Declaration.read? shape r).map .declaration <|>
    (Statement.read? shape r).map .statement <|>
    (Expression.read? shape r).map .expression <|>
    (TypeNode.read? shape r).map .typeNode <|>
    (ModuleItem.read? shape r).map .moduleItem <|>
    (Jsx.read? shape r).map .jsx

/-- The direct children in the order of the source text, without the absent ones. -/
def children (p : Payload) : List Nat := (p.layout?.map Layout.children).getD []

def name : Payload → NodeRef
  | declaration d => d.name
  | expression e => e.name
  | typeNode t => t.name
  | moduleItem m => m.name
  | jsx j => j.name
  | _ => none

def modifiers : Payload → Option (List NodeRef)
  | declaration d => d.modifiers
  | typeNode t => t.modifiers
  | moduleItem m => m.modifiers
  | _ => none

end Payload

end SourceIndex
