import SourceIndex.Tree.Field

/-! Payloads of imports and exports. -/

namespace SourceIndex

inductive ModuleItem where
  | importDecl (modifiers : Option (List NodeRef)) (clause moduleSpecifier attributes : NodeRef)
  | importClause (isTypeOnly : Bool) (name namedBindings : NodeRef)
  | specifier (isTypeOnly : Bool) (propertyName name : NodeRef)
  | exportDecl (modifiers : Option (List NodeRef)) (isTypeOnly : Bool)
      (exportClause moduleSpecifier attributes : NodeRef)
  | exportAssignment (modifiers : Option (List NodeRef)) (isExportEquals : Bool)
      (expression : NodeRef)
  | importEquals (modifiers : Option (List NodeRef)) (isTypeOnly : Bool)
      (name moduleReference : NodeRef)
  | importAttributes (keyword : Kind) (elements : List NodeRef)

namespace ModuleItem

def layout : ModuleItem → Layout
  | importDecl modifiers clause moduleSpecifier attributes =>
    ⟨"ImportDecl", [("modifiers", .optional modifiers), ("import_clause", .node clause),
      ("module_specifier", .node moduleSpecifier), ("attributes", .node attributes)]⟩
  | importClause isTypeOnly name namedBindings =>
    ⟨"ImportClause", [("is_type_only", .flag isTypeOnly), ("name", .node name),
      ("named_bindings", .node namedBindings)]⟩
  | specifier isTypeOnly propertyName name =>
    ⟨"Specifier", [("is_type_only", .flag isTypeOnly), ("property_name", .node propertyName),
      ("name", .node name)]⟩
  | exportDecl modifiers isTypeOnly exportClause moduleSpecifier attributes =>
    ⟨"ExportDecl", [("modifiers", .optional modifiers), ("is_type_only", .flag isTypeOnly),
      ("export_clause", .node exportClause), ("module_specifier", .node moduleSpecifier),
      ("attributes", .node attributes)]⟩
  | exportAssignment modifiers isExportEquals expression =>
    ⟨"ExportAssignment", [("modifiers", .optional modifiers),
      ("is_export_equals", .flag isExportEquals), ("expression", .node expression)]⟩
  | importEquals modifiers isTypeOnly name moduleReference =>
    ⟨"ImportEquals", [("modifiers", .optional modifiers), ("is_type_only", .flag isTypeOnly),
      ("name", .node name), ("module_reference", .node moduleReference)]⟩
  | importAttributes keyword elements =>
    ⟨"ImportAttributes", [("token", .kind keyword), ("elements", .list elements)]⟩

def read? (shape : String) (r : FieldReader) : Option ModuleItem :=
  match shape with
  | "ImportDecl" => some (.importDecl (r.optional "modifiers") (r.node "import_clause")
      (r.node "module_specifier") (r.node "attributes"))
  | "ImportClause" => some (.importClause (r.flag "is_type_only") (r.node "name")
      (r.node "named_bindings"))
  | "Specifier" => some (.specifier (r.flag "is_type_only") (r.node "property_name")
      (r.node "name"))
  | "ExportDecl" => some (.exportDecl (r.optional "modifiers") (r.flag "is_type_only")
      (r.node "export_clause") (r.node "module_specifier") (r.node "attributes"))
  | "ExportAssignment" => some (.exportAssignment (r.optional "modifiers")
      (r.flag "is_export_equals") (r.node "expression"))
  | "ImportEquals" => some (.importEquals (r.optional "modifiers") (r.flag "is_type_only")
      (r.node "name") (r.node "module_reference"))
  | "ImportAttributes" => some (.importAttributes (r.kind "token") (r.list "elements"))
  | _ => none

def name : ModuleItem → NodeRef
  | importClause _ name _ => name
  | specifier _ _ name => name
  | importEquals _ _ name _ => name
  | _ => none

def modifiers : ModuleItem → Option (List NodeRef)
  | importDecl modifiers _ _ _ => modifiers
  | exportDecl modifiers _ _ _ _ => modifiers
  | exportAssignment modifiers _ _ => modifiers
  | importEquals modifiers _ _ _ => modifiers
  | _ => none

end ModuleItem

end SourceIndex
