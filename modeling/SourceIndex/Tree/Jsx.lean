import SourceIndex.Tree.Field

/-! Payloads of elements written as tags. -/

namespace SourceIndex

inductive Jsx where
  | element (openingElement : NodeRef) (children : List NodeRef) (closingElement : NodeRef)
  | opening (tagName : NodeRef) (typeArguments : Option (List NodeRef)) (attributes : NodeRef)
  | closing (tagName : NodeRef)
  | property (name initializer : NodeRef)
  | expression (dots : Bool) (value : NodeRef)

namespace Jsx

def layout : Jsx → Layout
  | element openingElement children closingElement =>
    ⟨"JsxElement", [("opening_element", .node openingElement), ("children", .list children),
      ("closing_element", .node closingElement)]⟩
  | opening tagName typeArguments attributes =>
    ⟨"JsxOpening", [("tag_name", .node tagName), ("type_arguments", .optional typeArguments),
      ("attributes", .node attributes)]⟩
  | closing tagName => ⟨"JsxClosing", [("tag_name", .node tagName)]⟩
  | property name initializer =>
    ⟨"JsxAttribute", [("name", .node name), ("initializer", .node initializer)]⟩
  | expression dots value =>
    ⟨"JsxExpression", [("dot_dot_dot_token", .flag dots), ("expression", .node value)]⟩

def read? (shape : String) (r : FieldReader) : Option Jsx :=
  match shape with
  | "JsxElement" => some (.element (r.node "opening_element") (r.list "children")
      (r.node "closing_element"))
  | "JsxOpening" => some (.opening (r.node "tag_name") (r.optional "type_arguments")
      (r.node "attributes"))
  | "JsxClosing" => some (.closing (r.node "tag_name"))
  | "JsxAttribute" => some (.property (r.node "name") (r.node "initializer"))
  | "JsxExpression" => some (.expression (r.flag "dot_dot_dot_token") (r.node "expression"))
  | _ => none

def name : Jsx → NodeRef
  | property name _ => name
  | _ => none

end Jsx

end SourceIndex
