import SourceIndex.Tree.Field

/-! Payloads of expressions, of templates and of the elements of literals and patterns. One shape
often serves several kinds of nodes. -/

namespace SourceIndex

inductive Expression where
  | instantiated (expression : NodeRef) (typeArguments : Option (List NodeRef))
  | binary (left : NodeRef) (operator : Kind) (right : NodeRef)
  | unary (operator : Kind) (operand : NodeRef)
  | wrapped (expression : NodeRef) (asterisk : Bool)
  | conditional (condition whenTrue whenFalse : NodeRef)
  | call (expression : NodeRef) (typeArguments arguments : Option (List NodeRef))
  | access (expression argument : NodeRef) (questionDot : Bool)
  | taggedTemplate (tag : NodeRef) (typeArguments : Option (List NodeRef)) (content : NodeRef)
  | assertion (expression type : NodeRef)
  | template (head : NodeRef) (templateSpans : List NodeRef)
  | templateSpan (expression literal : NodeRef)
  | elements (items : List NodeRef)
  | property (name initializer : NodeRef)
  | shorthand (name initializer : NodeRef)
  | binding (dots : Bool) (propertyName name initializer : NodeRef)
  | metaProperty (keyword : Kind) (name : NodeRef)

namespace Expression

def layout : Expression → Layout
  | instantiated expression typeArguments =>
    ⟨"ExprWithTypeArgs", [("expression", .node expression),
      ("type_arguments", .optional typeArguments)]⟩
  | binary left operator right =>
    ⟨"BinaryExpr", [("left", .node left), ("operator_token", .kind operator),
      ("right", .node right)]⟩
  | unary operator operand =>
    ⟨"UnaryExpr", [("operator", .kind operator), ("operand", .node operand)]⟩
  | wrapped expression asterisk =>
    ⟨"UnaryExprEx", [("expression", .node expression), ("asterisk_token", .flag asterisk)]⟩
  | conditional condition whenTrue whenFalse =>
    ⟨"ConditionalExpr", [("condition", .node condition), ("when_true", .node whenTrue),
      ("when_false", .node whenFalse)]⟩
  | call expression typeArguments arguments =>
    ⟨"CallExpr", [("expression", .node expression), ("type_arguments", .optional typeArguments),
      ("arguments", .optional arguments)]⟩
  | access expression argument questionDot =>
    ⟨"AccessExpr", [("expression", .node expression), ("name_or_argument", .node argument),
      ("question_dot_token", .flag questionDot)]⟩
  | taggedTemplate tag typeArguments content =>
    ⟨"TaggedTemplate", [("tag", .node tag), ("type_arguments", .optional typeArguments),
      ("template", .node content)]⟩
  | assertion expression type =>
    ⟨"TypeAssertion", [("expression", .node expression), ("type_node", .node type)]⟩
  | template head templateSpans =>
    ⟨"TemplateExpr", [("head", .node head), ("template_spans", .list templateSpans)]⟩
  | templateSpan expression literal =>
    ⟨"TemplateSpan", [("expression", .node expression), ("literal", .node literal)]⟩
  | elements items => ⟨"LiteralExpr", [("elements", .list items)]⟩
  | property name initializer =>
    ⟨"PropertyAssignment", [("name", .node name), ("initializer", .node initializer)]⟩
  | shorthand name initializer =>
    ⟨"ShorthandProperty", [("name", .node name),
      ("object_assignment_initializer", .node initializer)]⟩
  | binding dots propertyName name initializer =>
    ⟨"BindingElement", [("dot_dot_dot_token", .flag dots), ("property_name", .node propertyName),
      ("name", .node name), ("initializer", .node initializer)]⟩
  | metaProperty keyword name =>
    ⟨"MetaProperty", [("keyword_token", .kind keyword), ("name", .node name)]⟩

def read? (shape : String) (r : FieldReader) : Option Expression :=
  match shape with
  | "ExprWithTypeArgs" => some (.instantiated (r.node "expression") (r.optional "type_arguments"))
  | "BinaryExpr" => some (.binary (r.node "left") (r.kind "operator_token") (r.node "right"))
  | "UnaryExpr" => some (.unary (r.kind "operator") (r.node "operand"))
  | "UnaryExprEx" => some (.wrapped (r.node "expression") (r.flag "asterisk_token"))
  | "ConditionalExpr" => some (.conditional (r.node "condition") (r.node "when_true")
      (r.node "when_false"))
  | "CallExpr" => some (.call (r.node "expression") (r.optional "type_arguments")
      (r.optional "arguments"))
  | "AccessExpr" => some (.access (r.node "expression") (r.node "name_or_argument")
      (r.flag "question_dot_token"))
  | "TaggedTemplate" => some (.taggedTemplate (r.node "tag") (r.optional "type_arguments")
      (r.node "template"))
  | "TypeAssertion" => some (.assertion (r.node "expression") (r.node "type_node"))
  | "TemplateExpr" => some (.template (r.node "head") (r.list "template_spans"))
  | "TemplateSpan" => some (.templateSpan (r.node "expression") (r.node "literal"))
  | "LiteralExpr" => some (.elements (r.list "elements"))
  | "PropertyAssignment" => some (.property (r.node "name") (r.node "initializer"))
  | "ShorthandProperty" => some (.shorthand (r.node "name")
      (r.node "object_assignment_initializer"))
  | "BindingElement" => some (.binding (r.flag "dot_dot_dot_token") (r.node "property_name")
      (r.node "name") (r.node "initializer"))
  | "MetaProperty" => some (.metaProperty (r.kind "keyword_token") (r.node "name"))
  | _ => none

def name : Expression → NodeRef
  | property name _ => name
  | shorthand name _ => name
  | binding _ _ name _ => name
  | _ => none

end Expression

end SourceIndex
