import SourceIndex.Tree.Field

/-! Payloads of types. -/

namespace SourceIndex

inductive TypeNode where
  | qualifiedName (left right : NodeRef)
  | reference (typeName : NodeRef) (typeArguments : Option (List NodeRef))
  | function (modifiers typeParameters : Option (List NodeRef)) (parameters : List NodeRef)
      (type : NodeRef)
  | query (exprName : NodeRef) (typeArguments : Option (List NodeRef))
  | array (elementType : NodeRef)
  | wrapped (type : NodeRef)
  | composite (types : List NodeRef)
  | conditional (checkType extendsType trueType falseType : NodeRef)
  | infer (typeParameter : NodeRef)
  | operator (op : Kind) (type : NodeRef)
  | indexedAccess (objectType indexType : NodeRef)
  | mapped (isReadonly : Bool) (typeParameter nameType : NodeRef) (question : Bool) (type : NodeRef)
  | literal (value : NodeRef)
  | tupleMember (dots : Bool) (name : NodeRef) (question : Bool) (type : NodeRef)
  | predicate (isAsserts : Bool) (parameterName type : NodeRef)
  | imported (isTypeOf : Bool) (argument qualifier : NodeRef)
      (typeArguments : Option (List NodeRef))

namespace TypeNode

def layout : TypeNode → Layout
  | qualifiedName left right => ⟨"QualifiedName", [("left", .node left), ("right", .node right)]⟩
  | reference typeName typeArguments =>
    ⟨"TypeRef", [("type_name", .node typeName), ("type_arguments", .optional typeArguments)]⟩
  | function modifiers typeParameters parameters type =>
    ⟨"FunctionType", [("modifiers", .optional modifiers),
      ("type_parameters", .optional typeParameters), ("parameters", .list parameters),
      ("type_annotation", .node type)]⟩
  | query exprName typeArguments =>
    ⟨"TypeQuery", [("expr_name", .node exprName), ("type_arguments", .optional typeArguments)]⟩
  | array elementType => ⟨"ArrayType", [("element_type", .node elementType)]⟩
  | wrapped type => ⟨"WrappedType", [("type_node", .node type)]⟩
  | composite types => ⟨"CompositeType", [("types", .list types)]⟩
  | conditional checkType extendsType trueType falseType =>
    ⟨"ConditionalType", [("check_type", .node checkType), ("extends_type", .node extendsType),
      ("true_type", .node trueType), ("false_type", .node falseType)]⟩
  | infer typeParameter => ⟨"InferType", [("type_parameter", .node typeParameter)]⟩
  | operator op type => ⟨"TypeOperator", [("operator", .kind op), ("type_node", .node type)]⟩
  | indexedAccess objectType indexType =>
    ⟨"IndexedAccessType", [("object_type", .node objectType), ("index_type", .node indexType)]⟩
  | mapped isReadonly typeParameter nameType question type =>
    ⟨"MappedType", [("readonly_token", .flag isReadonly), ("type_parameter", .node typeParameter),
      ("name_type", .node nameType), ("question_token", .flag question), ("type_node", .node type)]⟩
  | literal value => ⟨"LiteralType", [("literal", .node value)]⟩
  | tupleMember dots name question type =>
    ⟨"NamedTupleMember", [("dot_dot_dot_token", .flag dots), ("name", .node name),
      ("question_token", .flag question), ("type_node", .node type)]⟩
  | predicate isAsserts parameterName type =>
    ⟨"TypePredicate", [("asserts_modifier", .flag isAsserts),
      ("parameter_name", .node parameterName), ("type_node", .node type)]⟩
  | imported isTypeOf argument qualifier typeArguments =>
    ⟨"ImportType", [("is_type_of", .flag isTypeOf), ("argument", .node argument),
      ("qualifier", .node qualifier), ("type_arguments", .optional typeArguments)]⟩

def read? (shape : String) (r : FieldReader) : Option TypeNode :=
  match shape with
  | "QualifiedName" => some (.qualifiedName (r.node "left") (r.node "right"))
  | "TypeRef" => some (.reference (r.node "type_name") (r.optional "type_arguments"))
  | "FunctionType" => some (.function (r.optional "modifiers") (r.optional "type_parameters")
      (r.list "parameters") (r.node "type_annotation"))
  | "TypeQuery" => some (.query (r.node "expr_name") (r.optional "type_arguments"))
  | "ArrayType" => some (.array (r.node "element_type"))
  | "WrappedType" => some (.wrapped (r.node "type_node"))
  | "CompositeType" => some (.composite (r.list "types"))
  | "ConditionalType" => some (.conditional (r.node "check_type") (r.node "extends_type")
      (r.node "true_type") (r.node "false_type"))
  | "InferType" => some (.infer (r.node "type_parameter"))
  | "TypeOperator" => some (.operator (r.kind "operator") (r.node "type_node"))
  | "IndexedAccessType" => some (.indexedAccess (r.node "object_type") (r.node "index_type"))
  | "MappedType" => some (.mapped (r.flag "readonly_token") (r.node "type_parameter")
      (r.node "name_type") (r.flag "question_token") (r.node "type_node"))
  | "LiteralType" => some (.literal (r.node "literal"))
  | "NamedTupleMember" => some (.tupleMember (r.flag "dot_dot_dot_token") (r.node "name")
      (r.flag "question_token") (r.node "type_node"))
  | "TypePredicate" => some (.predicate (r.flag "asserts_modifier") (r.node "parameter_name")
      (r.node "type_node"))
  | "ImportType" => some (.imported (r.flag "is_type_of") (r.node "argument") (r.node "qualifier")
      (r.optional "type_arguments"))
  | _ => none

def name : TypeNode → NodeRef
  | tupleMember _ name _ _ => name
  | _ => none

def modifiers : TypeNode → Option (List NodeRef)
  | function modifiers _ _ _ => modifiers
  | _ => none

end TypeNode

end SourceIndex
