import SourceIndex.Tree.Field

/-! Payloads of declarations: variables, functions, members, classes, types, enumerations and
modules, with the clauses and parameters that belong to them. -/

namespace SourceIndex

inductive Declaration where
  | variableList (modifiers : Option (List NodeRef)) (declarations : List NodeRef)
  | declarator (name : NodeRef) (exclamation : Bool) (type initializer : NodeRef)
  | function (modifiers : Option (List NodeRef)) (asterisk : Bool) (name : NodeRef)
      (typeParameters : Option (List NodeRef)) (parameters : List NodeRef) (type body : NodeRef)
  | method (modifiers : Option (List NodeRef)) (asterisk : Bool) (name : NodeRef) (question : Bool)
      (typeParameters : Option (List NodeRef)) (parameters : List NodeRef) (type body : NodeRef)
  | constructor (modifiers typeParameters : Option (List NodeRef)) (parameters : List NodeRef)
      (body : NodeRef)
  | accessor (modifiers : Option (List NodeRef)) (name : NodeRef)
      (typeParameters : Option (List NodeRef)) (parameters : List NodeRef) (type body : NodeRef)
  | signature (modifiers : Option (List NodeRef)) (name : NodeRef) (question : Bool)
      (typeParameters parameters : Option (List NodeRef)) (type : NodeRef)
  | indexSignature (modifiers : Option (List NodeRef)) (parameters : List NodeRef) (type : NodeRef)
  | parameter (modifiers : Option (List NodeRef)) (dots : Bool) (name : NodeRef) (question : Bool)
      (type initializer : NodeRef)
  | typeParameter (modifiers : Option (List NodeRef)) (name constraint fallback : NodeRef)
  | property (modifiers : Option (List NodeRef)) (name : NodeRef) (question exclamation : Bool)
      (type initializer : NodeRef)
  | classLike (modifiers : Option (List NodeRef)) (name : NodeRef)
      (typeParameters heritageClauses : Option (List NodeRef)) (members : List NodeRef)
  | interface (modifiers : Option (List NodeRef)) (name : NodeRef)
      (typeParameters heritageClauses : Option (List NodeRef)) (members : List NodeRef)
  | typeAlias (modifiers : Option (List NodeRef)) (name : NodeRef)
      (typeParameters : Option (List NodeRef)) (type : NodeRef)
  | enumeration (modifiers : Option (List NodeRef)) (name : NodeRef) (members : List NodeRef)
  | enumMember (name initializer : NodeRef)
  | moduleLike (modifiers : Option (List NodeRef)) (name body : NodeRef)
  | heritage (isImplements : Bool) (types : List NodeRef)

namespace Declaration

def layout : Declaration → Layout
  | variableList modifiers declarations =>
    ⟨"Variable", [("modifiers", .optional modifiers), ("declarations", .list declarations)]⟩
  | declarator name exclamation type initializer =>
    ⟨"VariableDeclaration", [("name", .node name), ("exclamation_token", .flag exclamation),
      ("type_annotation", .node type), ("initializer", .node initializer)]⟩
  | function modifiers asterisk name typeParameters parameters type body =>
    ⟨"Function", [("modifiers", .optional modifiers), ("asterisk_token", .flag asterisk),
      ("name", .node name), ("type_parameters", .optional typeParameters),
      ("parameters", .list parameters), ("type_annotation", .node type), ("body", .node body)]⟩
  | method modifiers asterisk name question typeParameters parameters type body =>
    ⟨"MethodDecl", [("modifiers", .optional modifiers), ("asterisk_token", .flag asterisk),
      ("name", .node name), ("question_token", .flag question),
      ("type_parameters", .optional typeParameters), ("parameters", .list parameters),
      ("type_annotation", .node type), ("body", .node body)]⟩
  | constructor modifiers typeParameters parameters body =>
    ⟨"Constructor", [("modifiers", .optional modifiers),
      ("type_parameters", .optional typeParameters), ("parameters", .list parameters),
      ("body", .node body)]⟩
  | accessor modifiers name typeParameters parameters type body =>
    ⟨"Accessor", [("modifiers", .optional modifiers), ("name", .node name),
      ("type_parameters", .optional typeParameters), ("parameters", .list parameters),
      ("type_annotation", .node type), ("body", .node body)]⟩
  | signature modifiers name question typeParameters parameters type =>
    ⟨"Signature", [("modifiers", .optional modifiers), ("name", .node name),
      ("question_token", .flag question), ("type_parameters", .optional typeParameters),
      ("parameters", .optional parameters), ("type_annotation", .node type)]⟩
  | indexSignature modifiers parameters type =>
    ⟨"IndexSignature", [("modifiers", .optional modifiers), ("parameters", .list parameters),
      ("type_annotation", .node type)]⟩
  | parameter modifiers dots name question type initializer =>
    ⟨"Parameter", [("modifiers", .optional modifiers), ("dot_dot_dot_token", .flag dots),
      ("name", .node name), ("question_token", .flag question), ("type_annotation", .node type),
      ("initializer", .node initializer)]⟩
  | typeParameter modifiers name constraint fallback =>
    ⟨"TypeParameter", [("modifiers", .optional modifiers), ("name", .node name),
      ("constraint", .node constraint), ("default", .node fallback)]⟩
  | property modifiers name question exclamation type initializer =>
    ⟨"PropertyDecl", [("modifiers", .optional modifiers), ("name", .node name),
      ("question_token", .flag question), ("exclamation_token", .flag exclamation),
      ("type_annotation", .node type), ("initializer", .node initializer)]⟩
  | classLike modifiers name typeParameters heritageClauses members =>
    ⟨"Class", [("modifiers", .optional modifiers), ("name", .node name),
      ("type_parameters", .optional typeParameters),
      ("heritage_clauses", .optional heritageClauses), ("members", .list members)]⟩
  | interface modifiers name typeParameters heritageClauses members =>
    ⟨"Interface", [("modifiers", .optional modifiers), ("name", .node name),
      ("type_parameters", .optional typeParameters),
      ("heritage_clauses", .optional heritageClauses), ("members", .list members)]⟩
  | typeAlias modifiers name typeParameters type =>
    ⟨"TypeAlias", [("modifiers", .optional modifiers), ("name", .node name),
      ("type_parameters", .optional typeParameters), ("type_node", .node type)]⟩
  | enumeration modifiers name members =>
    ⟨"Enum", [("modifiers", .optional modifiers), ("name", .node name), ("members", .list members)]⟩
  | enumMember name initializer =>
    ⟨"EnumMember", [("name", .node name), ("initializer", .node initializer)]⟩
  | moduleLike modifiers name body =>
    ⟨"Module", [("modifiers", .optional modifiers), ("name", .node name), ("body", .node body)]⟩
  | heritage isImplements types =>
    ⟨"Heritage", [("is_implements", .flag isImplements), ("types", .list types)]⟩

def read? (shape : String) (r : FieldReader) : Option Declaration :=
  match shape with
  | "Variable" => some (.variableList (r.optional "modifiers") (r.list "declarations"))
  | "VariableDeclaration" => some (.declarator (r.node "name") (r.flag "exclamation_token")
      (r.node "type_annotation") (r.node "initializer"))
  | "Function" => some (.function (r.optional "modifiers") (r.flag "asterisk_token") (r.node "name")
      (r.optional "type_parameters") (r.list "parameters") (r.node "type_annotation")
      (r.node "body"))
  | "MethodDecl" => some (.method (r.optional "modifiers") (r.flag "asterisk_token") (r.node "name")
      (r.flag "question_token") (r.optional "type_parameters") (r.list "parameters")
      (r.node "type_annotation") (r.node "body"))
  | "Constructor" => some (.constructor (r.optional "modifiers") (r.optional "type_parameters")
      (r.list "parameters") (r.node "body"))
  | "Accessor" => some (.accessor (r.optional "modifiers") (r.node "name")
      (r.optional "type_parameters") (r.list "parameters") (r.node "type_annotation")
      (r.node "body"))
  | "Signature" => some (.signature (r.optional "modifiers") (r.node "name")
      (r.flag "question_token") (r.optional "type_parameters") (r.optional "parameters")
      (r.node "type_annotation"))
  | "IndexSignature" => some (.indexSignature (r.optional "modifiers") (r.list "parameters")
      (r.node "type_annotation"))
  | "Parameter" => some (.parameter (r.optional "modifiers") (r.flag "dot_dot_dot_token")
      (r.node "name") (r.flag "question_token") (r.node "type_annotation") (r.node "initializer"))
  | "TypeParameter" => some (.typeParameter (r.optional "modifiers") (r.node "name")
      (r.node "constraint") (r.node "default"))
  | "PropertyDecl" => some (.property (r.optional "modifiers") (r.node "name")
      (r.flag "question_token") (r.flag "exclamation_token") (r.node "type_annotation")
      (r.node "initializer"))
  | "Class" => some (.classLike (r.optional "modifiers") (r.node "name")
      (r.optional "type_parameters") (r.optional "heritage_clauses") (r.list "members"))
  | "Interface" => some (.interface (r.optional "modifiers") (r.node "name")
      (r.optional "type_parameters") (r.optional "heritage_clauses") (r.list "members"))
  | "TypeAlias" => some (.typeAlias (r.optional "modifiers") (r.node "name")
      (r.optional "type_parameters") (r.node "type_node"))
  | "Enum" => some (.enumeration (r.optional "modifiers") (r.node "name") (r.list "members"))
  | "EnumMember" => some (.enumMember (r.node "name") (r.node "initializer"))
  | "Module" => some (.moduleLike (r.optional "modifiers") (r.node "name") (r.node "body"))
  | "Heritage" => some (.heritage (r.flag "is_implements") (r.list "types"))
  | _ => none

def name : Declaration → NodeRef
  | declarator name _ _ _ => name
  | function _ _ name _ _ _ _ => name
  | method _ _ name _ _ _ _ _ => name
  | accessor _ name _ _ _ _ => name
  | signature _ name _ _ _ _ => name
  | parameter _ _ name _ _ _ => name
  | typeParameter _ name _ _ => name
  | property _ name _ _ _ _ => name
  | classLike _ name _ _ _ => name
  | interface _ name _ _ _ => name
  | typeAlias _ name _ _ => name
  | enumeration _ name _ => name
  | enumMember name _ => name
  | moduleLike _ name _ => name
  | _ => none

def modifiers : Declaration → Option (List NodeRef)
  | variableList modifiers _ => modifiers
  | function modifiers _ _ _ _ _ _ => modifiers
  | method modifiers _ _ _ _ _ _ _ => modifiers
  | constructor modifiers _ _ _ => modifiers
  | accessor modifiers _ _ _ _ _ => modifiers
  | signature modifiers _ _ _ _ _ => modifiers
  | indexSignature modifiers _ _ => modifiers
  | parameter modifiers _ _ _ _ _ => modifiers
  | typeParameter modifiers _ _ _ => modifiers
  | property modifiers _ _ _ _ _ => modifiers
  | classLike modifiers _ _ _ _ => modifiers
  | interface modifiers _ _ _ _ => modifiers
  | typeAlias modifiers _ _ _ => modifiers
  | enumeration modifiers _ _ => modifiers
  | moduleLike modifiers _ _ => modifiers
  | _ => none

end Declaration

end SourceIndex
