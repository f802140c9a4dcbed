import SourceIndex.Tree.Kind

/-! The kind of a declaration as it is written into its range, a small number. -/

namespace SourceIndex

inductive DeclarationKind where
  | unknown | moduleLike | namespaceLike | classLike | method | property | constructor
  | enumeration | interface | function | variableLike | typeParameter
  deriving DecidableEq

namespace DeclarationKind

def ofKind : Kind → DeclarationKind
  | .moduleDeclaration => .moduleLike
  | .namespaceExportDeclaration => .namespaceLike
  | .classDeclaration => .classLike
  | .methodDeclaration | .constructSignature | .getAccessor | .setAccessor => .method
  | .propertyDeclaration => .property
  | .constructor => .constructor
  | .enumDeclaration => .enumeration
  | .interfaceDeclaration => .interface
  | .functionDeclaration => .function
  | .variableDeclaration => .variableLike
  | .typeParameter => .typeParameter
  | _ => .unknown

def code : DeclarationKind → Nat
  | unknown => 0
  | moduleLike => 2
  | namespaceLike => 3
  | classLike => 5
  | method => 6
  | property => 7
  | constructor => 9
  | enumeration => 10
  | interface => 11
  | function => 12
  | variableLike => 13
  | typeParameter => 26

def name : DeclarationKind → String
  | unknown => "Unknown"
  | moduleLike => "Module"
  | namespaceLike => "Namespace"
  | classLike => "Class"
  | method => "Method"
  | property => "Property"
  | constructor => "Constructor"
  | enumeration => "Enum"
  | interface => "Interface"
  | function => "Function"
  | variableLike => "Variable"
  | typeParameter => "TypeParameter"

end DeclarationKind

end SourceIndex
