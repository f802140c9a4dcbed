import SourceIndex.Tour.Step

/-! The steps inside declarations. -/

namespace SourceIndex

open Step

def Node.listKeyword (n : Node) : String :=
  if n.hasFlag Node.constFlag then "const"
  else if n.hasFlag Node.letFlag then "let"
  else if n.hasFlag Node.usingFlag then "using"
  else "var"

/-- The keyword a module starts with; an augmentation of the global scope has none. -/
def Node.moduleKeyword (n : Node) : List Step :=
  if n.hasFlag Node.nestedFlag then [operator "."]
  else if n.hasFlag Node.namespaceFlag then [operator "namespace"]
  else if n.hasFlag Node.globalFlag then []
  else [operator "module"]

/-- Nothing when the node's kind has no rule for this shape. The flag tells whether the node is the
parameter of a mapped type. -/
def Declaration.steps? (n : Node) (inMapped : Bool) : Declaration → Option (List Step)
  | .variableList modifiers declarations =>
    match n.kind with
    | .variableStatement => some (listed modifiers ++ visits declarations)
    | .variableDeclarationList => some (operator n.listKeyword :: separated declarations)
    | _ => none
  | .declarator name exclamation type value =>
    match n.kind with
    | .variableDeclaration =>
      some (visit name :: flag exclamation "!" ++ typed type ++ initializer value)
    | _ => none
  | .function modifiers asterisk name typeParameters parameters type body =>
    match n.kind with
    | .functionDeclaration | .functionExpression =>
      some (listed modifiers ++ operator "function" :: flag asterisk "*" ++
        visit name :: angle typeParameters ++ parens parameters ++ typed type ++ [visit body])
    | .arrowFunction =>
      some (listed modifiers ++ angle typeParameters ++ parens parameters ++ typed type ++
        [operator "=>", visit body])
    | _ => none
  | .method modifiers asterisk name question typeParameters parameters type body =>
    match n.kind with
    | .methodDeclaration =>
      some (listed modifiers ++ flag asterisk "*" ++ visit name :: flag question "?" ++
        angle typeParameters ++ parens parameters ++ typed type ++ [visit body])
    | _ => none
  | .constructor modifiers typeParameters parameters body =>
    match n.kind with
    | .constructor =>
      some (listed modifiers ++ operator "constructor" :: angle typeParameters ++
        parens parameters ++ [visit body])
    | _ => none
  | .accessor modifiers name typeParameters parameters type body =>
    let steps (keyword : String) := listed modifiers ++ operator keyword :: visit name ::
      angle typeParameters ++ parens parameters ++ typed type ++ [visit body]
    match n.kind with
    | .getAccessor => some (steps "get")
    | .setAccessor => some (steps "set")
    | _ => none
  | .signature modifiers name question typeParameters parameters type =>
    let steps (isNew : Bool) := listed modifiers ++ flag isNew "new" ++
      visit name :: flag question "?" ++ angle typeParameters ++
      (parameters.map parens).getD [] ++ typed type
    match n.kind with
    | .propertySignature | .methodSignature | .callSignature => some (steps false)
    | .constructSignature => some (steps true)
    | _ => none
  | .indexSignature modifiers parameters type =>
    match n.kind with
    | .indexSignature =>
      some (listed modifiers ++ operator "[]" :: separated parameters ++ typed type)
    | _ => none
  | .parameter modifiers dots name question type value =>
    match n.kind with
    | .parameter =>
      some (listed modifiers ++ flag dots "..." ++ visit name :: flag question "?" ++
        typed type ++ initializer value)
    | _ => none
  | .typeParameter modifiers name constraint fallback =>
    match n.kind with
    | .typeParameter =>
      some (listed modifiers ++
        visit name :: introduced (if inMapped then "in" else "extends") constraint ++
        initializer fallback)
    | _ => none
  | .property modifiers name question exclamation type value =>
    match n.kind with
    | .propertyDeclaration =>
      some (listed modifiers ++ visit name :: flag question "?" ++ flag exclamation "!" ++
        typed type ++ initializer value)
    | _ => none
  | .classLike modifiers name typeParameters heritageClauses members =>
    match n.kind with
    | .classDeclaration | .classExpression =>
      some (listed modifiers ++ operator "class" :: visit name :: angle typeParameters ++
        listed heritageClauses ++ operator "\x7b\x7d" :: visits members)
    | _ => none
  | .interface modifiers name typeParameters heritageClauses members =>
    match n.kind with
    | .interfaceDeclaration =>
      some (listed modifiers ++ operator "interface" :: visit name :: angle typeParameters ++
        listed heritageClauses ++ operator "\x7b\x7d" :: visits members)
    | _ => none
  | .typeAlias modifiers name typeParameters type =>
    match n.kind with
    | .typeAliasDeclaration =>
      some (listed modifiers ++ operator "type" :: visit name :: angle typeParameters ++
        introduced "=" type)
    | _ => none
  | .enumeration modifiers name members =>
    match n.kind with
    | .enumDeclaration =>
      some (listed modifiers ++
        operator "enum" :: visit name :: operator "\x7b\x7d" :: separated members)
    | _ => none
  | .enumMember name value =>
    match n.kind with
    | .enumMember => some (visit name :: initializer value)
    | _ => none
  | .moduleLike modifiers name body =>
    match n.kind with
    | .moduleDeclaration =>
      some (listed modifiers ++ n.moduleKeyword ++ [visit name, visit body])
    | _ => none
  | .heritage isImplements types =>
    match n.kind with
    | .heritageClause =>
      some (operator (if isImplements then "implements" else "extends") :: separated types)
    | _ => none

end SourceIndex
