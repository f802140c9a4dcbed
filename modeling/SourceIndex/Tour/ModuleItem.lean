import SourceIndex.Tour.Step

/-! The steps inside imports and exports. -/

namespace SourceIndex

open Step

def ModuleItem.steps? (kind : Kind) : ModuleItem → Option (List Step)
  | .importDecl modifiers clause moduleSpecifier attributes =>
    match kind with
    | .importDeclaration =>
      some (listed modifiers ++ operator "import" ::
        (if clause.isSome then [visit clause, operator "from"] else []) ++
        [visit moduleSpecifier, visit attributes])
    | _ => none
  | .importClause isTypeOnly name namedBindings =>
    match kind with
    | .importClause =>
      some (flag isTypeOnly "type" ++ visit name ::
        flag (name.isSome && namedBindings.isSome) "," ++ [visit namedBindings])
    | _ => none
  | .specifier isTypeOnly propertyName name =>
    match kind with
    | .namespaceImport | .namespaceExport => some [operator "*", operator "as", visit name]
    | .importSpecifier | .exportSpecifier =>
      some (flag isTypeOnly "type" ++
        (if propertyName.isSome then [visit propertyName, operator "as"] else []) ++ [visit name])
    | .namespaceExportDeclaration =>
      some [operator "export", operator "as", operator "namespace", visit name]
    | _ => none
  | .exportDecl modifiers isTypeOnly exportClause moduleSpecifier attributes =>
    match kind with
    | .exportDeclaration =>
      some (listed modifiers ++ operator "export" :: flag isTypeOnly "type" ++
        (if exportClause.isSome then visit exportClause else operator "*") ::
        introduced "from" moduleSpecifier ++ [visit attributes])
    | _ => none
  | .exportAssignment modifiers isExportEquals expression =>
    match kind with
    | .exportAssignment =>
      some (listed modifiers ++
        [operator "export", operator (if isExportEquals then "=" else "default"), visit expression])
    | _ => none
  | .importEquals modifiers isTypeOnly name moduleReference =>
    match kind with
    | .importEqualsDeclaration =>
      some (listed modifiers ++ operator "import" :: flag isTypeOnly "type" ++
        visit name :: introduced "=" moduleReference)
    | _ => none
  | .importAttributes keyword elements =>
    match kind with
    | .importAttributes =>
      some (operator (keyword.tokenText?.getD "with") :: operator "\x7b\x7d" :: separated elements)
    | _ => none

end SourceIndex
