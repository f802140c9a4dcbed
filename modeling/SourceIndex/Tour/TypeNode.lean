import SourceIndex.Tour.Step

/-! The steps inside types. -/

namespace SourceIndex

open Step

def TypeNode.steps? (kind : Kind) : TypeNode → Option (List Step)
  | .qualifiedName left right =>
    match kind with
    | .qualifiedName => some [visit left, .operator ".", visit right]
    | _ => none
  | .reference typeName typeArguments =>
    match kind with
    | .typeReference => some (visit typeName :: angle typeArguments)
    | _ => none
  | .function modifiers typeParameters parameters type =>
    let steps (isNew : Bool) := listed modifiers ++ flag isNew "new" ++ angle typeParameters ++
      parens parameters ++ introduced "=>" type
    match kind with
    | .functionType => some (steps false)
    | .constructorType => some (steps true)
    | _ => none
  | .query exprName typeArguments =>
    match kind with
    | .typeQuery => some (.operator "typeof" :: visit exprName :: angle typeArguments)
    | _ => none
  | .array elementType =>
    match kind with
    | .arrayType => some [visit elementType, .operator "[]"]
    | _ => none
  | .wrapped type =>
    match kind with
    | .optionalType => some [visit type, .operator "?"]
    | .restType => some [.operator "...", visit type]
    | .parenthesizedType => some [.operator "()", visit type]
    | _ => none
  | .composite types =>
    match kind with
    | .unionType => some (joined "|" types)
    | .intersectionType => some (joined "&" types)
    | _ => none
  | .conditional checkType extendsType trueType falseType =>
    match kind with
    | .conditionalType =>
      some (visit checkType :: introduced "extends" extendsType ++ introduced "?" trueType ++
        introduced ":" falseType)
    | _ => none
  | .infer typeParameter =>
    match kind with
    | .inferType => some (introduced "infer" typeParameter)
    | _ => none
  | .operator op type =>
    match kind with
    | .typeOperator => some (tokenOf op ++ [visit type])
    | _ => none
  | .indexedAccess objectType indexType =>
    match kind with
    | .indexedAccessType => some [visit objectType, .operator "[]", visit indexType]
    | _ => none
  | .mapped isReadonly typeParameter nameType question type =>
    match kind with
    | .mappedType =>
      some (.operator "\x7b\x7d" :: flag isReadonly "readonly" ++
        .operator "[]" :: visit typeParameter :: introduced "as" nameType ++
        flag question "?" ++ typed type)
    | _ => none
  | .literal value =>
    match kind with
    | .literalType => some [visit value]
    | _ => none
  | .tupleMember dots name question type =>
    match kind with
    | .namedTupleMember =>
      some (flag dots "..." ++ visit name :: flag question "?" ++ typed type)
    | _ => none
  | .predicate isAsserts parameterName type =>
    match kind with
    | .typePredicate =>
      some (flag isAsserts "asserts" ++ visit parameterName :: introduced "is" type)
    | _ => none
  | .imported isTypeOf argument qualifier typeArguments =>
    match kind with
    | .importType =>
      some (flag isTypeOf "typeof" ++
        .operator "import" :: .operator "()" :: visit argument :: introduced "." qualifier ++
        angle typeArguments)
    | _ => none

end SourceIndex
