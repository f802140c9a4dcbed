import SourceIndex.Tour.Step

/-! The steps inside expressions, templates, literals and patterns. -/

namespace SourceIndex

open Step

def Expression.steps? (kind : Kind) : Expression → Option (List Step)
  | .instantiated expression typeArguments =>
    match kind with
    | .expressionWithTypeArguments => some (visit expression :: angle typeArguments)
    | _ => none
  | .binary left op right =>
    match kind with
    | .binaryExpression => some (visit left :: tokenOf op ++ [visit right])
    | _ => none
  | .unary op argument =>
    match kind with
    | .prefixUnaryExpression => some (tokenOf op ++ [visit argument])
    | .postfixUnaryExpression => some (visit argument :: tokenOf op)
    | _ => none
  | .wrapped expression asterisk =>
    match kind with
    | .decorator => some [operator "@", visit expression]
    | .computedPropertyName => some [operator "[]", visit expression]
    | .parenthesizedExpression => some [operator "()", visit expression]
    | .deleteExpression => some [operator "delete", visit expression]
    | .typeOfExpression => some [operator "typeof", visit expression]
    | .voidExpression => some [operator "void", visit expression]
    | .awaitExpression => some [operator "await", visit expression]
    | .yieldExpression => some (operator "yield" :: flag asterisk "*" ++ [visit expression])
    | .spreadElement | .spreadAssignment => some [operator "...", visit expression]
    | .nonNullExpression => some [visit expression, operator "!"]
    | .externalModuleReference => some [operator "require", operator "()", visit expression]
    -- what is spread into a tag is not looked at
    | .jsxSpreadAttribute => some [operator "..."]
    | _ => none
  | .conditional condition whenTrue whenFalse =>
    match kind with
    | .conditionalExpression =>
      some [visit condition, operator "?", visit whenTrue, operator ":", visit whenFalse]
    | _ => none
  | .call expression typeArguments arguments =>
    match kind with
    | .callExpression =>
      some (visit expression :: angle typeArguments ++ parens (arguments.getD []))
    | .newExpression =>
      some (operator "new" :: visit expression :: angle typeArguments ++
        (arguments.map parens).getD [])
    | _ => none
  | .access expression argument questionDot =>
    match kind with
    | .propertyAccessExpression =>
      some (visit expression :: flag questionDot "?" ++ [operator ".", visit argument])
    | .elementAccessExpression =>
      some (visit expression :: flag questionDot "?" ++ [operator "[]", visit argument])
    | _ => none
  | .taggedTemplate tag typeArguments content =>
    match kind with
    | .taggedTemplateExpression => some (visit tag :: angle typeArguments ++ [visit content])
    | _ => none
  | .assertion expression type =>
    match kind with
    | .typeAssertionExpression => some [operator "<>", visit type, visit expression]
    | .asExpression => some [visit expression, operator "as", visit type]
    | .satisfiesExpression => some [visit expression, operator "satisfies", visit type]
    | _ => none
  | .template head templateSpans =>
    match kind with
    | .templateExpression | .templateLiteralType => some (visit head :: visits templateSpans)
    | _ => none
  | .templateSpan expression literal =>
    match kind with
    | .templateSpan | .templateLiteralTypeSpan =>
      some [operator "$\x7b\x7d", visit expression, visit literal]
    | _ => none
  | .elements items =>
    match kind with
    | .arrayLiteralExpression | .arrayBindingPattern | .tupleType =>
      some (operator "[]" :: separated items)
    | .objectLiteralExpression | .objectBindingPattern | .namedImports | .namedExports =>
      some (operator "\x7b\x7d" :: separated items)
    | .typeLiteral => some (operator "\x7b\x7d" :: visits items)
    | .jsxAttributes => some (visits items)
    | _ => none
  | .property name value =>
    match kind with
    | .propertyAssignment | .importAttribute => some (visit name :: introduced ":" value)
    | _ => none
  | .shorthand name value =>
    match kind with
    | .shorthandPropertyAssignment => some (visit name :: initializer value)
    | _ => none
  | .binding dots propertyName name value =>
    match kind with
    | .bindingElement =>
      some (flag dots "..." ++
        (if propertyName.isSome then [visit propertyName, operator ":"] else []) ++
        visit name :: initializer value)
    | _ => none
  | .metaProperty keyword name =>
    match kind with
    | .metaProperty => some (tokenOf keyword ++ [operator ".", visit name])
    | _ => none

end SourceIndex
