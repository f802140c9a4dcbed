/-! The kinds of syntax nodes, from single tokens to whole files, and the text a token is written
with. The order of the constructors is part of the format: a kind's number is its place in it. -/

namespace SourceIndex

inductive Kind where
  | unknown
  | openBraceToken | closeBraceToken | openParenToken | closeParenToken | openBracketToken
  | closeBracketToken | dotToken | dotDotDotToken | semicolonToken | commaToken | questionDotToken
  | lessThanToken | greaterThanToken | lessThanEqualsToken | greaterThanEqualsToken
  | equalsEqualsToken | exclamationEqualsToken | equalsEqualsEqualsToken
  | exclamationEqualsEqualsToken | equalsGreaterThanToken | plusToken | minusToken | asteriskToken
  | asteriskAsteriskToken | slashToken | percentToken | plusPlusToken | minusMinusToken
  | lessThanLessThanToken | greaterThanGreaterThanToken | greaterThanGreaterThanGreaterThanToken
  | ampersandToken | barToken | caretToken | exclamationToken | tildeToken
  | ampersandAmpersandToken | barBarToken | questionToken | colonToken | atToken
  | questionQuestionToken | equalsToken | plusEqualsToken | minusEqualsToken | asteriskEqualsToken
  | asteriskAsteriskEqualsToken | slashEqualsToken | percentEqualsToken
  | lessThanLessThanEqualsToken | greaterThanGreaterThanEqualsToken
  | greaterThanGreaterThanGreaterThanEqualsToken | ampersandEqualsToken | barEqualsToken
  | caretEqualsToken | barBarEqualsToken | ampersandAmpersandEqualsToken
  | questionQuestionEqualsToken
  | numericLiteral | bigIntLiteral | stringLiteral | jsxText | regularExpressionLiteral
  | noSubstitutionTemplateLiteral | templateHead | templateMiddle | templateTail
  | identifier | privateIdentifier
  | abstractKeyword | accessorKeyword | anyKeyword | assertKeyword | assertsKeyword | asyncKeyword
  | awaitKeyword | bigIntKeyword | booleanKeyword | constKeyword | declareKeyword | defaultKeyword
  | exportKeyword | falseKeyword | importKeyword | inKeyword | instanceOfKeyword | intrinsicKeyword
  | keyOfKeyword | neverKeyword | newKeyword | nullKeyword | numberKeyword | objectKeyword
  | outKeyword | overrideKeyword | privateKeyword | protectedKeyword | publicKeyword
  | readonlyKeyword | staticKeyword | stringKeyword | superKeyword | symbolKeyword | thisKeyword
  | trueKeyword | undefinedKeyword | uniqueKeyword | unknownKeyword | voidKeyword | withKeyword
  | qualifiedName | computedPropertyName | typeParameter | parameter | decorator
  | propertySignature | propertyDeclaration | methodSignature | methodDeclaration
  | classStaticBlockDeclaration | constructor | getAccessor | setAccessor | callSignature
  | constructSignature | indexSignature
  | typePredicate | typeReference | functionType | constructorType | typeQuery | typeLiteral
  | arrayType | tupleType | optionalType | restType | unionType | intersectionType
  | conditionalType | inferType | parenthesizedType | thisType | typeOperator | indexedAccessType
  | mappedType | literalType | namedTupleMember | templateLiteralType | templateLiteralTypeSpan
  | importType
  | objectBindingPattern | arrayBindingPattern | bindingElement
  | arrayLiteralExpression | objectLiteralExpression | propertyAccessExpression
  | elementAccessExpression | callExpression | newExpression | taggedTemplateExpression
  | typeAssertionExpression | parenthesizedExpression | functionExpression | arrowFunction
  | deleteExpression | typeOfExpression | voidExpression | awaitExpression | prefixUnaryExpression
  | postfixUnaryExpression | binaryExpression | conditionalExpression | templateExpression
  | yieldExpression | spreadElement | classExpression | omittedExpression
  | expressionWithTypeArguments | asExpression | nonNullExpression | metaProperty
  | satisfiesExpression
  | templateSpan | semicolonClassElement
  | block | emptyStatement | variableStatement | expressionStatement | ifStatement | doStatement
  | whileStatement | forStatement | forInStatement | forOfStatement | continueStatement
  | breakStatement | returnStatement | withStatement | switchStatement | labeledStatement
  | throwStatement | tryStatement | debuggerStatement | variableDeclaration
  | variableDeclarationList | functionDeclaration | classDeclaration | interfaceDeclaration
  | typeAliasDeclaration | enumDeclaration | moduleDeclaration | moduleBlock | caseBlock
  | namespaceExportDeclaration | importEqualsDeclaration | importDeclaration | importClause
  | namespaceImport | namedImports | importSpecifier | exportAssignment | exportDeclaration
  | namedExports | namespaceExport | exportSpecifier | importAttributes | importAttribute
  | externalModuleReference
  | jsxElement | jsxSelfClosingElement | jsxOpeningElement | jsxClosingElement | jsxFragment
  | jsxOpeningFragment | jsxClosingFragment | jsxAttribute | jsxAttributes | jsxSpreadAttribute
  | jsxExpression
  | caseClause | defaultClause | heritageClause | catchClause
  | propertyAssignment | shorthandPropertyAssignment | spreadAssignment
  | enumMember
  | sourceFile
  deriving DecidableEq, Inhabited

namespace Kind

def number (k : Kind) : Nat := k.ctorIdx

def tokenText? : Kind → Option String
  | .openBraceToken => some "\x7b" | .closeBraceToken => some "\x7d" | .openParenToken => some "("
  | .closeParenToken => some ")" | .openBracketToken => some "[" | .closeBracketToken => some "]"
  | .dotToken => some "." | .dotDotDotToken => some "..." | .semicolonToken => some ";"
  | .commaToken => some "," | .questionDotToken => some "?." | .lessThanToken => some "<"
  | .greaterThanToken => some ">" | .lessThanEqualsToken => some "<="
  | .greaterThanEqualsToken => some ">=" | .equalsEqualsToken => some "=="
  | .exclamationEqualsToken => some "!=" | .equalsEqualsEqualsToken => some "==="
  | .exclamationEqualsEqualsToken => some "!==" | .equalsGreaterThanToken => some "=>"
  | .plusToken => some "+" | .minusToken => some "-" | .asteriskToken => some "*"
  | .asteriskAsteriskToken => some "**" | .slashToken => some "/" | .percentToken => some "%"
  | .plusPlusToken => some "++" | .minusMinusToken => some "--"
  | .lessThanLessThanToken => some "<<" | .greaterThanGreaterThanToken => some ">>"
  | .greaterThanGreaterThanGreaterThanToken => some ">>>" | .ampersandToken => some "&"
  | .barToken => some "|" | .caretToken => some "^" | .exclamationToken => some "!"
  | .tildeToken => some "~" | .ampersandAmpersandToken => some "&&" | .barBarToken => some "||"
  | .questionToken => some "?" | .colonToken => some ":" | .atToken => some "@"
  | .questionQuestionToken => some "??" | .equalsToken => some "=" | .plusEqualsToken => some "+="
  | .minusEqualsToken => some "-=" | .asteriskEqualsToken => some "*="
  | .asteriskAsteriskEqualsToken => some "**=" | .slashEqualsToken => some "/="
  | .percentEqualsToken => some "%=" | .lessThanLessThanEqualsToken => some "<<="
  | .greaterThanGreaterThanEqualsToken => some ">>="
  | .greaterThanGreaterThanGreaterThanEqualsToken => some ">>>="
  | .ampersandEqualsToken => some "&=" | .barEqualsToken => some "|="
  | .caretEqualsToken => some "^=" | .barBarEqualsToken => some "||="
  | .ampersandAmpersandEqualsToken => some "&&=" | .questionQuestionEqualsToken => some "??="
  | .abstractKeyword => some "abstract" | .accessorKeyword => some "accessor"
  | .anyKeyword => some "any" | .assertKeyword => some "assert" | .assertsKeyword => some "asserts"
  | .asyncKeyword => some "async" | .awaitKeyword => some "await" | .bigIntKeyword => some "bigint"
  | .booleanKeyword => some "boolean" | .constKeyword => some "const"
  | .declareKeyword => some "declare" | .defaultKeyword => some "default"
  | .exportKeyword => some "export" | .falseKeyword => some "false"
  | .importKeyword => some "import" | .inKeyword => some "in"
  | .instanceOfKeyword => some "instanceof" | .intrinsicKeyword => some "intrinsic"
  | .keyOfKeyword => some "keyof" | .neverKeyword => some "never" | .newKeyword => some "new"
  | .nullKeyword => some "null" | .numberKeyword => some "number" | .objectKeyword => some "object"
  | .outKeyword => some "out" | .overrideKeyword => some "override"
  | .privateKeyword => some "private" | .protectedKeyword => some "protected"
  | .publicKeyword => some "public" | .readonlyKeyword => some "readonly"
  | .staticKeyword => some "static" | .stringKeyword => some "string"
  | .superKeyword => some "super" | .symbolKeyword => some "symbol" | .thisKeyword => some "this"
  | .trueKeyword => some "true" | .undefinedKeyword => some "undefined"
  | .uniqueKeyword => some "unique" | .unknownKeyword => some "unknown"
  | .voidKeyword => some "void" | .withKeyword => some "with" | _ => none

def isModifier : Kind → Bool
  | .abstractKeyword | .accessorKeyword | .asyncKeyword | .constKeyword | .declareKeyword
  | .defaultKeyword | .exportKeyword | .inKeyword | .outKeyword | .overrideKeyword
  | .privateKeyword | .protectedKeyword | .publicKeyword | .readonlyKeyword | .staticKeyword
  => true
  | _ => false

def isKeywordNode : Kind → Bool
  | .anyKeyword | .bigIntKeyword | .booleanKeyword | .falseKeyword | .importKeyword
  | .intrinsicKeyword | .neverKeyword | .nullKeyword | .numberKeyword | .objectKeyword
  | .stringKeyword | .superKeyword | .symbolKeyword | .thisKeyword | .trueKeyword
  | .undefinedKeyword | .unknownKeyword | .voidKeyword => true
  | _ => false

def isLiteral : Kind → Bool
  | .numericLiteral | .bigIntLiteral | .stringLiteral | .jsxText | .regularExpressionLiteral
  | .noSubstitutionTemplateLiteral | .templateHead | .templateMiddle | .templateTail => true
  | _ => false

def isFunctionLike : Kind → Bool
  | .functionDeclaration | .functionExpression | .arrowFunction | .methodDeclaration
  | .methodSignature | .constructor | .getAccessor | .setAccessor | .callSignature
  | .constructSignature | .functionType | .constructorType => true
  | _ => false

end Kind

end SourceIndex
