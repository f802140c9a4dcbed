import SourceIndex.Tree.Kind

/-! The names of the kinds, as they are written in a stored tree. -/

namespace SourceIndex.Kind

def all : List Kind := [
  .unknown, .openBraceToken, .closeBraceToken, .openParenToken, .closeParenToken,
  .openBracketToken, .closeBracketToken, .dotToken, .dotDotDotToken, .semicolonToken, .commaToken,
  .questionDotToken, .lessThanToken, .greaterThanToken, .lessThanEqualsToken,
  .greaterThanEqualsToken, .equalsEqualsToken, .exclamationEqualsToken, .equalsEqualsEqualsToken,
  .exclamationEqualsEqualsToken, .equalsGreaterThanToken, .plusToken, .minusToken, .asteriskToken,
  .asteriskAsteriskToken, .slashToken, .percentToken, .plusPlusToken, .minusMinusToken,
  .lessThanLessThanToken, .greaterThanGreaterThanToken, .greaterThanGreaterThanGreaterThanToken,
  .ampersandToken, .barToken, .caretToken, .exclamationToken, .tildeToken,
  .ampersandAmpersandToken, .barBarToken, .questionToken, .colonToken, .atToken,
  .questionQuestionToken, .equalsToken, .plusEqualsToken, .minusEqualsToken, .asteriskEqualsToken,
  .asteriskAsteriskEqualsToken, .slashEqualsToken, .percentEqualsToken,
  .lessThanLessThanEqualsToken, .greaterThanGreaterThanEqualsToken,
  .greaterThanGreaterThanGreaterThanEqualsToken, .ampersandEqualsToken, .barEqualsToken,
  .caretEqualsToken, .barBarEqualsToken, .ampersandAmpersandEqualsToken,
  .questionQuestionEqualsToken, .numericLiteral, .bigIntLiteral, .stringLiteral, .jsxText,
  .regularExpressionLiteral, .noSubstitutionTemplateLiteral, .templateHead, .templateMiddle,
  .templateTail, .identifier, .privateIdentifier, .abstractKeyword, .accessorKeyword, .anyKeyword,
  .assertKeyword, .assertsKeyword, .asyncKeyword, .awaitKeyword, .bigIntKeyword, .booleanKeyword,
  .constKeyword, .declareKeyword, .defaultKeyword, .exportKeyword, .falseKeyword, .importKeyword,
  .inKeyword, .instanceOfKeyword, .intrinsicKeyword, .keyOfKeyword, .neverKeyword, .newKeyword,
  .nullKeyword, .numberKeyword, .objectKeyword, .outKeyword, .overrideKeyword, .privateKeyword,
  .protectedKeyword, .publicKeyword, .readonlyKeyword, .staticKeyword, .stringKeyword,
  .superKeyword, .symbolKeyword, .thisKeyword, .trueKeyword, .undefinedKeyword, .uniqueKeyword,
  .unknownKeyword, .voidKeyword, .withKeyword, .qualifiedName, .computedPropertyName,
  .typeParameter, .parameter, .decorator, .propertySignature, .propertyDeclaration,
  .methodSignature, .methodDeclaration, .classStaticBlockDeclaration, .constructor, .getAccessor,
  .setAccessor, .callSignature, .constructSignature, .indexSignature, .typePredicate,
  .typeReference, .functionType, .constructorType, .typeQuery, .typeLiteral, .arrayType,
  .tupleType, .optionalType, .restType, .unionType, .intersectionType, .conditionalType,
  .inferType, .parenthesizedType, .thisType, .typeOperator, .indexedAccessType, .mappedType,
  .literalType, .namedTupleMember, .templateLiteralType, .templateLiteralTypeSpan, .importType,
  .objectBindingPattern, .arrayBindingPattern, .bindingElement, .arrayLiteralExpression,
  .objectLiteralExpression, .propertyAccessExpression, .elementAccessExpression, .callExpression,
  .newExpression, .taggedTemplateExpression, .typeAssertionExpression, .parenthesizedExpression,
  .functionExpression, .arrowFunction, .deleteExpression, .typeOfExpression, .voidExpression,
  .awaitExpression, .prefixUnaryExpression, .postfixUnaryExpression, .binaryExpression,
  .conditionalExpression, .templateExpression, .yieldExpression, .spreadElement, .classExpression,
  .omittedExpression, .expressionWithTypeArguments, .asExpression, .nonNullExpression,
  .metaProperty, .satisfiesExpression, .templateSpan, .semicolonClassElement, .block,
  .emptyStatement, .variableStatement, .expressionStatement, .ifStatement, .doStatement,
  .whileStatement, .forStatement, .forInStatement, .forOfStatement, .continueStatement,
  .breakStatement, .returnStatement, .withStatement, .switchStatement, .labeledStatement,
  .throwStatement, .tryStatement, .debuggerStatement, .variableDeclaration,
  .variableDeclarationList, .functionDeclaration, .classDeclaration, .interfaceDeclaration,
  .typeAliasDeclaration, .enumDeclaration, .moduleDeclaration, .moduleBlock, .caseBlock,
  .namespaceExportDeclaration, .importEqualsDeclaration, .importDeclaration, .importClause,
  .namespaceImport, .namedImports, .importSpecifier, .exportAssignment, .exportDeclaration,
  .namedExports, .namespaceExport, .exportSpecifier, .importAttributes, .importAttribute,
  .externalModuleReference, .jsxElement, .jsxSelfClosingElement, .jsxOpeningElement,
  .jsxClosingElement, .jsxFragment, .jsxOpeningFragment, .jsxClosingFragment, .jsxAttribute,
  .jsxAttributes, .jsxSpreadAttribute, .jsxExpression, .caseClause, .defaultClause,
  .heritageClause, .catchClause, .propertyAssignment, .shorthandPropertyAssignment,
  .spreadAssignment, .enumMember, .sourceFile]

def name : Kind → String
  | .unknown => "Unknown" | .openBraceToken => "OpenBraceToken"
  | .closeBraceToken => "CloseBraceToken" | .openParenToken => "OpenParenToken"
  | .closeParenToken => "CloseParenToken" | .openBracketToken => "OpenBracketToken"
  | .closeBracketToken => "CloseBracketToken" | .dotToken => "DotToken"
  | .dotDotDotToken => "DotDotDotToken" | .semicolonToken => "SemicolonToken"
  | .commaToken => "CommaToken" | .questionDotToken => "QuestionDotToken"
  | .lessThanToken => "LessThanToken" | .greaterThanToken => "GreaterThanToken"
  | .lessThanEqualsToken => "LessThanEqualsToken"
  | .greaterThanEqualsToken => "GreaterThanEqualsToken" | .equalsEqualsToken => "EqualsEqualsToken"
  | .exclamationEqualsToken => "ExclamationEqualsToken"
  | .equalsEqualsEqualsToken => "EqualsEqualsEqualsToken"
  | .exclamationEqualsEqualsToken => "ExclamationEqualsEqualsToken"
  | .equalsGreaterThanToken => "EqualsGreaterThanToken" | .plusToken => "PlusToken"
  | .minusToken => "MinusToken" | .asteriskToken => "AsteriskToken"
  | .asteriskAsteriskToken => "AsteriskAsteriskToken" | .slashToken => "SlashToken"
  | .percentToken => "PercentToken" | .plusPlusToken => "PlusPlusToken"
  | .minusMinusToken => "MinusMinusToken" | .lessThanLessThanToken => "LessThanLessThanToken"
  | .greaterThanGreaterThanToken => "GreaterThanGreaterThanToken"
  | .greaterThanGreaterThanGreaterThanToken => "GreaterThanGreaterThanGreaterThanToken"
  | .ampersandToken => "AmpersandToken" | .barToken => "BarToken" | .caretToken => "CaretToken"
  | .exclamationToken => "ExclamationToken" | .tildeToken => "TildeToken"
  | .ampersandAmpersandToken => "AmpersandAmpersandToken" | .barBarToken => "BarBarToken"
  | .questionToken => "QuestionToken" | .colonToken => "ColonToken" | .atToken => "AtToken"
  | .questionQuestionToken => "QuestionQuestionToken" | .equalsToken => "EqualsToken"
  | .plusEqualsToken => "PlusEqualsToken" | .minusEqualsToken => "MinusEqualsToken"
  | .asteriskEqualsToken => "AsteriskEqualsToken"
  | .asteriskAsteriskEqualsToken => "AsteriskAsteriskEqualsToken"
  | .slashEqualsToken => "SlashEqualsToken" | .percentEqualsToken => "PercentEqualsToken"
  | .lessThanLessThanEqualsToken => "LessThanLessThanEqualsToken"
  | .greaterThanGreaterThanEqualsToken => "GreaterThanGreaterThanEqualsToken"
  | .greaterThanGreaterThanGreaterThanEqualsToken => "GreaterThanGreaterThanGreaterThanEqualsToken"
  | .ampersandEqualsToken => "AmpersandEqualsToken" | .barEqualsToken => "BarEqualsToken"
  | .caretEqualsToken => "CaretEqualsToken" | .barBarEqualsToken => "BarBarEqualsToken"
  | .ampersandAmpersandEqualsToken => "AmpersandAmpersandEqualsToken"
  | .questionQuestionEqualsToken => "QuestionQuestionEqualsToken"
  | .numericLiteral => "NumericLiteral" | .bigIntLiteral => "BigIntLiteral"
  | .stringLiteral => "StringLiteral" | .jsxText => "JsxText"
  | .regularExpressionLiteral => "RegularExpressionLiteral"
  | .noSubstitutionTemplateLiteral => "NoSubstitutionTemplateLiteral"
  | .templateHead => "TemplateHead" | .templateMiddle => "TemplateMiddle"
  | .templateTail => "TemplateTail" | .identifier => "Identifier"
  | .privateIdentifier => "PrivateIdentifier" | .abstractKeyword => "AbstractKeyword"
  | .accessorKeyword => "AccessorKeyword" | .anyKeyword => "AnyKeyword"
  | .assertKeyword => "AssertKeyword" | .assertsKeyword => "AssertsKeyword"
  | .asyncKeyword => "AsyncKeyword" | .awaitKeyword => "AwaitKeyword"
  | .bigIntKeyword => "BigIntKeyword" | .booleanKeyword => "BooleanKeyword"
  | .constKeyword => "ConstKeyword" | .declareKeyword => "DeclareKeyword"
  | .defaultKeyword => "DefaultKeyword" | .exportKeyword => "ExportKeyword"
  | .falseKeyword => "FalseKeyword" | .importKeyword => "ImportKeyword" | .inKeyword => "InKeyword"
  | .instanceOfKeyword => "InstanceOfKeyword" | .intrinsicKeyword => "IntrinsicKeyword"
  | .keyOfKeyword => "KeyOfKeyword" | .neverKeyword => "NeverKeyword" | .newKeyword => "NewKeyword"
  | .nullKeyword => "NullKeyword" | .numberKeyword => "NumberKeyword"
  | .objectKeyword => "ObjectKeyword" | .outKeyword => "OutKeyword"
  | .overrideKeyword => "OverrideKeyword" | .privateKeyword => "PrivateKeyword"
  | .protectedKeyword => "ProtectedKeyword" | .publicKeyword => "PublicKeyword"
  | .readonlyKeyword => "ReadonlyKeyword" | .staticKeyword => "StaticKeyword"
  | .stringKeyword => "StringKeyword" | .superKeyword => "SuperKeyword"
  | .symbolKeyword => "SymbolKeyword" | .thisKeyword => "ThisKeyword"
  | .trueKeyword => "TrueKeyword" | .undefinedKeyword => "UndefinedKeyword"
  | .uniqueKeyword => "UniqueKeyword" | .unknownKeyword => "UnknownKeyword"
  | .voidKeyword => "VoidKeyword" | .withKeyword => "WithKeyword"
  | .qualifiedName => "QualifiedName" | .computedPropertyName => "ComputedPropertyName"
  | .typeParameter => "TypeParameter" | .parameter => "Parameter" | .decorator => "Decorator"
  | .propertySignature => "PropertySignature" | .propertyDeclaration => "PropertyDeclaration"
  | .methodSignature => "MethodSignature" | .methodDeclaration => "MethodDeclaration"
  | .classStaticBlockDeclaration => "ClassStaticBlockDeclaration" | .constructor => "Constructor"
  | .getAccessor => "GetAccessor" | .setAccessor => "SetAccessor"
  | .callSignature => "CallSignature" | .constructSignature => "ConstructSignature"
  | .indexSignature => "IndexSignature" | .typePredicate => "TypePredicate"
  | .typeReference => "TypeReference" | .functionType => "FunctionType"
  | .constructorType => "ConstructorType" | .typeQuery => "TypeQuery"
  | .typeLiteral => "TypeLiteral" | .arrayType => "ArrayType" | .tupleType => "TupleType"
  | .optionalType => "OptionalType" | .restType => "RestType" | .unionType => "UnionType"
  | .intersectionType => "IntersectionType" | .conditionalType => "ConditionalType"
  | .inferType => "InferType" | .parenthesizedType => "ParenthesizedType" | .thisType => "ThisType"
  | .typeOperator => "TypeOperator" | .indexedAccessType => "IndexedAccessType"
  | .mappedType => "MappedType" | .literalType => "LiteralType"
  | .namedTupleMember => "NamedTupleMember" | .templateLiteralType => "TemplateLiteralType"
  | .templateLiteralTypeSpan => "TemplateLiteralTypeSpan" | .importType => "ImportType"
  | .objectBindingPattern => "ObjectBindingPattern" | .arrayBindingPattern => "ArrayBindingPattern"
  | .bindingElement => "BindingElement" | .arrayLiteralExpression => "ArrayLiteralExpression"
  | .objectLiteralExpression => "ObjectLiteralExpression"
  | .propertyAccessExpression => "PropertyAccessExpression"
  | .elementAccessExpression => "ElementAccessExpression" | .callExpression => "CallExpression"
  | .newExpression => "NewExpression" | .taggedTemplateExpression => "TaggedTemplateExpression"
  | .typeAssertionExpression => "TypeAssertionExpression"
  | .parenthesizedExpression => "ParenthesizedExpression"
  | .functionExpression => "FunctionExpression" | .arrowFunction => "ArrowFunction"
  | .deleteExpression => "DeleteExpression" | .typeOfExpression => "TypeOfExpression"
  | .voidExpression => "VoidExpression" | .awaitExpression => "AwaitExpression"
  | .prefixUnaryExpression => "PrefixUnaryExpression"
  | .postfixUnaryExpression => "PostfixUnaryExpression" | .binaryExpression => "BinaryExpression"
  | .conditionalExpression => "ConditionalExpression" | .templateExpression => "TemplateExpression"
  | .yieldExpression => "YieldExpression" | .spreadElement => "SpreadElement"
  | .classExpression => "ClassExpression" | .omittedExpression => "OmittedExpression"
  | .expressionWithTypeArguments => "ExpressionWithTypeArguments" | .asExpression => "AsExpression"
  | .nonNullExpression => "NonNullExpression" | .metaProperty => "MetaProperty"
  | .satisfiesExpression => "SatisfiesExpression" | .templateSpan => "TemplateSpan"
  | .semicolonClassElement => "SemicolonClassElement" | .block => "Block"
  | .emptyStatement => "EmptyStatement" | .variableStatement => "VariableStatement"
  | .expressionStatement => "ExpressionStatement" | .ifStatement => "IfStatement"
  | .doStatement => "DoStatement" | .whileStatement => "WhileStatement"
  | .forStatement => "ForStatement" | .forInStatement => "ForInStatement"
  | .forOfStatement => "ForOfStatement" | .continueStatement => "ContinueStatement"
  | .breakStatement => "BreakStatement" | .returnStatement => "ReturnStatement"
  | .withStatement => "WithStatement" | .switchStatement => "SwitchStatement"
  | .labeledStatement => "LabeledStatement" | .throwStatement => "ThrowStatement"
  | .tryStatement => "TryStatement" | .debuggerStatement => "DebuggerStatement"
  | .variableDeclaration => "VariableDeclaration"
  | .variableDeclarationList => "VariableDeclarationList"
  | .functionDeclaration => "FunctionDeclaration" | .classDeclaration => "ClassDeclaration"
  | .interfaceDeclaration => "InterfaceDeclaration"
  | .typeAliasDeclaration => "TypeAliasDeclaration" | .enumDeclaration => "EnumDeclaration"
  | .moduleDeclaration => "ModuleDeclaration" | .moduleBlock => "ModuleBlock"
  | .caseBlock => "CaseBlock" | .namespaceExportDeclaration => "NamespaceExportDeclaration"
  | .importEqualsDeclaration => "ImportEqualsDeclaration"
  | .importDeclaration => "ImportDeclaration" | .importClause => "ImportClause"
  | .namespaceImport => "NamespaceImport" | .namedImports => "NamedImports"
  | .importSpecifier => "ImportSpecifier" | .exportAssignment => "ExportAssignment"
  | .exportDeclaration => "ExportDeclaration" | .namedExports => "NamedExports"
  | .namespaceExport => "NamespaceExport" | .exportSpecifier => "ExportSpecifier"
  | .importAttributes => "ImportAttributes" | .importAttribute => "ImportAttribute"
  | .externalModuleReference => "ExternalModuleReference" | .jsxElement => "JsxElement"
  | .jsxSelfClosingElement => "JsxSelfClosingElement" | .jsxOpeningElement => "JsxOpeningElement"
  | .jsxClosingElement => "JsxClosingElement" | .jsxFragment => "JsxFragment"
  | .jsxOpeningFragment => "JsxOpeningFragment" | .jsxClosingFragment => "JsxClosingFragment"
  | .jsxAttribute => "JsxAttribute" | .jsxAttributes => "JsxAttributes"
  | .jsxSpreadAttribute => "JsxSpreadAttribute" | .jsxExpression => "JsxExpression"
  | .caseClause => "CaseClause" | .defaultClause => "DefaultClause"
  | .heritageClause => "HeritageClause" | .catchClause => "CatchClause"
  | .propertyAssignment => "PropertyAssignment"
  | .shorthandPropertyAssignment => "ShorthandPropertyAssignment"
  | .spreadAssignment => "SpreadAssignment" | .enumMember => "EnumMember"
  | .sourceFile => "SourceFile"

def ofName? (s : String) : Option Kind := all.find? (·.name == s)

end SourceIndex.Kind
