import SourceIndex.Tour.Step

/-! The steps inside statements. -/

namespace SourceIndex

open Step

def Statement.steps? (kind : Kind) : Statement → Option (List Step)
  | .block statements =>
    match kind with
    | .block | .moduleBlock | .caseBlock => some (operator "\x7b\x7d" :: visits statements)
    | _ => none
  | .expression value =>
    match kind with
    | .expressionStatement => some [visit value]
    | .returnStatement => some [operator "return", visit value]
    | .throwStatement => some [operator "throw", visit value]
    | _ => none
  | .conditional value thenBranch elseBranch =>
    match kind with
    | .ifStatement =>
      some (operator "if" :: operator "()" :: visit value :: visit thenBranch ::
        introduced "else" elseBranch)
    | .withStatement => some [operator "with", operator "()", visit value, visit thenBranch]
    | _ => none
  | .loop initializer condition incrementor statement =>
    match kind with
    | .whileStatement => some [operator "while", operator "()", visit condition, visit statement]
    | .doStatement =>
      some [operator "do", visit statement, operator "while", operator "()", visit condition]
    | .forStatement =>
      some [operator "for", operator "()", visit initializer, operator ";", visit condition,
        operator ";", visit incrementor, visit statement]
    | _ => none
  | .iteration isAwait initializer value statement =>
    let steps (word : String) := operator "for" :: flag isAwait "await" ++
      [operator "()", visit initializer, operator word, visit value, visit statement]
    match kind with
    | .forInStatement => some (steps "in")
    | .forOfStatement => some (steps "of")
    | _ => none
  | .jump label =>
    match kind with
    | .breakStatement => some [operator "break", visit label]
    | .continueStatement => some [operator "continue", visit label]
    | _ => none
  | .labeled label statement =>
    match kind with
    | .labeledStatement => some [visit label, operator ":", visit statement]
    | _ => none
  | .switch value caseBlock =>
    match kind with
    | .switchStatement => some [operator "switch", operator "()", visit value, visit caseBlock]
    | _ => none
  | .clause value statements =>
    match kind with
    | .caseClause => some (operator "case" :: visit value :: operator ":" :: visits statements)
    | .defaultClause => some (operator "default" :: operator ":" :: visits statements)
    | _ => none
  | .tryCatch tryBlock catchClause finallyBlock =>
    match kind with
    | .tryStatement =>
      some (operator "try" :: visit tryBlock :: visit catchClause ::
        introduced "finally" finallyBlock)
    | _ => none
  | .handler variableDeclaration body =>
    match kind with
    | .catchClause => some (operator "catch" :: introduced "()" variableDeclaration ++ [visit body])
    | _ => none
  | .staticBlock body =>
    match kind with
    | .classStaticBlockDeclaration => some [operator "static", visit body]
    | _ => none

end SourceIndex
