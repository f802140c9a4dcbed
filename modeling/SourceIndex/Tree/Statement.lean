import SourceIndex.Tree.Field

/-! Payloads of statements and of the clauses inside them. -/

namespace SourceIndex

inductive Statement where
  | block (statements : List NodeRef)
  | expression (value : NodeRef)
  | conditional (value thenBranch elseBranch : NodeRef)
  | loop (initializer condition incrementor statement : NodeRef)
  | iteration (isAwait : Bool) (initializer value statement : NodeRef)
  | jump (label : NodeRef)
  | labeled (label statement : NodeRef)
  | switch (value caseBlock : NodeRef)
  | clause (value : NodeRef) (statements : List NodeRef)
  | tryCatch (tryBlock catchClause finallyBlock : NodeRef)
  | handler (variableDeclaration body : NodeRef)
  | staticBlock (body : NodeRef)

namespace Statement

def layout : Statement → Layout
  | block statements => ⟨"Block", [("statements", .list statements)]⟩
  | expression value => ⟨"ExprStatement", [("expression", .node value)]⟩
  | conditional value thenBranch elseBranch =>
    ⟨"IfStatement", [("expression", .node value), ("then_statement", .node thenBranch),
      ("else_statement", .node elseBranch)]⟩
  | loop initializer condition incrementor statement =>
    ⟨"Loop", [("initializer", .node initializer), ("condition", .node condition),
      ("incrementor", .node incrementor), ("statement", .node statement)]⟩
  | iteration isAwait initializer value statement =>
    ⟨"ForInOf", [("await_modifier", .flag isAwait), ("initializer", .node initializer),
      ("expression", .node value), ("statement", .node statement)]⟩
  | jump label => ⟨"Jump", [("label", .node label)]⟩
  | labeled label statement => ⟨"Labeled", [("label", .node label), ("statement", .node statement)]⟩
  | switch value caseBlock =>
    ⟨"Switch", [("expression", .node value), ("case_block", .node caseBlock)]⟩
  | clause value statements =>
    ⟨"CaseClause", [("expression", .node value), ("statements", .list statements)]⟩
  | tryCatch tryBlock catchClause finallyBlock =>
    ⟨"Try", [("try_block", .node tryBlock), ("catch_clause", .node catchClause),
      ("finally_block", .node finallyBlock)]⟩
  | handler variableDeclaration body =>
    ⟨"CatchClause", [("variable_declaration", .node variableDeclaration), ("block", .node body)]⟩
  | staticBlock body => ⟨"StaticBlock", [("body", .node body)]⟩

def read? (shape : String) (r : FieldReader) : Option Statement :=
  match shape with
  | "Block" => some (.block (r.list "statements"))
  | "ExprStatement" => some (.expression (r.node "expression"))
  | "IfStatement" => some (.conditional (r.node "expression") (r.node "then_statement")
      (r.node "else_statement"))
  | "Loop" => some (.loop (r.node "initializer") (r.node "condition") (r.node "incrementor")
      (r.node "statement"))
  | "ForInOf" => some (.iteration (r.flag "await_modifier") (r.node "initializer")
      (r.node "expression") (r.node "statement"))
  | "Jump" => some (.jump (r.node "label"))
  | "Labeled" => some (.labeled (r.node "label") (r.node "statement"))
  | "Switch" => some (.switch (r.node "expression") (r.node "case_block"))
  | "CaseClause" => some (.clause (r.node "expression") (r.list "statements"))
  | "Try" => some (.tryCatch (r.node "try_block") (r.node "catch_clause") (r.node "finally_block"))
  | "CatchClause" => some (.handler (r.node "variable_declaration") (r.node "block"))
  | "StaticBlock" => some (.staticBlock (r.node "body"))
  | _ => none

end Statement

end SourceIndex
