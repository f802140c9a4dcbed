import SourceIndex.Text.Blank
import SourceIndex.Tour.Declaration
import SourceIndex.Tour.Expression
import SourceIndex.Tour.Jsx
import SourceIndex.Tour.ModuleItem
import SourceIndex.Tour.Statement
import SourceIndex.Tour.TypeNode

/-! The steps inside any node. A few kinds are single tokens whatever their payload; for the others
the payload decides; and a node for which there is no rule just has its children visited. -/

namespace SourceIndex

open Step

def reservedNames : List String :=
  ["any", "unknown", "never", "void", "string", "number", "boolean", "bigint", "symbol", "object",
    "undefined", "null", "true", "false", "this", "super", "abstract"]

def quoted (text : String) : String := "\"" ++ text ++ "\""

def identifierSteps? (kind : Kind) (text : String) : Option (List Step) :=
  match kind with
  | .identifier => some [if reservedNames.contains text then operator text else operand text]
  | .privateIdentifier => some [operand text]
  | _ => none

/-- Text between tags counts only if it is more than blanks. -/
def literalSteps? (kind : Kind) (text : String) : Option (List Step) :=
  match kind with
  | .numericLiteral | .bigIntLiteral | .regularExpressionLiteral => some [operand text]
  | .stringLiteral | .noSubstitutionTemplateLiteral | .templateHead | .templateMiddle
  | .templateTail => some [operand (quoted text)]
  | .jsxText => some (if text.toList.all isBlank then [] else [operand (quoted text)])
  | _ => none

/-- Kinds that are one token whatever they hold. -/
def Kind.soleToken? : Kind → Option String
  | .emptyStatement | .semicolonClassElement => some ";"
  | .debuggerStatement => some "debugger"
  | .thisType => some "this"
  | .jsxOpeningFragment => some "<>"
  | .jsxClosingFragment => some "</>"
  | _ => none

namespace Node

def payloadSteps? (n : Node) (inMapped : Bool) : Option (List Step) :=
  match n.payload with
  | .bare => n.kind.tokenText?.map fun t => [operator t]
  | .identifier text => identifierSteps? n.kind text
  | .literal text => literalSteps? n.kind text
  | .sourceFile statements _ _ _ => if n.kind = .sourceFile then some (visits statements) else none
  | .declaration d => d.steps? n inMapped
  | .statement s => s.steps? n.kind
  | .expression e => e.steps? n.kind
  | .typeNode t => t.steps? n.kind
  | .moduleItem m => m.steps? n.kind
  | .jsx j => j.steps? n.kind

def steps (n : Node) (inMapped : Bool) : List Step :=
  match n.kind.soleToken? with
  | some t => [operator t]
  | none => (n.payloadSteps? inMapped).getD (n.payload.children.map fun i => visit (some i))

end Node

end SourceIndex
