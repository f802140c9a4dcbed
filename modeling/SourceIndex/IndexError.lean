import SourceIndex.Sink
import SourceIndex.Tour

/-! What can go wrong while a file is indexed. -/

namespace SourceIndex

inductive IndexError where
  | sink (failure : SinkError)
  | tooDeep (file : String)
  | notASourceFile (node : NodeRef) (file : String)

def IndexError.message : IndexError → String
  | sink failure => failure.message
  | tooDeep file =>
    "syntax tree of '" ++ file ++ "' nests deeper than " ++ toString SourceFile.maxVisitDepth ++
      " levels"
  | notASourceFile node file =>
    "node " ++ toString (NodeRef.number node) ++ " of '" ++ file ++ "' is not a source file"

end SourceIndex
