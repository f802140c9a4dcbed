import SourceIndex.Json.Flat
import SourceIndex.Path

/-! What a run can be told, and how it is read from a file. -/

namespace SourceIndex

structure Options where
  projectRoot : String := "."
  projectName? : Option String := none
  includeLocals : Bool := true
  emitComplexity : Bool := true
  emitOutline : Bool := true
  maxSymbolDepth : UInt32 := 1000

namespace Options

inductive LoadError where
  | unreadable | malformed

def LoadError.message (path : String) : LoadError → String
  | unreadable => "failed to read indexer options: " ++ path
  | malformed => "failed to parse indexer options: " ++ path

def names : List String :=
  ["projectRoot", "projectDisplayName", "includeLocals", "emitComplexity", "emitOutline",
    "maxSymbolDepth"]

def ofFields? (fields : List (String × Json.Scalar)) : Option Options := do
  let standard : Options := {}
  let depth := standard.maxSymbolDepth
  let name? : Json.Scalar → Option (Option String)
    | .null => some none
    | v => v.string?.map some
  some {
    projectRoot := ← Json.field? fields "projectRoot" Json.Scalar.string? standard.projectRoot
    projectName? := ← Json.field? fields "projectDisplayName" name? none
    includeLocals := ← Json.field? fields "includeLocals" Json.Scalar.bool? true
    emitComplexity := ← Json.field? fields "emitComplexity" Json.Scalar.bool? true
    emitOutline := ← Json.field? fields "emitOutline" Json.Scalar.bool? true
    maxSymbolDepth := ← Json.field? fields "maxSymbolDepth" Json.Scalar.nat32? depth }

def parse? (text : String) : Option Options := do
  ofFields? (← (← Json.Flat.read? text.toList).fields? names)

def load : Option String → Except LoadError Options
  | none => .error .unreadable
  | some text =>
    match parse? text with
    | some options => .ok options
    | none => .error .malformed

/-- The given name, or the last name in the path of the project, or that path. -/
def displayName (o : Options) : String :=
  o.projectName?.getD ((Path.ofString o.projectRoot).fileName?.getD o.projectRoot)

end Options

end SourceIndex
