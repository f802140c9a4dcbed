import SourceIndex.DeclarationKind
import SourceIndex.Halstead
import SourceIndex.Json.Value
import SourceIndex.Outline
import SourceIndex.Text.Position

/-! The records of an index: vertices and edges with an id each. -/

namespace SourceIndex

inductive ItemProperty where
  | definitions | references
  deriving DecidableEq

def Element.formatVersion : String := "0.4.3"
def Element.toolName : String := "lsif-ts"
def Element.toolVersion : String := "0.1.0"

inductive Element where
  | metaData (projectRoot : String) (version : String := Element.formatVersion)
      (positionEncoding : String := "utf-16") (toolName : String := Element.toolName)
      (toolVersion : String := Element.toolVersion)
  | project (kind : String)
  | document (uri : String) (isJavaScript : Bool)
  | resultSet
  | moniker
  | range (range : Range) (text : String) (kind : DeclarationKind) (fullRange : Range)
  | complexity (component : Nat) (metrics : Metrics)
  | outline (tree : Outline)
  | referenceResult
  | references (result : Nat)
  | item (result : Nat) (ids : List Nat) (property : ItemProperty)

inductive EntryType where
  | vertex | edge
  deriving DecidableEq

structure Entry where
  id : Nat
  type : EntryType
  element : Element

def Position.toJson (p : Position) : Json :=
  .object [("line", .number p.line), ("character", .number p.character)]

def Range.members (r : Range) : List (String × Json) :=
  [("start", r.start.toJson), ("end", r.stop.toJson)]

def Metrics.toJson (m : Metrics) : Json :=
  .object [
    ("numOperandsTotal", .number m.operandsTotal),
    ("numOperatorsTotal", .number m.operatorsTotal),
    ("numOperandsDistinct", .number m.operandsDistinct),
    ("numOperatorsDistinct", .number m.operatorsDistinct),
    ("programVocabulary", .number m.vocabulary),
    ("programLength", .number m.length),
    ("volume", .number m.volume),
    ("difficulty", .float m.difficulty),
    ("effort", .float m.effort),
    ("timeRequiredToProgram", .float m.timeRequired),
    ("numberOfDeliveredBugs", .float m.deliveredBugs),
    ("calculatedEstimatedProgramLength", .float m.estimatedLength)]

mutual

def Outline.toJson : Outline → Json
  | .node id children =>
    .object [("id", .number id), ("children", .array (Outline.forestToJson children))]

def Outline.forestToJson : List Outline → List Json
  | [] => []
  | o :: os => o.toJson :: Outline.forestToJson os

end

namespace Element

def label : Element → String
  | metaData .. => "metaData"
  | project _ => "project"
  | document _ _ => "document"
  | resultSet => "resultSet"
  | moniker => "moniker"
  | range _ _ _ _ => "range"
  | complexity _ _ => "complexityMeasurements"
  | outline _ => "documentSymbolResult"
  | referenceResult => "referenceResult"
  | references _ => "textDocument/references"
  | item _ _ _ => "item"

def members : Element → List (String × Json)
  | metaData projectRoot version positionEncoding toolName toolVersion => [
      ("version", .string version),
      ("projectRoot", .string projectRoot),
      ("positionEncoding", .string positionEncoding),
      ("toolInfo", .object [("name", .string toolName), ("version", .string toolVersion)])]
  | project kind => [("kind", .string kind)]
  | document uri isJavaScript => [
      ("uri", .string uri),
      ("languageId", .string (if isJavaScript then "javascript" else "typescript"))]
  | resultSet => []
  | moniker => []
  | range r text kind fullRange => r.members ++ [
      ("tag", .object [
        ("text", .string text), ("kind", .number kind.code),
        ("fullRange", .object fullRange.members)])]
  | complexity component metrics => [("inV", .number component), ("halstead", metrics.toJson)]
  | outline tree => [("result", tree.toJson)]
  | referenceResult => []
  | references result => [("inV", .number result)]
  | item result ids property => [
      ("outV", .number result),
      ("inVs", .array (ids.map .number)),
      ("property", .string (match property with
        | .definitions => "definitions"
        | .references => "references"))]

end Element

def Entry.toJson (e : Entry) : Json :=
  .object ([
    ("id", .number e.id),
    ("type", .string (match e.type with | .vertex => "vertex" | .edge => "edge")),
    ("label", .string e.element.label)] ++ e.element.members)

end SourceIndex
