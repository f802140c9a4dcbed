import SourceIndex.Package
import SourceIndex.Program
import SourceIndex.Symbol

/-! Questions that a syntax tree cannot answer are put to others: where something is referred to,
what an import stands for, which properties a tag takes, which package a file is in. All but the
last may fail, and a failure counts as no answer. -/

namespace SourceIndex

inductive OracleError where
  | stackOverflow
  | missingFile (name : String)
  | defect (text : String)
  | other (text : String)

namespace OracleError

def message : OracleError → String
  | stackOverflow => "oracle overflowed its stack"
  | missingFile name => "file is not part of the program: " ++ name
  | defect text => "oracle defect: " ++ text
  | other text => text

/-- Only a fault of the one who was asked is reported. -/
def isDefect : OracleError → Bool
  | defect _ => true
  | _ => false

end OracleError

/-- A place where something is referred to, in bytes. -/
structure Reference where
  file : String
  start : Nat
  length : Nat
  deriving DecidableEq

structure Collaborators where
  references : (file : String) → (offset : Nat) → Except OracleError (List Reference)
  propsType : (element : NodeKey) → Except OracleError (Option Nat)
  properties : (type : Nat) → (name : String) → Except OracleError (List NodeKey)
  aliases : NodeKey → Except OracleError (List NodeKey)
  /-- The answer may draw on what was remembered at earlier questions. -/
  package : (file : String) → StateM Package.Cache (Option Symbol)

def Collaborators.none : Collaborators where
  references _ _ := .ok []
  propsType _ := .ok .none
  properties _ _ := .ok []
  aliases _ := .ok []
  package _ := pure .none

inductive Query where
  | references (file : String) (offset : Nat)
  | propsType (element : NodeKey)
  | properties (type : Nat) (name : String)
  | aliases (node : NodeKey)

end SourceIndex
