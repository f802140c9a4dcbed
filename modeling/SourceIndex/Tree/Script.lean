/-! What a file's name says about its language. -/

namespace SourceIndex

/-- The four dialects of source files; the last two are typed. -/
inductive ScriptKind where
  | js | jsx | ts | tsx
  deriving DecidableEq, Inhabited

namespace ScriptKind

/-- The extension decides, in either case of letters; any other name is a typed script. -/
def ofFileName (name : String) : ScriptKind :=
  let endsIn (ext : String) : Bool := ext.toList.isSuffixOf (name.toList.map Char.toLower)
  if endsIn ".tsx" then .tsx
  else if endsIn ".jsx" then .jsx
  else if endsIn ".js" || endsIn ".mjs" || endsIn ".cjs" then .js
  else .ts

def isJavaScript : ScriptKind → Bool
  | .js | .jsx => true
  | .ts | .tsx => false

def name : ScriptKind → String
  | .js => "Js" | .jsx => "Jsx" | .ts => "Ts" | .tsx => "Tsx"

def ofName? : String → Option ScriptKind
  | "Js" => some .js | "Jsx" => some .jsx | "Ts" => some .ts | "Tsx" => some .tsx
  | _ => none

end ScriptKind

/-- A file of declarations alone. Here the case of letters counts. -/
def isDeclarationFile (name : String) : Bool := ".d.ts".toList.isSuffixOf name.toList

end SourceIndex
