/-! How messages are laid out. -/

namespace SourceIndex

inductive LogFormat where
  | text | tree | json

namespace LogFormat

/-- Either case of letters is accepted. Only ASCII letters have the letters of these words as their
small forms, so no others need to be known. -/
def parse (value : String) : LogFormat :=
  match String.ofList (value.toList.map Char.toLower) with
  | "tree" => .tree
  | "json" => .json
  | _ => .text

def name : LogFormat → String
  | text => "Text"
  | tree => "Tree"
  | json => "Json"

end LogFormat

end SourceIndex
