import SourceIndex.Tour.Step

/-! The steps inside tags. -/

namespace SourceIndex

open Step

def Jsx.steps? (kind : Kind) : Jsx → Option (List Step)
  | .element openingElement children closingElement =>
    match kind with
    | .jsxElement | .jsxFragment =>
      some (visit openingElement :: visits children ++ [visit closingElement])
    | _ => none
  | .opening tagName typeArguments attributes =>
    let steps (brackets : String) :=
      operator brackets :: visit tagName :: angle typeArguments ++ [visit attributes]
    match kind with
    | .jsxOpeningElement => some (steps "<>")
    | .jsxSelfClosingElement => some (steps "< />")
    | _ => none
  | .closing tagName =>
    match kind with
    | .jsxClosingElement => some [operator "</>", visit tagName]
    | _ => none
  | .property name value =>
    match kind with
    | .jsxAttribute => some (visit name :: initializer value)
    | _ => none
  | .expression dots value =>
    match kind with
    | .jsxExpression => some (operator "\x7b\x7d" :: flag dots "..." ++ [visit value])
    | _ => none

end SourceIndex
