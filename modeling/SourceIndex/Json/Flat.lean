import SourceIndex.Json.Token

/-! Flat documents: one object or one array whose members are read as scalars. What is nested
deeper has to be well formed but carries no meaning. -/

namespace SourceIndex.Json

inductive Scalar where
  | null
  | bool (b : Bool)
  | number (lexeme : Text)
  | string (pieces : List Piece)
  | nested

inductive Frame where
  | array | object
  deriving DecidableEq

/-- What may come next inside the innermost frame. -/
inductive Expect where
  | valueOrClose | value | keyOrClose | key | colon | commaOrClose

def Token.scalar? : Token → Option Scalar
  | .null => some .null
  | .bool b => some (.bool b)
  | .number lexeme => some (.number lexeme)
  | .string pieces => some (.string pieces)
  | .openBrace | .openBracket => some .nested
  | _ => none

/-- Open frames, innermost first, and what they wait for. -/
structure Place where
  frames : List Frame
  expect : Expect

def Place.afterValue (p : Place) : Token → Place
  | .openBrace => ⟨.object :: p.frames, .keyOrClose⟩
  | .openBracket => ⟨.array :: p.frames, .valueOrClose⟩
  | _ => ⟨p.frames, .commaOrClose⟩

def Place.next? (p : Place) (t : Token) : Option Place :=
  match p.frames, p.expect, t with
  | [], _, _ => none
  | _ :: outer, .valueOrClose, .closeBracket => some ⟨outer, .commaOrClose⟩
  | _, .valueOrClose, t | _, .value, t => t.scalar?.map fun _ => p.afterValue t
  | _ :: outer, .keyOrClose, .closeBrace => some ⟨outer, .commaOrClose⟩
  | frames, .keyOrClose, .string _ | frames, .key, .string _ => some ⟨frames, .colon⟩
  | frames, .colon, .colon => some ⟨frames, .value⟩
  | .array :: outer, .commaOrClose, .comma => some ⟨.array :: outer, .value⟩
  | .object :: outer, .commaOrClose, .comma => some ⟨.object :: outer, .key⟩
  | .array :: outer, .commaOrClose, .closeBracket => some ⟨outer, .commaOrClose⟩
  | .object :: outer, .commaOrClose, .closeBrace => some ⟨outer, .commaOrClose⟩
  | _, _, _ => none

/-- Members are listed latest first; those of an array have no key. -/
structure FlatReader where
  place : Place
  key : List Piece := []
  members : List (List Piece × Scalar) := []

/-- One token further; keys and values of the outermost frame are taken down. -/
def FlatReader.step? (r : FlatReader) (t : Token) : Option FlatReader := do
  let place ← r.place.next? t
  match r.place.frames, r.place.expect, t with
  | [_], .keyOrClose, .string key | [_], .key, .string key => some { r with place, key }
  | [_], .valueOrClose, t | [_], .value, t =>
    match t.scalar? with
    | some v => some { r with place, members := (r.key, v) :: r.members }
    | none => some { r with place }
  | _, _, _ => some { r with place }

structure Flat where
  frame : Frame
  members : List (List Piece × Scalar)

def Flat.ofTokens? (frame : Frame) (first : Expect) (ts : List Token) : Option Flat := do
  let r ← ts.foldlM FlatReader.step? { place := ⟨[frame], first⟩ }
  if r.place.frames.isEmpty then some ⟨frame, r.members.reverse⟩ else none

def Flat.read? (t : Text) : Option Flat := do
  match ← tokens? t with
  | .openBrace :: ts => ofTokens? .object .keyOrClose ts
  | .openBracket :: ts => ofTokens? .array .valueOrClose ts
  | _ => none

/-- The members with known names. An array gives its members in the order of the names and may
end early; an object may have others besides, but none of the known ones twice. -/
def Flat.fields? (names : List String) (f : Flat) : Option (List (String × Scalar)) :=
  match f.frame with
  | .array =>
    if f.members.length ≤ names.length then some (names.zip (f.members.map (·.2))) else none
  | .object => do
    let named ← f.members.mapM fun (k, v) => (decode? k).map fun k => (String.ofList k, v)
    let known := named.filter fun (k, _) => names.contains k
    if (known.map (·.1)).eraseDups.length = known.length then some known else none

namespace Scalar

def string? : Scalar → Option String
  | string pieces => (decode? pieces).map .ofList
  | _ => none

def bool? : Scalar → Option Bool
  | bool b => some b
  | _ => none

/-- A whole number of 32 bits, written with digits alone. -/
def nat32? : Scalar → Option UInt32
  | number lexeme =>
    if lexeme.all Char.isDigit then
      let n := lexeme.foldl (fun n c => 10 * n + (c.toNat - 48)) 0
      if n ≤ 0xFFFFFFFF then some (.ofNat n) else none
    else none
  | _ => none

end Scalar

def field? {α : Type} (fields : List (String × Scalar)) (name : String) (read : Scalar → Option α)
    (default : α) : Option α :=
  match fields.lookup name with
  | some v => read v
  | none => some default

end SourceIndex.Json
