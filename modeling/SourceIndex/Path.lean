import SourceIndex.Text.Offset

/-! Paths as text and as components. Repeated slashes mean one, a component `.` counts only at the
start of a relative path, and `..` is a component like any other. So one path has many spellings,
and these differ in length. -/

namespace SourceIndex

structure Path where
  isAbsolute : Bool
  parts : List String
  deriving DecidableEq

namespace Path

def isAbsoluteText (s : String) : Bool := s.toList.head? = some '/'

def prepend (c : Char) (segments : List Text) : List Text :=
  if c = '/' then [] :: segments
  else
    match segments with
    | s :: ss => (c :: s) :: ss
    | [] => [[c]]

def segments (t : Text) : List Text := t.foldr prepend [[]]

/-- The names between slashes, without those that stand for "here". -/
def pieces (s : String) : List String :=
  ((segments s.toList).filter fun p => p ≠ [] && p ≠ ['.']).map .ofList

def withEnds : Nat → List Text → List (Text × Nat)
  | _, [] => []
  | start, s :: ss => (s, start + s.byteSize) :: withEnds (start + s.byteSize + 1) ss

/-- The components of a text and where they end in it. A `.` counts where it ends after one byte,
for only there does the text start with it. -/
def spelledParts (s : String) : List (String × Nat) :=
  ((withEnds 0 (segments s.toList)).filter fun (p, stop) => p ≠ [] && (p ≠ ['.'] || stop = 1)).map
    fun (p, stop) => (.ofList p, stop)

def ofString (s : String) : Path := ⟨isAbsoluteText s, (spelledParts s).map (·.1)⟩

def components (p : Path) : List String := (if p.isAbsolute then ["/"] else []) ++ p.parts

def startsWith (p base : Path) : Bool := base.components.isPrefixOf p.components

def fileName? (p : Path) : Option String :=
  p.parts.getLast?.filter fun s => s ≠ "." && s ≠ ".."

def joinText (base path : String) : String :=
  if isAbsoluteText path then path
  else if base.isEmpty || base.toList.getLast? = some '/' then base ++ path
  else base ++ "/" ++ path

/-- The absolute form of a path, with the root as the working directory. Exactly two slashes in
front are kept, and so is one at the end; the empty path stays empty. -/
def absoluteText (s : String) : String :=
  if s.isEmpty then s
  else
    let slashes := (s.toList.takeWhile (· = '/')).length
    let parts := pieces s
    let trailing := s.toList.getLast? = some '/' && !parts.isEmpty
    (if slashes = 2 then "//" else "/") ++ "/".intercalate parts ++ (if trailing then "/" else "")

def fileUri (s : String) : String :=
  let text := String.ofList ((absoluteText s).toList.map fun c => if c = '\\' then '/' else c)
  (if isAbsoluteText text then "file://" else "file:///") ++ text

end Path

/-- A path as some text spells it: its components, innermost first, each with the offset at which it
ends in that text. -/
structure Spelling where
  isAbsolute : Bool
  parts : List (String × Nat)

namespace Spelling

def ofString (s : String) : Spelling := ⟨Path.isAbsoluteText s, (Path.spelledParts s).reverse⟩

def path (s : Spelling) : Path := ⟨s.isAbsolute, (s.parts.map (·.1)).reverse⟩

def size (s : Spelling) : Nat := (s.parts.head?.map (·.2)).getD (if s.isAbsolute then 1 else 0)

/-- Tells paths apart and spellings of one path not: every component follows a slash, and one more
slash stands in front of an absolute path. -/
def key (s : Spelling) : String :=
  s.parts.foldr (fun part text => text ++ "/" ++ part.1) (if s.isAbsolute then "/" else "")

/-- All paths above, nearest first, each spelled by the beginning of the same text. -/
def enclosing (isAbsolute : Bool) : List (String × Nat) → List Spelling
  | [] => []
  | _ :: outer => ⟨isAbsolute, outer⟩ :: enclosing isAbsolute outer

/-- A name in a directory. No slash is needed after the root or the empty path. -/
def child (s : Spelling) (name : String) : Spelling :=
  let start := s.size + if s.parts.isEmpty then 0 else 1
  { s with parts := (name, start + Text.byteSize name.toList) :: s.parts }

end Spelling

end SourceIndex
