import SourceIndex.Path
import SourceIndex.Table

/-! A tree of directories and files. A path is followed by entering one directory after the other,
from the root or from the working directory, so `..` leads out of a directory that has to exist.
Neither a name nor a path may be too long. -/

namespace SourceIndex

inductive FileTree where
  | file (content : String)
  | directory (entries : Table String FileTree)

namespace FileTree

def empty : FileTree := directory {}

def addDirectory : List String → FileTree → FileTree
  | name :: names, directory entries =>
    directory (entries.insert name (addDirectory names ((entries.get? name).getD empty)))
  | _, t => t

def addFile (content : String) : List String → FileTree → FileTree
  | [name], directory entries =>
    match entries.get? name with
    | some (directory _) => directory entries
    | _ => directory (entries.insert name (file content))
  | name :: names, directory entries =>
    match entries.get? name with
    | some t => directory (entries.insert name (addFile content names t))
    | none => directory entries
  | _, t => t

def remove : List String → FileTree → FileTree
  | [name], directory entries => directory ⟨entries.entries.filter (·.1 ≠ name)⟩
  | name :: names, directory entries =>
    match entries.get? name with
    | some t => directory (entries.insert name (remove names t))
    | none => directory entries
  | _, t => t

/-- The way back to the root after one more name. -/
def turn (back : List String) (name : String) : List String :=
  if name = ".." then back.tail else if name = "." then back else name :: back

def settle (names : List String) : List String := (names.foldl turn []).reverse

def makeDirectories (names : List String) (t : FileTree) : FileTree :=
  (List.range (names.length + 1)).foldl (fun t n => addDirectory (settle (names.take n)) t) t

def write (names : List String) (content : String) (t : FileTree) : FileTree :=
  addFile content (settle names) (makeDirectories names.dropLast t)

/-- A place in the tree: what was entered on the way there from the root, innermost first. -/
abbrev Trail := List (String × FileTree)

def maxName : Nat := 255

def maxPath : Nat := 4095

def Trail.at (root : FileTree) (trail : Trail) : FileTree := (trail.head?.map (·.2)).getD root

def step? (root : FileTree) (trail : Trail) (name : String) : Option Trail :=
  match trail.at root with
  | file _ => none
  | directory entries =>
    if name = ".." then some trail.tail
    else if name = "." then some trail
    else if Text.byteSize name.toList ≤ maxName then
      (entries.get? name).map fun t => (name, t) :: trail
    else none

end FileTree

/-- Relative paths are followed from the working directory. -/
structure FileSystem where
  tree : FileTree
  workingDirectory : List String := []

namespace FileSystem

open FileTree

def names (files : FileSystem) (p : Path) : List String :=
  (if p.isAbsolute then [] else files.workingDirectory) ++ p.parts

def read? (files : FileSystem) (s : Spelling) : Option String :=
  if s.size ≤ maxPath then
    match (files.names s.path).foldlM (step? files.tree) ([] : Trail) with
    | some trail =>
      match trail.at files.tree with
      | file content => some content
      | directory _ => none
    | none => none
  else none

end FileSystem

end SourceIndex
