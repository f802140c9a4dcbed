import Std.Data.TreeMap.Basic
import SourceIndex.Json.Flat
import SourceIndex.Package.FileTree
import SourceIndex.Symbol

/-! The package a file belongs to, given by the nearest manifest between the file's directory and
the root of the project. A manifest that cannot be read is passed over. What was found from a
directory is remembered for its path, whatever the spelling. -/

namespace SourceIndex.Package

def ofManifest? (text : String) : Option Symbol := do
  let fields ← (← Json.Flat.read? text.toList).fields? ["name", "version"]
  let name ← Json.field? fields "name" Json.Scalar.string? ""
  let version ← Json.field? fields "version" Json.Scalar.string? ""
  some (.package name version)

def manifestIn? (files : FileSystem) (dir : Spelling) : Option Symbol :=
  (files.read? (dir.child "package.json")).bind ofManifest?

/-- The directories in which a file's manifest is looked for, nearest first: those above the file,
up to the root of the project. -/
def candidates (root fileName : String) : List Spelling :=
  let file := Spelling.ofString (Path.joinText root fileName)
  let top := Path.ofString root
  if file.path.startsWith top then
    (Spelling.enclosing file.isAbsolute file.parts).take (file.parts.length - top.parts.length)
  else []

def find? (files : FileSystem) (root fileName : String) : Option Symbol :=
  (candidates root fileName).findSome? (manifestIn? files)

/-- What was found from each directory that was looked at, by the key of its path. -/
abbrev Cache := Std.TreeMap String (Option Symbol)

def search (files : FileSystem) (cache : Cache) : List Spelling → Option Symbol × List String
  | [] => (none, [])
  | dir :: rest =>
    match cache.get? dir.key with
    | some known => (known, [])
    | none =>
      match manifestIn? files dir with
      | some package => (some package, [dir.key])
      | none =>
        let (found, visited) := search files cache rest
        (found, dir.key :: visited)

/-- Looks for a file's package and remembers what was found for all directories on the way. -/
def resolve (files : FileSystem) (root fileName : String) : StateM Cache (Option Symbol) :=
  modifyGet fun cache =>
    let (found, visited) := search files cache (candidates root fileName)
    (found, visited.foldl (fun cache key => cache.insert key found) cache)

end SourceIndex.Package
