import SourceIndex.LiveFile
import SourceIndex.Project

/-! The index of a whole program, written while it is worked out. A file that cannot be indexed is
counted and skipped, but when the sink fails nothing that comes later could be trusted, so the run
ends. -/

namespace SourceIndex

namespace Project

variable {σ α : Type} [Sink σ]

def inContext (purpose : Purpose) (x : Attempt (Live Session σ) IndexError α) :
    Attempt (Live Session σ) ProjectError α :=
  x.mapError (.index purpose)

def writeFile (p : Project) (fileId : Nat) (file : SourceFile) :
    Attempt (Live Session σ) IndexError FileSummary := do
  let uri := Path.fileUri (Path.joinText p.options.projectRoot file.name)
  let document ← Live.vertex (.document uri file.scriptKind.isJavaScript)
  Live.index (p.context fileId file) document

/-- How many files were indexed and how many failed, with one more file. -/
def writeNext (p : Project) (counts : Nat × Nat) (next : SourceFile × Nat) :
    Attempt (Live Session σ) ProjectError (Nat × Nat) := do
  match ← (p.writeFile next.2 next.1).caught with
  | .ok _ => pure (counts.1 + 1, counts.2)
  | .error (.sink failure) => Attempt.fail (.index (.file next.1.name) (.sink failure))
  | .error _ => pure (counts.1, counts.2 + 1)

def writeAll (p : Project) : Attempt (Live Session σ) ProjectError Summary := do
  let root := Path.fileUri p.options.projectRoot
  let _ ← inContext .metadata (Live.vertex (.metaData root))
  let _ ← inContext .project (Live.vertex (.project "typescript"))
  let (filesIndexed, filesFailed) ← p.program.files.toList.zipIdx.foldlM p.writeNext (0, 0)
  let definitions := (← get).state.definitions.size
  let linkedDefinitions ← inContext .links Live.emitLinks
  pure { filesIndexed, filesFailed, definitions, linkedDefinitions }

def run (p : Project) : Attempt (Live Session σ) ProjectError Summary := do
  if p.program.size = 0 then Attempt.fail (.noFiles p.options.displayName)
  let summary ← p.writeAll
  inContext .flush Live.flush
  pure summary

end Project

end SourceIndex
