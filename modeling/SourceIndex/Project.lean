import SourceIndex.Delivery
import SourceIndex.FileIndex
import SourceIndex.Path

/-! The index of a whole program. The run is planned in stages, each with a purpose: the metadata,
the project, one stage for each file, the links between them, and the flush at the end. A file that
cannot be indexed is skipped. Then the stages are carried out; a failure of the sink ends the run
and is told with the purpose of its stage. -/

namespace SourceIndex

inductive Purpose where
  | metadata
  | project
  | file (name : String)
  | links
  | flush

def Purpose.context : Purpose → String
  | metadata => "failed to write index metadata"
  | project => "failed to write project vertex"
  | file name => "failed to write index of " ++ name
  | links => "failed to write reference links"
  | flush => "failed to flush index"

structure Stage where
  purpose : Purpose
  effects : Journal

structure Summary where
  filesIndexed : Nat
  filesFailed : Nat
  definitions : Nat
  linkedDefinitions : Nat

structure Plan where
  stages : List Stage
  summary : Summary

inductive ProjectError where
  | noFiles (project : String)
  | index (purpose : Purpose) (cause : IndexError)

namespace ProjectError

def sink (purpose : Purpose) (failure : SinkError) : ProjectError := index purpose (.sink failure)

def chain : ProjectError → List String
  | noFiles project => ["no indexable files in project '" ++ project ++ "'"]
  | index purpose (.sink failure) => [purpose.context, failure.message, failure.cause]
  | index purpose cause => [purpose.context, cause.message]

end ProjectError

structure Project where
  program : Program
  options : Options
  collaborators : Collaborators

namespace Project

def stage {α : Type} (purpose : Purpose) (x : StateM Session α) : StateM Session (α × Stage) := do
  let a ← x
  let effects ← Session.takeJournal
  pure (a, ⟨purpose, effects⟩)

def context (p : Project) (fileId : Nat) (file : SourceFile) : FileContext :=
  ⟨⟨p.program, p.collaborators⟩, p.options, fileId, file⟩

def indexFile (p : Project) (fileId : Nat) (file : SourceFile) : StateM Session Bool := do
  let uri := Path.fileUri (Path.joinText p.options.projectRoot file.name)
  let document ← Session.vertex (.document uri file.scriptKind.isJavaScript)
  match ← (p.context fileId file).index document with
  | .ok _ => pure true
  | .error _ => pure false

def planAll (p : Project) : StateM Session Plan := do
  let root := Path.fileUri p.options.projectRoot
  let (_, metadata) ← stage .metadata (Session.vertex (.metaData root))
  let (_, project) ← stage .project (Session.vertex (.project "typescript"))
  let files ← p.program.files.toList.zipIdx.mapM fun (file, fileId) =>
    stage (.file file.name) (p.indexFile fileId file)
  let definitions := (← get).definitions.size
  let (linked, links) ← stage .links Session.emitLinks
  let flush : Stage := ⟨.flush, #[.flush]⟩
  pure {
    stages := [metadata, project] ++ files.map (·.2) ++ [links, flush]
    summary := {
      filesIndexed := files.countP (·.1)
      filesFailed := files.countP (!·.1)
      definitions
      linkedDefinitions := linked } }

def plan (p : Project) : Plan := (p.planAll.run {}).1

end Project

/-- Carries out stages in order and gives the purpose of the one in which the sink failed. -/
def Delivery.performStages {σ : Type} [Sink σ] :
    List Stage → Delivery σ → Option (Purpose × SinkError) × Delivery σ
  | [], d => (none, d)
  | s :: rest, d =>
    let d := d.performAll s.effects
    match d.failure? with
    | some failure => (some (s.purpose, failure), d)
    | none => performStages rest d

/-- Indexes a program into a sink. A program without files is refused before anything is done. -/
def Project.index {σ : Type} [Sink σ] (p : Project) (sink : σ) :
    Except ProjectError Summary × Delivery σ :=
  if p.program.size = 0 then (.error (.noFiles p.options.displayName), { sink })
  else
    let plan := p.plan
    match Delivery.performStages plan.stages { sink } with
    | (some (purpose, failure), d) => (.error (.sink purpose failure), d)
    | (none, d) => (.ok plan.summary, d)

end SourceIndex
