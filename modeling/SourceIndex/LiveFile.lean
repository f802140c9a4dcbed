import SourceIndex.FileIndex
import SourceIndex.Live

/-! The index of one file, written while its tree is walked. A walk goes down one child after the
other; the first error ends it. -/

namespace SourceIndex

namespace Live

variable {σ ε α : Type}

def inSession (x : Attempt (Live Session σ) ε α) : Attempt (Live Recorder σ) ε α :=
  Attempt.within (fun l => ⟨l.state.session, l.sink⟩)
    (fun l r => ⟨{ r.state with session := l.state }, l.sink⟩) x

def recording (x : Attempt (Live Recorder σ) ε α) : Attempt (Live Session σ) ε α :=
  Attempt.within (fun l => ⟨{ session := l.state }, l.sink⟩) (fun r _ => ⟨r.state.session, r.sink⟩)
    x

def resolve (c : FileContext) (index : Nat) : Attempt (Live Recorder σ) ε Symbol :=
  Attempt.within (·.state.memory) (fun m r => { r with state := r.state.withMemory m })
    (c.world.symbolOf c.options.maxSymbolDepth ⟨c.fileId, some index⟩)

def locate (c : FileContext) (r : Reference) : Attempt (Live Recorder σ) ε Location :=
  if r.start + r.length < bound32 then pure (c.locate r) else Attempt.overflow .referenceEnd

def collectReferences (c : FileContext) (id offset : Nat) : Attempt (Live Recorder σ) ε Unit := do
  let found ← sure (Recorder.inSession (Session.consult (.references c.file.name offset)
    (c.world.collaborators.references c.file.name offset) []))
  let located ← found.mapM (locate c)
  sure (Recorder.inSession (Session.refer id located))

variable [Sink σ]

def openComponent (c : FileContext) (index : Nat) (n : Node) (s : Symbol) :
    Attempt (Live Recorder σ) IndexError Unit := do
  let _ ← inSession (vertex .resultSet)
  let _ ← inSession (vertex .moniker)
  let range := c.file.nodeRange (some index)
  let id ← inSession (vertex (.range range s.render (.ofKind n.kind) range))
  sure (Recorder.inSession (Session.define id ⟨c.file.name, range⟩))
  collectReferences c id (c.file.referenceOffset n)
  sure (modify fun r =>
    { r with components := r.components.enter id, outline := r.outline.enter id })

def openDeclaration (c : FileContext) (index : Nat) (n : Node) :
    Attempt (Live Recorder σ) IndexError Bool := do
  if n.isDeclaration then
    let s ← resolve c index
    match s, c.options.includeLocals with
    | .fileLocal _, false => pure false
    | _, _ => do
      openComponent c index n s
      pure true
  else pure false

def closeComponent (c : FileContext) : Attempt (Live Recorder σ) IndexError Unit := do
  match (← get).state.components.exit with
  | (none, _) => pure ()
  | (some component, components) =>
    sure (modify fun r => { r with components })
    if c.options.emitComplexity then
      let _ ← inSession (vertex (.complexity component.id component.tokens.metrics))
    sure (modify fun r => { r with closed := component :: r.closed })

/-- Visits a node and what is below it, at most so many levels deep. -/
def visit (c : FileContext) : (levels : Nat) → NodeRef → Attempt (Live Recorder σ) IndexError Unit
  | levels, r =>
    match r, c.file.arena.get? r with
    | some index, some node =>
      if node.hasParseError then pure ()
      else
        match levels with
        | 0 => Attempt.fail (.tooDeep c.file.name)
        | levels + 1 => do
          -- keys are numbered in the order of the walk
          if node.isKey then let _ ← resolve c index
          let opened ← openDeclaration c index node
          (node.steps (c.file.isInMapped index)).forM fun
            | .operator token =>
              sure (modify fun r => { r with components := r.components.operator token })
            | .operand token =>
              sure (modify fun r => { r with components := r.components.operand token })
            | .visit r => visit c levels r
          if opened then
            closeComponent c
            sure (modify fun r => { r with outline := r.outline.exit })
    | _, _ => pure ()

def recordFile (c : FileContext) (document : Nat) :
    Attempt (Live Recorder σ) IndexError FileSummary := do
  sure (Recorder.inSession (Session.define document ⟨c.file.name, c.file.nodeRange c.file.root⟩))
  sure (modify fun r => { r with components := r.components.enter document })
  visit c SourceFile.maxVisitDepth c.file.root
  closeComponent c
  let outline := (← get).state.outline.finish
  if c.options.emitOutline then
    outline.forM fun tree => do let _ ← inSession (vertex (.outline tree))
  let components := sortBy (fun a b => a.id ≤ b.id) (← get).state.closed
  pure ⟨document, components, outline⟩

def index (c : FileContext) (document : Nat) : Attempt (Live Session σ) IndexError FileSummary :=
  if c.file.arena.kind? c.file.root = some .sourceFile then recording (recordFile c document)
  else Attempt.fail (.notASourceFile c.file.root c.file.name)

end Live

end SourceIndex
