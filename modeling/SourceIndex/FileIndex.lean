import SourceIndex.IndexError
import SourceIndex.Options
import SourceIndex.Session
import SourceIndex.Text.Blank

/-! The index of one file. Its tour is recorded event by event: a declaration is given a symbol and
a range, asked about, and open as a component until the tour leaves it. -/

namespace SourceIndex

structure FileSummary where
  document : Nat
  components : List Component
  outline : List Outline

def Node.isKey (n : Node) : Bool :=
  n.kind = .propertyAssignment || n.kind = .shorthandPropertyAssignment

/-- Opens a component. Functions and signatures may do without a name, other declarations not. -/
def Node.isDeclaration (n : Node) : Bool :=
  match n.kind with
  | .functionExpression | .arrowFunction | .constructor | .callSignature | .constructSignature =>
    true
  | .classDeclaration | .classExpression | .interfaceDeclaration | .enumDeclaration
  | .functionDeclaration | .methodDeclaration | .methodSignature | .getAccessor | .setAccessor
  | .propertyDeclaration | .typeAliasDeclaration | .moduleDeclaration
  | .namespaceExportDeclaration | .variableDeclaration | .typeParameter =>
    n.payload.name.isSome
  | _ => false

namespace SourceFile

/-- The first place after a node's modifiers that is not blank. -/
def keywordStart (f : SourceFile) (n : Node) : Nat :=
  let lastModifier := (n.payload.modifiers.bind List.getLast?).bind f.arena.get?
  let after := (lastModifier.map (·.stop)).getD n.start
  after + Text.byteSize (((f.text.dropBytes? after).getD []).takeWhile isBlank)

/-- Where references to a declaration are asked for: at its name, at the keyword of a constructor,
or at its start. -/
def referenceOffset (f : SourceFile) (n : Node) : Nat :=
  if n.kind = .constructor then f.keywordStart n
  else ((f.arena.get? n.payload.name).map (·.start)).getD n.start

end SourceFile

structure FileContext where
  world : World
  options : Options
  fileId : Nat
  file : SourceFile

/-- What changes while a file is recorded. For each node on the way, innermost first, `opened`
tells whether a component was opened for it. -/
structure Recorder where
  session : Session
  resolver : Resolver := {}
  components : ComponentStack := []
  outline : Outline.Builder := {}
  closed : List Component := []
  opened : List Bool := []

namespace Recorder

def memory (r : Recorder) : Memory :=
  ⟨r.session.symbols, r.resolver, r.session.packages, r.session.journal⟩

def withMemory (r : Recorder) (m : Memory) : Recorder :=
  { r with
    session := { r.session with
      symbols := m.table
      packages := m.packages
      journal := m.journal }
    resolver := m.resolver }

def inSession {α : Type} (x : StateM Session α) : StateM Recorder α :=
  modifyGet fun r =>
    let (a, session) := x.run r.session
    (a, { r with session })

end Recorder

open Recorder

namespace FileContext

def resolve (c : FileContext) (index : Nat) : StateM Recorder Symbol :=
  modifyGet fun r =>
    let key : NodeKey := ⟨c.fileId, some index⟩
    let (s, m) := (c.world.resolve c.options.maxSymbolDepth.toNat key).run r.memory
    (s, r.withMemory m)

/-- A reference lies in the file of its name, and is placed as in the file at hand when there is
no such file. -/
def locate (c : FileContext) (r : Reference) : Location :=
  let target := (c.world.program.fileNamed? r.file).getD c.file
  ⟨r.file, target.spanRange r.start (r.start + r.length)⟩

def openComponent (c : FileContext) (index : Nat) (n : Node) (s : Symbol) :
    StateM Recorder Unit := do
  let _ ← inSession (Session.vertex .resultSet)
  let _ ← inSession (Session.vertex .moniker)
  let range := c.file.nodeRange (some index)
  let id ← inSession (Session.vertex (.range range s.render (.ofKind n.kind) range))
  inSession (Session.define id ⟨c.file.name, range⟩)
  let offset := c.file.referenceOffset n
  let found ← inSession (Session.consult (.references c.file.name offset)
    (c.world.collaborators.references c.file.name offset) [])
  inSession (Session.refer id (found.map c.locate))
  modify fun r => { r with components := r.components.enter id, outline := r.outline.enter id }

/-- Whether a component was opened for a declaration: local ones may be left out. -/
def openDeclaration (c : FileContext) (index : Nat) (n : Node) : StateM Recorder Bool := do
  if n.isDeclaration then
    let s ← c.resolve index
    match s, c.options.includeLocals with
    | .fileLocal _, false => pure false
    | _, _ => do
      c.openComponent index n s
      pure true
  else pure false

def closeComponent (c : FileContext) : StateM Recorder Unit := do
  match (← get).components.exit with
  | (none, _) => pure ()
  | (some component, components) =>
    modify fun r => { r with components }
    if c.options.emitComplexity then
      let _ ← inSession (Session.vertex (.complexity component.id component.tokens.metrics))
    modify fun r => { r with closed := component :: r.closed }

def record (c : FileContext) : Event → StateM Recorder Unit
  | .operator token => modify fun r => { r with components := r.components.operator token }
  | .operand token => modify fun r => { r with components := r.components.operand token }
  | .enter index n => do
    -- keys are numbered in the order of the tour
    if n.isKey then let _ ← c.resolve index
    let opened ← c.openDeclaration index n
    modify fun r => { r with opened := opened :: r.opened }
  | .leave => do
    match (← get).opened with
    | true :: rest => do
      c.closeComponent
      modify fun r => { r with outline := r.outline.exit, opened := rest }
    | false :: rest => modify fun r => { r with opened := rest }
    | [] => pure ()

def recordAll (c : FileContext) (document : Nat) :
    StateM Recorder (Except IndexError FileSummary) := do
  inSession (Session.define document ⟨c.file.name, c.file.nodeRange c.file.root⟩)
  modify fun r => { r with components := r.components.enter document }
  let tour := c.file.tour
  tour.events.forM c.record
  if tour.isCut then pure (.error (.tooDeep c.file.name))
  else
    c.closeComponent
    let outline := (← get).outline.finish
    if c.options.emitOutline then
      outline.forM fun tree => do let _ ← inSession (Session.vertex (.outline tree))
    let components := sortBy (fun a b => a.id ≤ b.id) (← get).closed
    pure (.ok ⟨document, components, outline⟩)

def index (c : FileContext) (document : Nat) : StateM Session (Except IndexError FileSummary) :=
  if c.file.arena.kind? c.file.root = some .sourceFile then
    modifyGet fun session =>
      let (result, r) := (c.recordAll document).run { session }
      (result, r.session)
  else pure (.error (.notASourceFile c.file.root c.file.name))

end FileContext

end SourceIndex
