import SourceIndex.Attempt
import SourceIndex.Effect
import SourceIndex.Table

/-! The symbol of a node. The first rule that applies decides:

* a block has no symbol, and a file has that of its package;
* a key of an object literal is numbered among the keys of its spelling, under its file;
* a property of a tag is what the tag's type declares under its name;
* what has no owner with a global symbol is local;
* a list or statement that only groups others has its owner's symbol;
* an import is what it stands for;
* a named declaration extends its owner's symbol;
* anything else is local.

Results are remembered, global ones for the whole run and local ones for one resolver. A chain of
owners that is too long ends in a local symbol.

The rules are stated for any way to count. A resolver counts in 32 bits; without that bound the
rules give every node a symbol. -/

namespace SourceIndex

abbrev SymbolTable := Table NodeKey Symbol

/-- The local symbols given out for one file, and how often each spelling of a key was counted. -/
structure Resolver where
  locals : Table NodeKey Nat := {}
  lastLocal : Nat := 0
  keyCounts : Table String Nat := {}

def Resolver.local? (r : Resolver) (key : NodeKey) : Option Symbol :=
  (r.locals.get? key).map .fileLocal

structure Memory where
  table : SymbolTable := {}
  resolver : Resolver := {}
  packages : Package.Cache := {}
  journal : Journal := #[]

structure World where
  program : Program
  collaborators : Collaborators

namespace World

def node? (w : World) (key : NodeKey) : Option (SourceFile × Node) := do
  let file ← w.program.file? key.file
  let node ← file.arena.get? key.node
  some (file, node)

end World

namespace Memory

def known? (m : Memory) (key : NodeKey) : Option Symbol :=
  m.table.get? key <|> m.resolver.local? key

def remember (key : NodeKey) (s : Symbol) : StateM Memory Symbol :=
  modifyGet fun m => (s, { m with table := m.table.insert key s })

def newLocal (key : NodeKey) : StateM Memory Symbol :=
  modifyGet fun m =>
    let n := m.resolver.lastLocal + 1
    (.fileLocal n, { m with
      resolver := { m.resolver with lastLocal := n, locals := m.resolver.locals.insert key n } })

def countKey (spelling : String) : StateM Memory Nat :=
  modifyGet fun m =>
    let n := (m.resolver.keyCounts.get? spelling).getD 0 + 1
    (n, { m with
      resolver := { m.resolver with keyCounts := m.resolver.keyCounts.insert spelling n } })

def packageOf (c : Collaborators) (file : String) : StateM Memory (Option Symbol) :=
  modifyGet fun m =>
    let (package, packages) := (c.package file).run m.packages
    (package, { m with packages })

def consult {α : Type} (query : Query) (answer : Except OracleError α) (nothing : α) :
    StateM Memory α :=
  modifyGet fun m =>
    let (a, journal) := m.journal.consult query answer nothing
    (a, { m with journal })

end Memory

/-- Computations with a memory in which local symbols and keys are numbered. -/
class Resolving (m : Type → Type) where
  fromMemory {α : Type} : StateM Memory α → m α
  newLocal : NodeKey → m Symbol
  countKey : String → m Nat

instance : Resolving (StateM Memory) := ⟨id, Memory.newLocal, Memory.countKey⟩

namespace Resolving

@[simp] theorem fromMemory_eq {α : Type} (x : StateM Memory α) :
    (fromMemory x : StateM Memory α) = x := rfl

@[simp] theorem newLocal_eq (key : NodeKey) :
    (newLocal key : StateM Memory Symbol) = Memory.newLocal key := rfl

@[simp] theorem countKey_eq (spelling : String) :
    (countKey spelling : StateM Memory Nat) = Memory.countKey spelling := rfl

end Resolving

open Memory Resolving

namespace Node

def isContainer (n : Node) : Bool :=
  match n.kind with
  | .moduleBlock | .importDeclaration | .namedImports | .variableStatement
  | .variableDeclarationList => true
  | .importClause => n.payload.name.isNone
  | _ => false

def isImport (n : Node) : Bool := n.kind = .importSpecifier || n.kind = .importClause

end Node

def descriptor? (f : SourceFile) (n : Node) : Option Descriptor :=
  if n.kind = .constructor then some ⟨.method, "<constructor>"⟩
  else
    let name := f.nodeText n.payload.name
    if name.isEmpty then none
    else
      match n.kind with
      | .interfaceDeclaration | .enumDeclaration | .typeAliasDeclaration | .classDeclaration
      | .classExpression => some ⟨.type, name⟩
      | .functionDeclaration | .methodSignature | .methodDeclaration => some ⟨.method, name⟩
      | .propertyDeclaration | .propertySignature | .enumMember | .variableDeclaration =>
        some ⟨.term, name⟩
      | .getAccessor => some ⟨.method, "<get>" ++ name⟩
      | .setAccessor => some ⟨.method, "<set>" ++ name⟩
      | .moduleDeclaration => some ⟨.scope, name⟩
      | .parameter => some ⟨.parameter, name⟩
      | .typeParameter => some ⟨.typeParameter, name⟩
      | _ => none

namespace World

/-- The declaration of the property that an attribute of a tag sets. The tag is the attribute's
grandparent. -/
def propTarget? (w : World) (f : SourceFile) (key : NodeKey) :
    StateM Memory (Option NodeKey) := do
  let element := f.arena.parent (f.arena.parent key.node)
  match element, f.arena.identifierText? (f.arena.nameOf key.node) with
  | some _, some name =>
    let tag : NodeKey := ⟨key.file, element⟩
    match ← consult (.propsType tag) (w.collaborators.propsType tag) none with
    | none => pure none
    | some type =>
      let declarations ←
        consult (.properties type name) (w.collaborators.properties type name) []
      pure declarations.head?
  | _, _ => pure none

section

variable {m : Type → Type} [Monad m] [Resolving m]

/-- The rules below a global owner, given how to resolve other nodes. -/
def resolveOwned (w : World) (other : NodeKey → m Symbol) (key : NodeKey) (f : SourceFile)
    (n : Node) (owner : Symbol) : m Symbol := do
  let declared : m Symbol :=
    match descriptor? f n with
    | some d => fromMemory (remember key (owner.extend d))
    | none => newLocal key
  if n.isContainer then fromMemory (remember key owner)
  else if n.isImport then
    match ← fromMemory (consult (.aliases key) (w.collaborators.aliases key) []) with
    | target :: _ => other target
    | [] => declared
  else declared

def resolveBelow (w : World) (other : NodeKey → m Symbol) (key : NodeKey) (f : SourceFile)
    (n : Node) : m Symbol :=
  match f.arena.parent key.node with
  | none => newLocal key
  | some parent => do
    match ← other ⟨key.file, some parent⟩ with
    | .global text => w.resolveOwned other key f n (.global text)
    | _ => newLocal key

def resolveByRules (w : World) (other : NodeKey → m Symbol) (key : NodeKey) : m Symbol :=
  match w.node? key with
  | none => pure .empty
  | some (f, n) =>
    match n.kind with
    | .block => pure .empty
    | .sourceFile => do
      let package ← fromMemory (packageOf w.collaborators f.name)
      fromMemory (remember key (package.getD .empty))
    | .propertyAssignment | .shorthandPropertyAssignment => do
      let name := f.nodeText n.payload.name
      let number ← countKey name
      let owner ← other ⟨key.file, f.root⟩
      fromMemory (remember key (owner.extend ⟨.metadata, name ++ toString number⟩))
    | .jsxAttribute => do
      match ← fromMemory (w.propTarget? f key) with
      | some target => other target
      | none => w.resolveBelow other key f n
    | _ => w.resolveBelow other key f n

end

def resolveWithin (w : World) : Nat → NodeKey → StateM Memory Symbol
  | 0, key => do
    match (← get).known? key with
    | some s => pure s
    | none => Memory.newLocal key
  | links + 1, key => do
    match (← get).known? key with
    | some s => pure s
    | none => w.resolveByRules (w.resolveWithin links) key

def resolve (w : World) (maxDepth : Nat) (key : NodeKey) : StateM Memory Symbol :=
  w.resolveWithin (maxDepth + 1) key

end World

namespace Memory

variable {ε : Type}

instance : Resolving (EStateM (Fault ε) Memory) where
  fromMemory := Attempt.sure
  newLocal key := do
    if (← get).resolver.lastLocal + 1 < bound32 then Attempt.sure (newLocal key)
    else Attempt.overflow .localNumber
  countKey spelling := do
    if ((← get).resolver.keyCounts.get? spelling).getD 0 + 1 < bound32 then
      Attempt.sure (countKey spelling)
    else Attempt.overflow .keyNumber

end Memory

namespace World

variable {ε : Type}

def symbolAt (w : World) (maxDepth : UInt32) (depth : Nat)
    (other : NodeKey → Attempt Memory ε Symbol) (key : NodeKey) : Attempt Memory ε Symbol := do
  match (← get).known? key with
  | some s => pure s
  | none =>
    if maxDepth.toNat < depth then newLocal key
    else w.resolveByRules other key

/-- The symbol of a node, with so much room for its depth. -/
def symbolIn (w : World) (maxDepth : UInt32) : (room : Nat) → NodeKey → Attempt Memory ε Symbol
  | 0 => w.symbolAt maxDepth (bound32 - 1) fun _ => Attempt.overflow .ownerDepth
  | room + 1 => w.symbolAt maxDepth (bound32 - 1 - (room + 1)) (w.symbolIn maxDepth room)

def symbolOf (w : World) (maxDepth : UInt32) (key : NodeKey) : Attempt Memory ε Symbol :=
  w.symbolIn maxDepth (bound32 - 1) key

end World

def SymbolTable.sorted (t : SymbolTable) : List (NodeKey × Symbol) :=
  sortBy (fun a b => a.1.le b.1) t.entries

end SourceIndex
