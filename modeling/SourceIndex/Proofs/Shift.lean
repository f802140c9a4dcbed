import SourceIndex.Proofs.Declarations
import SourceIndex.Proofs.Packages
import SourceIndex.Proofs.Renaming

/-! One file in two programs. If nobody points from a node to nodes elsewhere, the symbols of a file
depend on the file and its package alone. So the file is recorded alike in both programs, with all
ids moved by one number. -/

namespace SourceIndex

open Memory World Recorder

namespace Collaborators

/-- No node is ever answered to a question about types. -/
def AnswersNoNode (c : Collaborators) : Prop :=
  (∀ type name, (c.properties type name).toOption.getD [] = []) ∧
    ∀ node, (c.aliases node).toOption.getD [] = []

end Collaborators

mutual

def Outline.shift (k : Nat) : Outline → Outline
  | .node id children => .node (id + k) (Outline.shiftForest k children)

def Outline.shiftForest (k : Nat) : List Outline → List Outline
  | [] => []
  | tree :: trees => tree.shift k :: Outline.shiftForest k trees

end

mutual

theorem Outline.shift_eq (k : Nat) : ∀ tree : Outline, tree.shift k = tree.rename (· + k)
  | .node id children => by rw [Outline.shift, Outline.rename, Outline.shiftForest_eq k children]

theorem Outline.shiftForest_eq (k : Nat) :
    ∀ trees, Outline.shiftForest k trees = Outline.renameForest (· + k) trees
  | [] => rfl
  | tree :: trees => by
    rw [Outline.shiftForest, Outline.renameForest, Outline.shift_eq k tree,
      Outline.shiftForest_eq k trees]

end

namespace Outline.Builder

def shift (k : Nat) (b : Builder) : Builder :=
  ⟨b.stack.map fun x => (x.1 + k, x.2.map (·.shift k)), b.roots.map (·.shift k)⟩

theorem exit_shift (k : Nat) (b : Builder) : (b.shift k).exit = b.exit.shift k := by
  have hshift : ∀ b : Builder, b.shift k = b.rename (· + k) := fun b => by
    simp only [shift, rename, Outline.shift_eq]
  rw [hshift, hshift, exit_rename]

end Outline.Builder

def Component.shift (k : Nat) (d : Component) : Component := ⟨d.id + k, d.tokens⟩

def Element.shift (k : Nat) : Element → Element
  | complexity component metrics => complexity (component + k) metrics
  | outline tree => outline (tree.shift k)
  | references result => references (result + k)
  | item result ids property => item (result + k) (ids.map (· + k)) property
  | element => element

namespace Entry

/-- All ids of an entry, moved by a number. -/
def shift (k : Nat) (e : Entry) : Entry := ⟨e.id + k, e.type, e.element.shift k⟩

theorem shift_eq (k : Nat) (e : Entry) : e.shift k = e.rename (· + k) := by
  obtain ⟨id, type, element⟩ := e
  cases element with
  | outline tree =>
    rw [shift, Element.shift, Outline.shift_eq]
    rfl
  | _ => rfl

/-- Neither a document nor a record of a link: such entries are inside the block of a document. -/
def isInner (e : Entry) : Bool := e.document?.isNone && !e.isLink

end Entry

namespace Memory

/-- Two memories hold the same about one file, which has different numbers. -/
structure Matches (c c' : Collaborators) (fileId fileId' : Nat) (m m' : Memory) : Prop where
  table : ∀ r, m'.table.get? ⟨fileId', r⟩ = m.table.get? ⟨fileId, r⟩
  locals : ∀ r, m'.resolver.locals.get? ⟨fileId', r⟩ = m.resolver.locals.get? ⟨fileId, r⟩
  lastLocal : m'.resolver.lastLocal = m.resolver.lastLocal
  keyCounts : m'.resolver.keyCounts = m.resolver.keyCounts
  packages : c.Remembers m.packages
  packages' : c'.Remembers m'.packages

variable {c c' : Collaborators} {fileId fileId' : Nat} {m m' m₁ m₁' : Memory}

theorem Matches.congr (h : Matches c c' fileId fileId' m m') (htable : m₁.table = m.table)
    (hresolver : m₁.resolver = m.resolver) (hpackages : m₁.packages = m.packages)
    (htable' : m₁'.table = m'.table) (hresolver' : m₁'.resolver = m'.resolver)
    (hpackages' : m₁'.packages = m'.packages) : Matches c c' fileId fileId' m₁ m₁' where
  table := htable ▸ htable' ▸ h.table
  locals := hresolver ▸ hresolver' ▸ h.locals
  lastLocal := hresolver ▸ hresolver' ▸ h.lastLocal
  keyCounts := hresolver ▸ hresolver' ▸ h.keyCounts
  packages := hpackages ▸ h.packages
  packages' := hpackages' ▸ h.packages'

theorem Matches.heard (h : Matches c c' fileId fileId' m m') (hheard : Heard m m₁)
    (hheard' : Heard m' m₁') : Matches c c' fileId fileId' m₁ m₁' :=
  h.congr hheard.table hheard.resolver hheard.packages hheard'.table hheard'.resolver
    hheard'.packages

end Memory

namespace World

variable {w w' : World} {f : SourceFile} {n : Node} {key : NodeKey}

theorem declaredProperty?_eq_none (h : w.collaborators.AnswersNoNode) :
    w.declaredProperty? f n key = none := by
  unfold declaredProperty?
  split
  · split
    · rw [Option.bind_eq_none_iff]
      intro type _
      rw [h.1]
      rfl
    · rfl
  · rfl

theorem declaredImport?_eq_none (h : w.collaborators.AnswersNoNode) :
    w.declaredImport? n key = none := by
  unfold declaredImport?
  rw [h.2]
  split <;> rfl

end World

theorem Table.get?_insert_matches {α : Type} {t t' : Table NodeKey α} {fileId fileId' : Nat}
    (h : ∀ r, t'.get? ⟨fileId', r⟩ = t.get? ⟨fileId, r⟩) (r : NodeRef) (a : α) (r' : NodeRef) :
    (t'.insert ⟨fileId', r⟩ a).get? ⟨fileId', r'⟩ = (t.insert ⟨fileId, r⟩ a).get? ⟨fileId, r'⟩ := by
  rw [get?_insert, get?_insert, h]
  simp only [NodeKey.mk.injEq, true_and]

def NodeKey.Matches (fileId fileId' : Nat) (key key' : NodeKey) : Prop :=
  key.file = fileId ∧ key'.file = fileId' ∧ key'.node = key.node

structure FileContext.Beside (c c' : FileContext) : Prop where
  file : c'.file = c.file
  options : c'.options = c.options
  here : c.world.program.file? c.fileId = some c.file
  there : c'.world.program.file? c'.fileId = some c.file
  packages : c.world.collaborators.SamePackages c'.world.collaborators
  untyped : c.world.collaborators.AnswersNoNode
  untyped' : c'.world.collaborators.AnswersNoNode

namespace FileContext.Beside

variable {c c' : FileContext}

/-- The nodes of the file are resolved in step. -/
theorem corresponds (h : c.Beside c') :
    c.world.Corresponds c'.world (NodeKey.Matches c.fileId c'.fileId)
      (Memory.Matches c.world.collaborators c'.world.collaborators c.fileId c'.fileId) where
  node? := by
    rintro ⟨_, r⟩ ⟨_, _⟩ ⟨rfl, rfl, rfl⟩
    simp only [World.node?, h.here, h.there]
  node := fun hk => hk.2.2
  inFile := fun hk r => ⟨hk.1, hk.2.1, rfl⟩
  known? := by
    rintro m m' ⟨_, r⟩ ⟨_, _⟩ hm ⟨rfl, rfl, rfl⟩
    simp only [Memory.known?, Resolver.local?, hm.table, hm.locals]
  remember := by
    rintro ⟨_, _⟩ ⟨_, r⟩ ⟨rfl, rfl, rfl⟩ s m m' hm
    exact ⟨rfl, Table.get?_insert_matches hm.table r s, hm.locals, hm.lastLocal, hm.keyCounts,
      hm.packages, hm.packages'⟩
  newLocal := by
    rintro ⟨_, _⟩ ⟨_, r⟩ ⟨rfl, rfl, rfl⟩ ⟨table, ⟨locals, lastLocal, keyCounts⟩, packages, journal⟩
      ⟨table', ⟨locals', _, _⟩, packages', journal'⟩
      ⟨htable, hlocals, rfl, rfl, hpackages, hpackages'⟩
    exact ⟨rfl, htable, Table.get?_insert_matches hlocals r _, rfl, rfl, hpackages, hpackages'⟩
  countKey := by
    rintro spelling ⟨table, ⟨locals, lastLocal, keyCounts⟩, packages, journal⟩
      ⟨table', ⟨locals', _, _⟩, packages', journal'⟩
      ⟨htable, hlocals, rfl, rfl, hpackages, hpackages'⟩
    exact ⟨rfl, htable, hlocals, rfl, rfl, hpackages, hpackages'⟩
  packageOf := by
    rintro name m m' hm
    refine ⟨?_, hm.table, hm.locals, hm.lastLocal, hm.keyCounts, hm.packages.package name,
      hm.packages'.package name⟩
    exact h.packages.of_remembers hm.packages hm.packages' name
  setTarget? := by
    rintro key key' hk f n m m' hm
    cases hrun : (c.world.setTarget? f n key).run m with
    | mk target m₁ =>
      cases hrun' : (c'.world.setTarget? f n key').run m' with
      | mk target' m₁' =>
        obtain ⟨htarget, hheard⟩ := setTarget?_spec hrun
        obtain ⟨htarget', hheard'⟩ := setTarget?_spec hrun'
        rw [declaredProperty?_eq_none h.untyped] at htarget
        rw [declaredProperty?_eq_none h.untyped'] at htarget'
        rw [htarget, htarget']
        exact ⟨.none, hm.heard hheard hheard'⟩
  importTarget? := by
    rintro key key' hk n m m' hm
    cases hrun : (c.world.importTarget? n key).run m with
    | mk target m₁ =>
      cases hrun' : (c'.world.importTarget? n key').run m' with
      | mk target' m₁' =>
        obtain ⟨htarget, hheard⟩ := importTarget?_spec hrun
        obtain ⟨htarget', hheard'⟩ := importTarget?_spec hrun'
        rw [declaredImport?_eq_none h.untyped] at htarget
        rw [declaredImport?_eq_none h.untyped'] at htarget'
        rw [htarget, htarget']
        exact ⟨.none, hm.heard hheard hheard'⟩

theorem look_inStep (h : c.Beside c') (index : Nat) (n : Node) :
    InStep (Memory.Matches c.world.collaborators c'.world.collaborators c.fileId c'.fileId) Eq
      (c.look index n) (c'.look index n) := by
  unfold FileContext.look
  split
  · rw [h.options]
    refine InStep.bind_eq ?_ fun _ => .pure rfl
    exact h.corresponds.resolve _ ⟨rfl, rfl, rfl⟩
  · exact .pure rfl

theorem kept?_eq (h : c.Beside c') : c'.kept? = c.kept? := by
  funext s
  simp only [FileContext.kept?, h.options]

theorem openingEntries_shift (h : c.Beside c') (k : Nat) {index id : Nat} (hid : 2 ≤ id) (n : Node)
    (s : Symbol) :
    c'.openingEntries ⟨index, n, ⟨id + k, s⟩⟩ =
      (c.openingEntries ⟨index, n, ⟨id, s⟩⟩).map (·.shift k) := by
  have h₁ : id + k - 2 = id - 2 + k := by omega
  have h₂ : id + k - 1 = id - 1 + k := by omega
  simp only [FileContext.openingEntries, h.file, h₁, h₂]
  rfl

theorem closingEntries_shift (h : c.Beside c') (k id : Nat) (d : Component) :
    c'.closingEntries (id + k) (d.shift k) = (c.closingEntries id d).map (·.shift k) := by
  rw [FileContext.closingEntries, FileContext.closingEntries, h.options]
  split <;> rfl

end FileContext.Beside

/-- The same entries inside of a block are written in two places, in the second one with moved
ids. -/
def WrittenShifted (k : Nat) (base base' es es' : List Entry) : Prop :=
  ∃ written : List Entry, (∀ e ∈ written, e.isInner = true) ∧ es = base ++ written ∧
    es' = base' ++ written.map (·.shift k)

theorem WrittenShifted.append {k : Nat} {base base' es es' more : List Entry}
    (h : WrittenShifted k base base' es es') (hinner : ∀ e ∈ more, e.isInner = true) :
    WrittenShifted k base base' (es ++ more) (es' ++ more.map (·.shift k)) := by
  obtain ⟨written, hall, rfl, rfl⟩ := h
  refine ⟨written ++ more, fun e he => ?_, List.append_assoc .., ?_⟩
  · rcases List.mem_append.mp he with he | he
    · exact hall e he
    · exact hinner e he
  · rw [List.map_append, List.append_assoc]

/-- Two recorders of the same file; the ids of the second one are moved. -/
structure Recorder.Shifted (c c' : FileContext) (k : Nat) (base base' : List Entry)
    (r r' : Recorder) : Prop where
  memory : Memory.Matches c.world.collaborators c'.world.collaborators c.fileId c'.fileId
    r.memory r'.memory
  lastId : r'.session.lastId = r.session.lastId + k
  components : r'.components = r.components.map (·.shift k)
  outline : r'.outline = r.outline.shift k
  opened : r'.opened = r.opened
  entries : WrittenShifted k base base' r.session.journal.entries r'.session.journal.entries

namespace FileContext.Beside

variable {c c' : FileContext} {k : Nat} {base base' : List Entry} {r r' : Recorder}

theorem openComponent_shifted (h : c.Beside c') (hr : Recorder.Shifted c c' k base base' r r')
    (index : Nat) (n : Node) (s : Symbol) :
    Recorder.Shifted c c' k base base' ((c.openComponent index n s).run r).2
      ((c'.openComponent index n s).run r').2 := by
  obtain ⟨session, hopen, hsymbols, hpackages, hlast, -, -, hentries, -⟩ :=
    openComponent_session (c := c) index n s r
  obtain ⟨session', hopen', hsymbols', hpackages', hlast', -, -, hentries', -⟩ :=
    openComponent_session (c := c') index n s r'
  have hid : r'.session.lastId + 3 = r.session.lastId + 3 + k := by
    rw [hr.lastId]
    omega
  rw [hopen, hopen']
  refine ⟨hr.memory.congr hsymbols rfl hpackages hsymbols' rfl hpackages', ?_, ?_, ?_, hr.opened,
    ?_⟩
  · rw [hlast, hlast', hid]
  · simp only [hr.components, hid]
    rfl
  · simp only [hr.outline, hid]
    rfl
  · rw [hentries, hentries', hid, h.openingEntries_shift k (by omega)]
    refine hr.entries.append fun e he => ?_
    simp only [openingEntries, List.mem_cons, List.not_mem_nil, or_false] at he
    rcases he with rfl | rfl | rfl <;> rfl

theorem closeComponent_shifted (h : c.Beside c')
    (hr : Recorder.Shifted c c' k base base' r r') :
    Recorder.Shifted c c' k base base' (c.closeComponent.run r).2 (c'.closeComponent.run r').2 := by
  have hcomponents := hr.components
  cases hc : r.components with
  | nil =>
    rw [hc] at hcomponents
    rw [closeComponent_nil hc, closeComponent_nil hcomponents]
    exact hr
  | cons d ds =>
    rw [hc] at hcomponents
    obtain ⟨session, hclose, hsymbols, hpackages, hlast, -, -, hentries, -⟩ :=
      closeComponent_session (c := c) hc
    obtain ⟨session', hclose', hsymbols', hpackages', hlast', -, -, hentries', -⟩ :=
      closeComponent_session (c := c') hcomponents
    rw [hclose, hclose']
    refine ⟨hr.memory.congr hsymbols rfl hpackages hsymbols' rfl hpackages', ?_, rfl, hr.outline,
      hr.opened, ?_⟩
    · rw [hlast, hlast', hr.lastId, closing, closing, h.options]
      omega
    · have hid : r'.session.lastId + 1 = r.session.lastId + 1 + k := by
        rw [hr.lastId]
        omega
      rw [hentries, hentries', hid, h.closingEntries_shift]
      refine hr.entries.append fun e he => ?_
      unfold closingEntries at he
      split at he
      · rw [List.mem_singleton.mp he]
        rfl
      · cases he

theorem record_shifted (h : c.Beside c') (hr : Recorder.Shifted c c' k base base' r r')
    (e : Event) :
    Recorder.Shifted c c' k base base' ((c.record e).run r).2 ((c'.record e).run r').2 := by
  cases e with
  | operator token =>
    refine ⟨hr.memory, hr.lastId, ?_, hr.outline, hr.opened, hr.entries⟩
    change ComponentStack.operator r'.components token =
      (ComponentStack.operator r.components token).map (·.shift k)
    rw [hr.components]
    simp [ComponentStack.operator, Component.shift]
  | operand token =>
    refine ⟨hr.memory, hr.lastId, ?_, hr.outline, hr.opened, hr.entries⟩
    change ComponentStack.operand r'.components token =
      (ComponentStack.operand r.components token).map (·.shift k)
    rw [hr.components]
    simp [ComponentStack.operand, Component.shift]
  | enter index n =>
    obtain ⟨hsymbol, hm⟩ := h.look_inStep index n _ _ hr.memory
    have hlooked : r.session.journal.LookedUp _ := look_lookedUp (c := c) index n r.memory
    have hlooked' : r'.session.journal.LookedUp _ := look_lookedUp (c := c') index n r'.memory
    have hpassed : Recorder.Shifted c c' k base base'
        (r.withMemory ((c.look index n).run r.memory).2)
        (r'.withMemory ((c'.look index n).run r'.memory).2) := by
      refine ⟨hm, hr.lastId, hr.components, hr.outline, hr.opened, ?_⟩
      have hentries := hr.entries
      rw [← hlooked.entries, ← hlooked'.entries] at hentries
      exact hentries
    -- the same symbol is found, so a component is opened in both places or in none
    rw [record_enter, record_enter, ← hsymbol, h.kept?_eq]
    cases ((c.look index n).run r.memory).1.bind c.kept? with
    | none =>
      exact ⟨hpassed.memory, hpassed.lastId, hpassed.components, hpassed.outline,
        congrArg (false :: ·) hr.opened, hpassed.entries⟩
    | some s =>
      have hopen := h.openComponent_shifted hpassed index n s
      exact ⟨hopen.memory, hopen.lastId, hopen.components, hopen.outline,
        congrArg (true :: ·) hr.opened, hopen.entries⟩
  | leave =>
    have hclose := h.closeComponent_shifted hr
    obtain ⟨session, resolver, components, outline, closed, opened⟩ := r
    obtain ⟨session', resolver', components', outline', closed', opened'⟩ := r'
    obtain rfl : opened' = opened := hr.opened
    cases opened' with
    | nil => exact hr
    | cons kept rest =>
      cases kept with
      | false => exact ⟨hr.memory, hr.lastId, hr.components, hr.outline, rfl, hr.entries⟩
      | true =>
        refine ⟨hclose.memory, hclose.lastId, hclose.components, ?_, rfl, hclose.entries⟩
        have hexit := congrArg Outline.Builder.exit hclose.outline
        rw [Outline.Builder.exit_shift] at hexit
        exact hexit

theorem after_shifted (h : c.Beside c') (hr : Recorder.Shifted c c' k base base' r r')
    (es : List Event) :
    Recorder.Shifted c c' k base base' (c.after r es) (c'.after r' es) := by
  induction es generalizing r r' with
  | nil => exact hr
  | cons e es ih => exact ih (h.record_shifted hr e)

theorem outlineEntries_shift (k : Nat) (trees : List Outline) (last : Nat) :
    ((trees.map (·.shift k)).zipIdx (last + k)).map
        (fun (tree, id) => (⟨id, .vertex, .outline tree⟩ : Entry)) =
      ((trees.zipIdx last).map fun (tree, id) => (⟨id, .vertex, .outline tree⟩ : Entry)).map
        (·.shift k) := by
  simp only [Outline.shift_eq, Entry.shift_eq]
  exact outlineEntries_rename last (last + k) trees fun i _ => Nat.add_right_comm last i k

theorem outlines_shifted (hr : Recorder.Shifted c c' k base base' r r') (trees : List Outline) :
    WrittenShifted k base base'
      ((trees.forM fun tree => do
        let _ ← inSession (Session.vertex (.outline tree)) : StateM Recorder Unit).run
          r).2.session.journal.entries
      (((trees.map (·.shift k)).forM fun tree => do
        let _ ← inSession (Session.vertex (.outline tree)) : StateM Recorder Unit).run
          r').2.session.journal.entries := by
  obtain ⟨session, hrun, hwrites⟩ := outlines_writes trees r
  obtain ⟨session', hrun', hwrites'⟩ := outlines_writes (trees.map (·.shift k)) r'
  have hid : r'.session.lastId + 1 = r.session.lastId + 1 + k := by
    rw [hr.lastId]
    omega
  rw [hrun, hrun', hwrites.entries, hwrites'.entries, hid, outlineEntries_shift]
  refine hr.entries.append fun e he => ?_
  obtain ⟨x, -, rfl⟩ := List.mem_map.mp he
  rfl

/-- A file that is indexed in two places writes the same, with all ids moved. -/
theorem index_shifted (h : c.Beside c') (document : Nat) {s s' : Session}
    (hm : Memory.Matches c.world.collaborators c'.world.collaborators c.fileId c'.fileId
      ⟨s.symbols, {}, s.packages, s.journal⟩ ⟨s'.symbols, {}, s'.packages, s'.journal⟩)
    (hlast : s'.lastId = s.lastId + k) :
    WrittenShifted k s.journal.entries s'.journal.entries
      ((c.index document).run s).2.journal.entries
      ((c'.index (document + k)).run s').2.journal.entries := by
  have hnothing : WrittenShifted k s.journal.entries s'.journal.entries s.journal.entries
      s'.journal.entries := ⟨[], by simp, by simp, by simp⟩
  by_cases hroot : c.file.arena.kind? c.file.root = some .sourceFile
  · have hstart : Recorder.Shifted c c' k s.journal.entries s'.journal.entries
        (c.start document s) (c'.start (document + k) s') :=
      ⟨hm, hlast, rfl, rfl, rfl, hnothing⟩
    have htour := h.after_shifted hstart c.file.tour.events
    have hevents : c'.file.tour = c.file.tour := by rw [h.file]
    rw [index_rooted hroot, index_rooted (c := c') (by rwa [h.file])]
    cases hcut : c.file.tour.isCut with
    | true =>
      rw [recordAll_cut hcut, recordAll_cut (c := c') (by rwa [hevents]), hevents]
      exact htour.entries
    | false =>
      have hclosed : Recorder.Shifted c c' k s.journal.entries s'.journal.entries
          (c.closed document s) (c'.closed (document + k) s') := by
        rw [closed, closed, hevents]
        exact h.closeComponent_shifted htour
      have hfinish : (c'.closed (document + k) s').outline.finish =
          (c.closed document s).outline.finish.map (·.shift k) := by
        rw [hclosed.outline]
        exact (List.map_reverse ..).symm
      rw [recordAll_run hcut, recordAll_run (c := c') (by rwa [hevents]), h.options, hfinish]
      cases c.options.emitOutline with
      | false => exact hclosed.entries
      | true => exact outlines_shifted hclosed _
  · rw [index_unrooted hroot, index_unrooted (c := c') (by rwa [h.file])]
    exact hnothing

end FileContext.Beside

end SourceIndex
