import SourceIndex.Proofs.Lookups
import SourceIndex.Proofs.Scopes
import SourceIndex.Proofs.Walk

/-! What is recorded on the way through a file. The symbols of the declarations come from a survey
that looks at nothing but the memory of the resolver. They decide for which declarations a component
is opened, and from there the ids, the components, the outline, the tables and the entries follow by
counting. -/

namespace SourceIndex

/-- A component that was opened for a declaration. -/
structure Opened where
  id : Nat
  symbol : Symbol

namespace Walk

variable {α : Type}

def tokens (w : Walk α) : Tokens := ⟨w.operands.toArray, w.operators.toArray⟩

/-- Gives out ids. Opening a component takes three, closing one takes a fixed number. -/
def number (closing : Nat) : Nat → Walk Symbol → Walk Opened
  | _, done => done
  | last, operator token rest => operator token (rest.number closing last)
  | last, operand token rest => operand token (rest.number closing last)
  | last, node index n none inside rest =>
    node index n none (inside.number closing last)
      (rest.number closing (last + (3 + closing) * inside.noted.length))
  | last, node index n (some s) inside rest =>
    node index n (some ⟨last + 3, s⟩) (inside.number closing (last + 3))
      (rest.number closing (last + 3 + (3 + closing) * inside.noted.length + closing))

/-- The components in the order in which they are closed. -/
def closings : Walk Opened → List Component
  | done => []
  | operator _ rest => rest.closings
  | operand _ rest => rest.closings
  | node _ _ note inside rest =>
    inside.closings ++ (note.toList.map (fun o => ⟨o.id, inside.tokens⟩) ++ rest.closings)

def forest : Walk Opened → List Outline
  | done => []
  | operator _ rest => rest.forest
  | operand _ rest => rest.forest
  | node _ _ note inside rest =>
    (note.elim inside.forest fun o => [.node o.id inside.forest]) ++ rest.forest

theorem noted_number_length (closing last : Nat) (w : Walk Symbol) :
    (w.number closing last).noted.length = w.noted.length := by
  induction w generalizing last with
  | done => rfl
  | operator token rest ih => exact ih last
  | operand token rest ih => exact ih last
  | node index n note inside rest ih ih' =>
    cases note <;> simp [number, noted_node, ih, ih']

def symbols (w : Walk Opened) : Walk Symbol := w.mapNotes fun o => some o.symbol

theorem symbols_number (closing last : Nat) (w : Walk Symbol) :
    (w.number closing last).symbols = w := by
  induction w generalizing last with
  | done => rfl
  | operator token rest ih => exact congrArg (operator token) (ih last)
  | operand token rest ih => exact congrArg (operand token) (ih last)
  | node index n note inside rest ih ih' =>
    simp only [symbols] at ih ih'
    cases note <;> simp [symbols, number, mapNotes, ih, ih']

end Walk

namespace Component

def collect {α : Type} (d : Component) (w : Walk α) : Component :=
  ⟨d.id, ⟨d.tokens.operands ++ w.operands.toArray, d.tokens.operators ++ w.operators.toArray⟩⟩

theorem collect_entered {α : Type} (id : Nat) (w : Walk α) :
    collect ⟨id, {}⟩ w = ⟨id, w.tokens⟩ := by
  simp [collect, Walk.tokens]

end Component

namespace Outline

def hasChildren (o : Outline) : Bool := !o.children.isEmpty

namespace Builder

/-- The builder after finished trees were put below what is open. -/
def hang (b : Builder) (trees : List Outline) : Builder :=
  match b.stack with
  | [] => { b with roots := (trees.filter hasChildren).reverse ++ b.roots }
  | (id, siblings) :: outer => { b with stack := (id, trees.reverse ++ siblings) :: outer }

theorem hang_nil (b : Builder) : b.hang [] = b := by
  obtain ⟨stack, roots⟩ := b
  cases stack <;> rfl

theorem hang_hang (b : Builder) (trees trees' : List Outline) :
    (b.hang trees).hang trees' = b.hang (trees ++ trees') := by
  obtain ⟨stack, roots⟩ := b
  cases stack <;> simp [hang]

theorem exit_hang_enter (b : Builder) (id : Nat) (trees : List Outline) :
    ((b.enter id).hang trees).exit = b.hang [.node id trees] := by
  obtain ⟨stack, roots⟩ := b
  cases stack with
  | cons top outer => simp [enter, hang, exit]
  | nil =>
    cases trees with
    | nil => simp [enter, hang, exit, hasChildren, children]
    | cons t trees =>
      cases h : trees.reverse ++ [t] with
      | nil => simp at h
      | cons t' trees' =>
        have hback : trees'.reverse ++ [t'] = t :: trees := by
          rw [← List.reverse_cons, ← h]
          simp
        simp [enter, hang, exit, hasChildren, children, h, hback]

end Builder

end Outline

namespace FileContext

open Recorder

/-- The symbol of a node that is entered, if it is a declaration. A key is resolved too, which
counts it. -/
def look (c : FileContext) (index : Nat) (n : Node) : StateM Memory (Option Symbol) :=
  if n.isKey || n.isDeclaration then do
    let s ← c.world.resolve c.options.maxSymbolDepth.toNat ⟨c.fileId, some index⟩
    pure (if n.isDeclaration then some s else none)
  else pure none

def survey (c : FileContext) : Walk Empty → StateM Memory (Walk Symbol)
  | .done => pure .done
  | .operator token rest => do
    let rest ← c.survey rest
    pure (.operator token rest)
  | .operand token rest => do
    let rest ← c.survey rest
    pure (.operand token rest)
  | .node index n _ inside rest => do
    let symbol? ← c.look index n
    let inside ← c.survey inside
    let rest ← c.survey rest
    pure (.node index n symbol? inside rest)

/-- A component is opened for a symbol unless it is local and these are left out. -/
def kept? (c : FileContext) (s : Symbol) : Option Symbol :=
  match s, c.options.includeLocals with
  | .fileLocal _, false => none
  | _, _ => some s

/-- How many entries are written when a component is closed. -/
def closing (c : FileContext) : Nat := if c.options.emitComplexity then 1 else 0

def openingEntries (c : FileContext) (d : Noted Opened) : List Entry :=
  let range := c.file.nodeRange (some d.index)
  [⟨d.note.id - 2, .vertex, .resultSet⟩, ⟨d.note.id - 1, .vertex, .moniker⟩,
    ⟨d.note.id, .vertex, .range range d.note.symbol.render (.ofKind d.node.kind) range⟩]

def closingEntries (c : FileContext) (id : Nat) (d : Component) : List Entry :=
  if c.options.emitComplexity then [⟨id, .vertex, .complexity d.id d.tokens.metrics⟩] else []

/-- The entries that are written on a walk. -/
def entries (c : FileContext) : Walk Opened → List Entry
  | .done => []
  | .operator _ rest => c.entries rest
  | .operand _ rest => c.entries rest
  | .node _ _ none inside rest => c.entries inside ++ c.entries rest
  | .node index n (some o) inside rest =>
    c.openingEntries ⟨index, n, o⟩ ++ (c.entries inside ++
      (c.closingEntries (o.id + (3 + c.closing) * inside.noted.length + 1) ⟨o.id, inside.tokens⟩ ++
        c.entries rest))

def location (c : FileContext) (d : Noted Opened) : Location :=
  ⟨c.file.name, c.file.nodeRange (some d.index)⟩

def question (c : FileContext) (d : Noted Opened) : String × Nat :=
  (c.file.name, c.file.referenceOffset d.node)

def found (c : FileContext) (d : Noted Opened) : List Location :=
  ((c.world.collaborators.references c.file.name (c.file.referenceOffset d.node)).toOption.getD
    []).map c.locate

end FileContext

/-- What a walk does to the recorder. -/
structure Recorded (c : FileContext) (r : Recorder) (w : Walk Opened) (r' : Recorder) : Prop where
  opened : r'.opened = r.opened
  components : r'.components = r.components.map (·.collect w)
  outline : r'.outline = r.outline.hang w.forest
  closed : r'.closed = w.closings.reverse ++ r.closed
  lastId : r'.session.lastId = r.session.lastId + (3 + c.closing) * w.noted.length
  definitions : r'.session.definitions =
    w.noted.foldl (fun t d => t.insert d.note.id (c.location d)) r.session.definitions
  references : r'.session.references =
    w.noted.foldl (fun t d => t.insert d.note.id (c.found d)) r.session.references
  entries : r'.session.journal.entries = r.session.journal.entries ++ c.entries w
  questions : r'.session.journal.referenceQueries =
    r.session.journal.referenceQueries ++ w.noted.map c.question

structure Begins (c : FileContext) (r : Recorder) (d : Noted Opened) (r' : Recorder) : Prop where
  id : d.note.id = r.session.lastId + 3
  opened : r'.opened = true :: r.opened
  components : r'.components = r.components.enter d.note.id
  outline : r'.outline = r.outline.enter d.note.id
  closed : r'.closed = r.closed
  lastId : r'.session.lastId = d.note.id
  definitions : r'.session.definitions = r.session.definitions.insert d.note.id (c.location d)
  references : r'.session.references = r.session.references.insert d.note.id (c.found d)
  entries : r'.session.journal.entries = r.session.journal.entries ++ c.openingEntries d
  questions : r'.session.journal.referenceQueries =
    r.session.journal.referenceQueries ++ [c.question d]

structure Ends (c : FileContext) (r : Recorder) (d : Component) (r' : Recorder) : Prop where
  opened : r.opened = true :: r'.opened
  components : r.components = d :: r'.components
  outline : r'.outline = r.outline.exit
  closed : r'.closed = d :: r.closed
  lastId : r'.session.lastId = r.session.lastId + c.closing
  definitions : r'.session.definitions = r.session.definitions
  references : r'.session.references = r.session.references
  entries : r'.session.journal.entries =
    r.session.journal.entries ++ c.closingEntries (r.session.lastId + 1) d
  questions : r'.session.journal.referenceQueries = r.session.journal.referenceQueries

namespace Journal

def Retraces (j j' : Journal) : Prop := j'.typeQueries = j.typeQueries

end Journal

theorem Node.isDeclaration_of_isKey {n : Node} (h : n.isKey = true) :
    n.isDeclaration = false := by
  simp only [Node.isKey, Bool.or_eq_true, decide_eq_true_eq] at h
  rcases h with h | h <;> simp [Node.isDeclaration, h]

theorem Collaborators.corresponds_self (c : Collaborators) : c.Corresponds c Journal.Retraces where
  package := rfl
  write := by
    intro j j' hj e
    simp only [Journal.Retraces, Journal.typeQueries, Journal.queries_push_write]
    exact hj
  consult := by
    intro j j' hj q
    rw [Journal.consult_fst, Journal.consult_fst]
    refine ⟨rfl, ?_⟩
    simp only [Journal.Retraces, Journal.typeQueries, Journal.consult_queries, List.filter_append]
    exact congrArg (· ++ _) hj

namespace FileContext

open Recorder

variable {c : FileContext}

theorem look_inStep {J : Journal → Journal → Prop}
    (h : c.world.collaborators.Corresponds c.world.collaborators J) (index : Nat) (n : Node) :
    InStep (Memory.Alike J) Eq (c.look index n) (c.look index n) := by
  unfold look
  split
  · refine InStep.bind_eq ?_ fun _ => .pure rfl
    exact (World.corresponds_withCollaborators h).resolve _ rfl
  · exact .pure rfl

theorem survey_inStep {J : Journal → Journal → Prop}
    (h : c.world.collaborators.Corresponds c.world.collaborators J) (w : Walk Empty) :
    InStep (Memory.Alike J) Eq (c.survey w) (c.survey w) := by
  induction w with
  | done => exact .pure rfl
  | operator token rest ih => exact ih.bind_eq fun _ => .pure rfl
  | operand token rest ih => exact ih.bind_eq fun _ => .pure rfl
  | node index n note inside rest ih ih' =>
    refine (look_inStep h index n).bind_eq fun _ => ?_
    exact ih.bind_eq fun _ => ih'.bind_eq fun _ => .pure rfl

theorem look_lookedUp (index : Nat) (n : Node) (m : Memory) :
    m.journal.LookedUp ((c.look index n).run m).2.journal := by
  unfold look
  split
  · exact (World.resolves_run (w := c.world) (c.options.maxSymbolDepth.toNat + 1)
      ⟨c.fileId, some index⟩ m).lookedUp
  · exact .refl _

theorem record_enter (index : Nat) (n : Node) (r : Recorder) :
    ((c.record (.enter index n)).run r).2 =
      match ((c.look index n).run r.memory).1.bind c.kept? with
      | none =>
        { r.withMemory ((c.look index n).run r.memory).2 with opened := false :: r.opened }
      | some s =>
        { ((c.openComponent index n s).run (r.withMemory ((c.look index n).run r.memory).2)).2 with
          opened := true :: r.opened } := by
  cases hdecl : n.isDeclaration with
  | false =>
    cases hkey : n.isKey with
    | false =>
      simp only [record, look, openDeclaration, hdecl, hkey]
      rfl
    | true =>
      simp only [record, look, openDeclaration, hdecl, hkey]
      rfl
  | true =>
    have hkey : n.isKey = false := by
      cases hkey : n.isKey with
      | false => rfl
      | true => simp [Node.isDeclaration_of_isKey hkey] at hdecl
    cases hrun : (c.world.resolve c.options.maxSymbolDepth.toNat ⟨c.fileId, some index⟩).run
      r.memory with
    | mk s m =>
      have hlook : (c.look index n).run r.memory = (some s, m) := by
        simp only [look, hdecl, Bool.or_true, if_true]
        rw [run_bind, hrun]
        rfl
      have hresolve : (c.resolve index).run r = (s, r.withMemory m) := by
        rw [resolve_run, hrun]
      simp only [hlook, record, openDeclaration, hdecl, hkey, if_true, Bool.false_eq_true, if_false]
      rw [run_bind, run_bind, hresolve]
      cases s with
      | fileLocal k => cases hlocals : c.options.includeLocals <;> simp [kept?, hlocals] <;> rfl
      | empty => rfl
      | global text => rfl

theorem openComponent_session (index : Nat) (n : Node) (s : Symbol) (r : Recorder) :
    ∃ session, ((c.openComponent index n s).run r).2 =
        { r with
          session
          components := r.components.enter (r.session.lastId + 3)
          outline := r.outline.enter (r.session.lastId + 3) } ∧
      session.symbols = r.session.symbols ∧ session.packages = r.session.packages ∧
      session.lastId = r.session.lastId + 3 ∧
      session.definitions = r.session.definitions.insert (r.session.lastId + 3)
        (c.location ⟨index, n, ⟨r.session.lastId + 3, s⟩⟩) ∧
      session.references = r.session.references.insert (r.session.lastId + 3)
        (c.found ⟨index, n, ⟨r.session.lastId + 3, s⟩⟩) ∧
      session.journal.entries = r.session.journal.entries ++
        c.openingEntries ⟨index, n, ⟨r.session.lastId + 3, s⟩⟩ ∧
      session.journal.queries = r.session.journal.queries ++
        [.references c.file.name (c.file.referenceOffset n)] := by
  let range := c.file.nodeRange (some index)
  let written := ((r.session.journal.push (.write ⟨r.session.lastId + 1, .vertex, .resultSet⟩)).push
    (.write ⟨r.session.lastId + 2, .vertex, .moniker⟩)).push
    (.write ⟨r.session.lastId + 3, .vertex, .range range s.render (.ofKind n.kind) range⟩)
  refine ⟨_, rfl, rfl, rfl, rfl, rfl, ?_, ?_, ?_⟩
  · rw [found, ← Journal.consult_fst]
    rfl
  · have hentries := Journal.consult_entries written
      (.references c.file.name (c.file.referenceOffset n))
      (c.world.collaborators.references c.file.name (c.file.referenceOffset n)) []
    refine hentries.trans ?_
    simp only [written, Journal.entries_push]
    simp [Effect.entry?, openingEntries, range]
  · have hqueries := Journal.consult_queries written
      (.references c.file.name (c.file.referenceOffset n))
      (c.world.collaborators.references c.file.name (c.file.referenceOffset n)) []
    refine hqueries.trans ?_
    simp only [written, Journal.queries_push_write]

theorem closeComponent_session {r : Recorder} {d : Component} {ds : ComponentStack}
    (h : r.components = d :: ds) :
    ∃ session, (c.closeComponent.run r).2 =
        { r with session, components := ds, closed := d :: r.closed } ∧
      session.symbols = r.session.symbols ∧ session.packages = r.session.packages ∧
      session.lastId = r.session.lastId + c.closing ∧
      session.definitions = r.session.definitions ∧
      session.references = r.session.references ∧
      session.journal.entries = r.session.journal.entries ++
        c.closingEntries (r.session.lastId + 1) d ∧
      session.journal.queries = r.session.journal.queries := by
  rw [closeComponent_cons h]
  cases hemit : c.options.emitComplexity with
  | false =>
    refine ⟨r.session, rfl, rfl, rfl, ?_, rfl, rfl, ?_, rfl⟩
    · simp [closing, hemit]
    · simp [closingEntries, hemit]
  | true =>
    refine ⟨_, rfl, rfl, rfl, ?_, rfl, rfl, ?_, ?_⟩
    · simp only [closing, hemit, if_true]
      rfl
    · refine (Journal.entries_push _ _).trans ?_
      simp [Effect.entry?, closingEntries, hemit]
    · exact Journal.queries_push_write _ _

theorem alike_of_same {m : Memory} {r r' : Recorder}
    (h : Memory.Alike Journal.Retraces m r.memory) (hresolver : r'.resolver = r.resolver)
    (hsymbols : r'.session.symbols = r.session.symbols)
    (hpackages : r'.session.packages = r.session.packages)
    (hqueries : r'.session.journal.typeQueries = r.session.journal.typeQueries) :
    Memory.Alike Journal.Retraces m r'.memory := by
  obtain ⟨j, hmemory, hj⟩ := h
  have hjournal : r.session.journal = j := congrArg Memory.journal hmemory
  have htable : r.session.symbols = m.table := congrArg Memory.table hmemory
  have hresolver' : r.resolver = m.resolver := congrArg Memory.resolver hmemory
  have hpackages' : r.session.packages = m.packages := congrArg Memory.packages hmemory
  refine ⟨r'.session.journal, ?_, ?_⟩
  · simp only [Recorder.memory, hresolver, hsymbols, hpackages, htable, hresolver', hpackages']
  · rw [Journal.Retraces, hqueries, hjournal]
    exact hj

theorem record_begins {index : Nat} {n : Node} {s : Symbol} {r : Recorder} {m : Memory}
    (hlook : ((c.look index n).run r.memory).1.bind c.kept? = some s)
    (hm : Memory.Alike Journal.Retraces m ((c.look index n).run r.memory).2) :
    Begins c r ⟨index, n, ⟨r.session.lastId + 3, s⟩⟩ ((c.record (.enter index n)).run r).2 ∧
      Memory.Alike Journal.Retraces m ((c.record (.enter index n)).run r).2.memory := by
  have hlooked := look_lookedUp (c := c) index n r.memory
  rw [record_enter, hlook]
  generalize ((c.look index n).run r.memory).2 = m' at hm hlooked ⊢
  obtain ⟨session, hopen, hsymbols, hpackages, hlast, hdefs, hrefs, hentries, hqueries⟩ :=
    openComponent_session (c := c) index n s (r.withMemory m')
  simp only [hopen]
  refine ⟨⟨rfl, rfl, rfl, rfl, rfl, hlast, hdefs, hrefs, ?_, ?_⟩, ?_⟩
  · have hsame : m'.journal.entries = r.session.journal.entries := hlooked.entries
    rw [← hsame]
    exact hentries
  · have hsame : m'.journal.referenceQueries = r.session.journal.referenceQueries :=
      hlooked.referenceQueries
    simp only [Journal.referenceQueries, hqueries, List.filterMap_append] at hsame ⊢
    rw [← hsame]
    rfl
  · refine alike_of_same (r := r.withMemory m') hm rfl hsymbols hpackages ?_
    simp only [Journal.typeQueries, hqueries, List.filter_append]
    exact List.append_nil _

theorem record_ends {r : Recorder} {opened : List Bool} {d : Component} {ds : ComponentStack}
    {m : Memory} (hopened : r.opened = true :: opened) (hcomponents : r.components = d :: ds)
    (hm : Memory.Alike Journal.Retraces m r.memory) :
    Ends c r d ((c.record .leave).run r).2 ∧
      Memory.Alike Journal.Retraces m ((c.record .leave).run r).2.memory := by
  obtain ⟨session, hclose, hsymbols, hpackages, hlast, hdefs, hrefs, hentries, hqueries⟩ :=
    closeComponent_session (c := c) hcomponents
  have hleave : ((c.record .leave).run r).2 =
      { r with
        session
        components := ds
        outline := r.outline.exit
        closed := d :: r.closed
        opened } := by
    have hrun : ((c.record .leave).run r).2 =
        { (c.closeComponent.run r).2 with
          outline := (c.closeComponent.run r).2.outline.exit, opened } := by
      obtain ⟨session, resolver, components, outline, closed, opened'⟩ := r
      subst hopened
      rfl
    rw [hrun, hclose]
  rw [hleave]
  refine ⟨⟨hopened, hcomponents, rfl, rfl, hlast, hdefs, hrefs, hentries, ?_⟩, ?_⟩
  · simp only [Journal.referenceQueries, hqueries]
  · refine alike_of_same hm rfl hsymbols hpackages ?_
    simp only [Journal.typeQueries, hqueries]

theorem record_leave_false {r : Recorder} {opened : List Bool} (h : r.opened = false :: opened) :
    ((c.record .leave).run r).2 = { r with opened } := by
  obtain ⟨session, resolver, components, outline, closed, opened'⟩ := r
  subst h
  rfl

def after (c : FileContext) (r : Recorder) (es : List Event) : Recorder :=
  ((es.forM c.record).run r).2

theorem after_cons (r : Recorder) (e : Event) (es : List Event) :
    c.after r (e :: es) = c.after ((c.record e).run r).2 es := rfl

theorem after_append (r : Recorder) (es es' : List Event) :
    c.after r (es ++ es') = c.after (c.after r es) es' := by
  induction es generalizing r with
  | nil => rfl
  | cons e es ih => exact ih _

end FileContext

namespace Recorded

variable {c : FileContext} {r r₁ r₂ r₃ r₄ : Recorder} {inside rest : Walk Opened}

theorem refl (c : FileContext) (r : Recorder) : Recorded c r .done r where
  opened := rfl
  components := by simp [Component.collect, Walk.operands, Walk.operators]
  outline := r.outline.hang_nil.symm
  closed := rfl
  lastId := rfl
  definitions := rfl
  references := rfl
  entries := by simp [FileContext.entries]
  questions := by simp [Walk.noted, Walk.spans]

theorem operator (token : String)
    (h : Recorded c { r with components := r.components.operator token } rest r₁) :
    Recorded c r (.operator token rest) r₁ where
  opened := h.opened
  components := by
    rw [h.components]
    simp [ComponentStack.operator, Component.collect, Walk.operators, Walk.operands]
  outline := h.outline
  closed := h.closed
  lastId := h.lastId
  definitions := h.definitions
  references := h.references
  entries := h.entries
  questions := h.questions

theorem operand (token : String)
    (h : Recorded c { r with components := r.components.operand token } rest r₁) :
    Recorded c r (.operand token rest) r₁ where
  opened := h.opened
  components := by
    rw [h.components]
    simp [ComponentStack.operand, Component.collect, Walk.operators, Walk.operands]
  outline := h.outline
  closed := h.closed
  lastId := h.lastId
  definitions := h.definitions
  references := h.references
  entries := h.entries
  questions := h.questions

theorem passed (index : Nat) (n : Node) {m : Memory}
    (hlooked : r.session.journal.LookedUp m.journal)
    (hinside : Recorded c { r.withMemory m with opened := false :: r.opened } inside r₂)
    (hrest : Recorded c { r₂ with opened := r.opened } rest r₄) :
    Recorded c r (.node index n none inside rest) r₄ where
  opened := hrest.opened
  components := by
    rw [hrest.components]
    simp only [hinside.components, List.map_map]
    simp [Recorder.withMemory, Component.collect, Walk.operators, Walk.operands]
  outline := by
    rw [hrest.outline]
    simp only [hinside.outline]
    exact r.outline.hang_hang _ _
  closed := by
    rw [hrest.closed]
    simp only [hinside.closed]
    simp [Recorder.withMemory, Walk.closings]
  lastId := by
    have h₂ := hinside.lastId
    have h₄ := hrest.lastId
    simp only [Recorder.withMemory] at h₂ h₄
    rw [h₄, h₂, Walk.noted_node]
    simp [Nat.mul_add, Nat.add_assoc]
  definitions := by
    rw [hrest.definitions]
    simp only [hinside.definitions, Walk.noted_node, Option.toList_none, List.map_nil,
      List.nil_append, List.foldl_append]
    rfl
  references := by
    rw [hrest.references]
    simp only [hinside.references, Walk.noted_node, Option.toList_none, List.map_nil,
      List.nil_append, List.foldl_append]
    rfl
  entries := by
    have hsame : m.journal.entries = r.session.journal.entries := hlooked.entries
    rw [hrest.entries]
    simp only [hinside.entries, Recorder.withMemory, hsame, FileContext.entries, List.append_assoc]
  questions := by
    have hsame : m.journal.referenceQueries = r.session.journal.referenceQueries :=
      hlooked.referenceQueries
    rw [hrest.questions]
    simp only [hinside.questions, Recorder.withMemory, hsame, Walk.noted_node, Option.toList_none,
      List.map_nil, List.nil_append, List.map_append, List.append_assoc]

theorem declaration {d : Noted Opened} (hbegins : Begins c r d r₁)
    (hinside : Recorded c r₁ inside r₂) (hends : Ends c r₂ ⟨d.note.id, inside.tokens⟩ r₃)
    (hrest : Recorded c r₃ rest r₄) :
    Recorded c r (.node d.index d.node (some d.note) inside rest) r₄ := by
  have hlast₂ : r₂.session.lastId = d.note.id + (3 + c.closing) * inside.noted.length := by
    rw [hinside.lastId, hbegins.lastId]
  have hnoted : (Walk.node d.index d.node (some d.note) inside rest).noted =
      d :: (inside.noted ++ rest.noted) := Walk.noted_node ..
  have hopened₂ : true :: r₃.opened = true :: r.opened := by
    rw [← hends.opened, hinside.opened, hbegins.opened]
  have hcomponents : r₃.components = r.components.map (·.collect inside) := by
    have hboth := hends.components
    rw [hinside.components, hbegins.components] at hboth
    exact (List.cons.inj hboth).2.symm
  refine ⟨?_, ?_, ?_, ?_, ?_, ?_, ?_, ?_, ?_⟩
  · rw [hrest.opened]
    exact (List.cons.inj hopened₂).2
  · rw [hrest.components, hcomponents]
    simp [Component.collect, Walk.operators, Walk.operands]
  · rw [hrest.outline, hends.outline, hinside.outline, hbegins.outline,
      Outline.Builder.exit_hang_enter, Outline.Builder.hang_hang]
    rfl
  · rw [hrest.closed, hends.closed, hinside.closed, hbegins.closed]
    simp [Walk.closings]
  · rw [hrest.lastId, hnoted, hends.lastId, hlast₂, hbegins.id]
    simp only [List.length_cons, List.length_append, Nat.mul_add, Nat.mul_one]
    omega
  · rw [hrest.definitions, hnoted, hends.definitions, hinside.definitions, hbegins.definitions,
      List.foldl_cons, List.foldl_append]
  · rw [hrest.references, hnoted, hends.references, hinside.references, hbegins.references,
      List.foldl_cons, List.foldl_append]
  · rw [hrest.entries, hends.entries, hinside.entries, hbegins.entries, hlast₂]
    simp only [FileContext.entries, List.append_assoc]
  · rw [hrest.questions, hnoted, hends.questions, hinside.questions, hbegins.questions]
    simp only [List.map_cons, List.map_append, List.append_assoc, List.cons_append, List.nil_append]

end Recorded

namespace FileContext

variable {c : FileContext}

/-- Recording a walk: the survey tells what is opened, and the rest is counting. -/
theorem after_walk (w : Walk Empty) {m : Memory} {r : Recorder}
    (hm : Memory.Alike Journal.Retraces m r.memory) :
    Recorded c r ((((c.survey w).run m).1.mapNotes c.kept?).number c.closing r.session.lastId)
        (c.after r w.events) ∧
      Memory.Alike Journal.Retraces ((c.survey w).run m).2 (c.after r w.events).memory := by
  induction w generalizing m r with
  | done => exact ⟨.refl c r, hm⟩
  | operator token rest ih =>
    obtain ⟨hrest, hm'⟩ := ih (r := { r with components := r.components.operator token }) hm
    exact ⟨.operator token hrest, hm'⟩
  | operand token rest ih =>
    obtain ⟨hrest, hm'⟩ := ih (r := { r with components := r.components.operand token }) hm
    exact ⟨.operand token hrest, hm'⟩
  | node index n note inside rest ih ih' =>
    obtain ⟨hsymbol, hm₁⟩ :=
      look_inStep c.world.collaborators.corresponds_self index n m r.memory hm
    have hsurvey : ((c.survey (.node index n note inside rest)).run m).1.mapNotes c.kept? =
        .node index n (((c.look index n).run m).1.bind c.kept?)
          (((c.survey inside).run ((c.look index n).run m).2).1.mapNotes c.kept?)
          (((c.survey rest).run ((c.survey inside).run ((c.look index n).run m).2).2).1.mapNotes
            c.kept?) := rfl
    have hmemory : ((c.survey (.node index n note inside rest)).run m).2 =
        ((c.survey rest).run ((c.survey inside).run ((c.look index n).run m).2).2).2 := rfl
    rw [hsurvey, hmemory, hsymbol, Walk.events, after_cons, after_append, after_cons]
    -- from here on the survey and the recorder only have to agree on what is remembered
    generalize ((c.look index n).run m).2 = m₁ at hm₁ ⊢
    cases hkept : ((c.look index n).run r.memory).1.bind c.kept? with
    | none =>
      have henter := record_enter (c := c) index n r
      rw [hkept] at henter
      obtain ⟨hinside, hm₂⟩ := ih (m := m₁)
        (r := { r.withMemory ((c.look index n).run r.memory).2 with opened := false :: r.opened })
        hm₁
      rw [henter, record_leave_false hinside.opened, Walk.number]
      obtain ⟨hrest, hm₄⟩ := ih' (r := { c.after { r.withMemory ((c.look index n).run r.memory).2
        with opened := false :: r.opened } inside.events with opened := r.opened }) hm₂
      have hlast := hinside.lastId
      rw [Walk.noted_number_length] at hlast
      rw [hlast] at hrest
      exact ⟨hinside.passed index n (look_lookedUp index n r.memory) hrest, hm₄⟩
    | some s =>
      obtain ⟨hbegins, hm₁'⟩ := record_begins hkept hm₁
      obtain ⟨hinside, hm₂⟩ := ih hm₁'
      rw [hbegins.lastId] at hinside
      have hcomponents := hinside.components
      rw [hbegins.components, ComponentStack.enter, List.map_cons, Component.collect_entered]
        at hcomponents
      obtain ⟨hends, hm₃⟩ := record_ends (c := c) (hinside.opened.trans hbegins.opened)
        hcomponents hm₂
      obtain ⟨hrest, hm₄⟩ := ih' hm₃
      rw [hends.lastId, hinside.lastId, hbegins.lastId, Walk.noted_number_length] at hrest
      exact ⟨.declaration hbegins hinside hends hrest, hm₄⟩

end FileContext

end SourceIndex
