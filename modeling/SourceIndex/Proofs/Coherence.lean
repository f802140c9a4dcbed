import SourceIndex.Proofs.LinkGraph
import SourceIndex.Proofs.Resolution
import SourceIndex.Proofs.Stream

/-! What keeps the stream of a run closed. The entries of earlier stages have left the journal, so
the invariant of a session speaks of these and the journal together. While a file is recorded, what
is open and what is in the outline was written since the file's document. -/

namespace SourceIndex

namespace Session

/-- All entries up to now, those of the past stages first. -/
def stream (past : List Entry) (s : Session) : List Entry := past ++ s.journal.entries

/-- The stream is closed, the ids given out are those in it, and the tables name entries in it. -/
structure Coherent (past : List Entry) (documents : List (String × Bool)) (s : Session) :
    Prop where
  closed : Closed (s.stream past)
  lastId : s.lastId = (s.stream past).length
  documents : (s.stream past).filterMap Entry.document? = documents
  definitions : ∀ id ∈ s.definitions.keys, Names Entry.isScope (s.stream past) id
  references : ∀ id ∈ s.references.keys, Names Entry.isRange (s.stream past) id

variable {past : List Entry} {documents : List (String × Bool)} {s : Session}

theorem stream_emit (type : EntryType) (element : Element) :
    ((emit type element).run s).2.stream past =
      s.stream past ++ [⟨s.lastId + 1, type, element⟩] := by
  change past ++ Journal.entries (s.journal.push (.write ⟨s.lastId + 1, type, element⟩)) = _
  rw [Journal.entries_push, ← List.append_assoc]
  rfl

theorem Coherent.emit (h : s.Coherent past documents) (type : EntryType) {element : Element}
    (hg : element.GroundedIn (s.stream past)) :
    ((emit type element).run s).2.Coherent past
      (documents ++ (Entry.document? ⟨s.lastId + 1, type, element⟩).toList) where
  closed := by
    rw [stream_emit]
    exact h.closed.snoc (by rw [h.lastId]) hg
  lastId := by
    rw [stream_emit, List.length_append, ← h.lastId]
    rfl
  documents := by
    rw [stream_emit, List.filterMap_append, h.documents]
    cases hd : Entry.document? ⟨s.lastId + 1, type, element⟩ <;> simp [hd]
  definitions id hid := by
    rw [stream_emit]
    exact (h.definitions id hid).mono (List.subset_append_left _ _)
  references id hid := by
    rw [stream_emit]
    exact (h.references id hid).mono (List.subset_append_left _ _)

theorem Coherent.define (h : s.Coherent past documents) {id : Nat} (l : Location)
    (hid : Names Entry.isScope (s.stream past) id) :
    ((define id l).run s).2.Coherent past documents where
  closed := h.closed
  lastId := h.lastId
  documents := h.documents
  definitions id' hid' := by
    rcases Table.mem_keys_insert.mp hid' with rfl | hid'
    · exact hid
    · exact h.definitions id' hid'
  references := h.references

theorem Coherent.refer (h : s.Coherent past documents) {id : Nat} (ls : List Location)
    (hid : Names Entry.isRange (s.stream past) id) :
    ((refer id ls).run s).2.Coherent past documents where
  closed := h.closed
  lastId := h.lastId
  documents := h.documents
  definitions := h.definitions
  references id' hid' := by
    rcases Table.mem_keys_insert.mp hid' with rfl | hid'
    · exact hid
    · exact h.references id' hid'

/-- Coherence only looks at the stream, the last id and the two tables of locations. -/
theorem Coherent.congr {s' : Session} (h : s.Coherent past documents)
    (hj : s'.journal.entries = s.journal.entries) (hid : s'.lastId = s.lastId)
    (hdefs : s'.definitions = s.definitions) (hrefs : s'.references = s.references) :
    s'.Coherent past documents := by
  have hs : s'.stream past = s.stream past := by rw [stream, stream, hj]
  exact ⟨hs ▸ h.closed, by rw [hid, hs, h.lastId], hs ▸ h.documents,
    fun id hid' => hs ▸ h.definitions id (hdefs ▸ hid'),
    fun id hid' => hs ▸ h.references id (hrefs ▸ hid')⟩

theorem Coherent.takeJournal (h : s.Coherent past documents) :
    ((takeJournal).run s).2.Coherent (s.stream past) documents := by
  have hs : ((Session.takeJournal).run s).2.stream (s.stream past) = s.stream past :=
    List.append_nil _
  exact ⟨hs.symm ▸ h.closed, hs.symm ▸ h.lastId, hs.symm ▸ h.documents,
    hs.symm ▸ h.definitions, hs.symm ▸ h.references⟩

theorem Coherent.emit_other (h : s.Coherent past documents) (type : EntryType) {element : Element}
    (hg : element.GroundedIn (s.stream past))
    (hd : ∀ id, Entry.document? ⟨id, type, element⟩ = none) :
    ((Session.emit type element).run s).2.Coherent past documents := by
  simpa [hd] using h.emit type hg

theorem subset_emit (type : EntryType) (element : Element) :
    s.stream past ⊆ ((emit type element).run s).2.stream past := by
  rw [stream_emit]
  exact List.subset_append_left _ _

theorem mem_emit (type : EntryType) (element : Element) :
    ⟨s.lastId + 1, type, element⟩ ∈ ((emit type element).run s).2.stream past := by
  simp [stream_emit]

structure Linkable (past : List Entry) (s : Session) (id : Nat) (referrers : List Nat) : Prop where
  range : Names Entry.isRange (s.stream past) id
  nodup : referrers.Nodup
  scopes : ∀ i ∈ referrers, Names Entry.isScope (s.stream past) i

theorem Linkable.mono {s' : Session} {id : Nat} {referrers : List Nat}
    (h : Linkable past s id referrers) (hsub : s.stream past ⊆ s'.stream past) :
    Linkable past s' id referrers :=
  ⟨h.range.mono hsub, h.nodup, fun i hi => (h.scopes i hi).mono hsub⟩

theorem Coherent.emitLink {id : Nat} {referrers : List Nat} (h : s.Coherent past documents)
    (hl : Linkable past s id referrers) :
    ((Session.emitLink id referrers).run s).2.Coherent past documents ∧
      s.stream past ⊆ ((Session.emitLink id referrers).run s).2.stream past := by
  let result := s.lastId + 1
  let s₁ := ((Session.emit .vertex .referenceResult).run s).2
  let s₂ := ((Session.emit .edge (.references result)).run s₁).2
  let s₃ := ((Session.emit .edge (.item result [id] .definitions)).run s₂).2
  have h₁ : s₁.Coherent past documents := h.emit_other .vertex trivial fun _ => rfl
  have hr₁ : Names Entry.isResult (s₁.stream past) result := ⟨_, mem_emit _ _, rfl, rfl⟩
  have hr₂ : Names Entry.isResult (s₂.stream past) result := hr₁.mono (subset_emit _ _)
  have hr₃ : Names Entry.isResult (s₃.stream past) result := hr₂.mono (subset_emit _ _)
  have hl₂ : Linkable past s₂ id referrers :=
    (hl.mono (subset_emit _ _)).mono (subset_emit _ _)
  have hl₃ : Linkable past s₃ id referrers := hl₂.mono (subset_emit _ _)
  have h₂ : s₂.Coherent past documents := h₁.emit_other .edge hr₁ fun _ => rfl
  have h₃ : s₃.Coherent past documents :=
    h₂.emit_other .edge ⟨hr₂, id, rfl, hl₂.range⟩ fun _ => rfl
  refine ⟨h₃.emit_other .edge ⟨hr₃, hl₃.nodup, hl₃.scopes⟩ fun _ => rfl, ?_⟩
  calc s.stream past ⊆ s₁.stream past := subset_emit _ _
    _ ⊆ s₂.stream past := subset_emit _ _
    _ ⊆ s₃.stream past := subset_emit _ _
    _ ⊆ _ := subset_emit _ _

theorem Coherent.linkable (h : s.Coherent past documents) {id : Nat} {referrers : List Nat}
    (hmem : (id, referrers) ∈ (link s.definitions s.references).entries) :
    Linkable past s id referrers := by
  obtain ⟨raw, hraw, -, hr⟩ := mem_link_iff.mp hmem
  refine ⟨h.references id (List.mem_map_of_mem hraw), hr.nodup, fun i hi => ?_⟩
  obtain ⟨-, r, -, hw⟩ := (hr.mem_iff i).mp hi
  exact h.definitions i (winner?_mem_keys hw)

theorem emitLinks_coherent :
    Ensures (Coherent past documents) emitLinks fun _ => Coherent past documents := by
  intro s h
  let graph := link s.definitions s.references
  let Inv (t : Session) : Prop := t.Coherent past documents ∧ s.stream past ⊆ t.stream past
  have hloop : Ensures Inv (graph.entries.forM fun e => emitLink e.1 e.2) fun _ => Inv := by
    refine .forM fun e he t ht => ?_
    have hstep := ht.1.emitLink ((h.linkable he).mono ht.2)
    exact ⟨hstep.1, List.Subset.trans ht.2 hstep.2⟩
  exact (hloop s ⟨h, List.Subset.refl _⟩).1

end Session

namespace Outline.Builder

def ids (b : Builder) : List Nat :=
  b.stack.flatMap (fun t => t.1 :: forestIds t.2) ++ forestIds b.roots

theorem mem_ids {b : Builder} {id : Nat} :
    id ∈ b.ids ↔
      (∃ t ∈ b.stack, id = t.1 ∨ ∃ o ∈ t.2, id ∈ o.ids) ∨ ∃ o ∈ b.roots, id ∈ o.ids := by
  simp [ids, mem_forestIds]

theorem ids_enter (b : Builder) (id : Nat) : (b.enter id).ids = id :: b.ids := by
  simp [ids, enter, forestIds]

theorem mem_ids_node {id id' : Nat} {below : List Outline} :
    id ∈ (Outline.node id' below.reverse).ids ↔ id = id' ∨ ∃ o ∈ below, id ∈ o.ids := by
  simp [Outline.ids, mem_forestIds]

theorem ids_exit_subset (b : Builder) : b.exit.ids ⊆ b.ids := by
  intro id hid
  obtain ⟨stack, roots⟩ := b
  match stack with
  | [] => exact hid
  | (id', below) :: (parent, siblings) :: outer =>
    simp only [exit, mem_ids, List.mem_cons, exists_eq_or_imp, mem_ids_node] at hid ⊢
    rcases hid with ((h | h | h) | h) | h
    · exact .inl (.inr (.inl (.inl h)))
    · exact .inl (.inl h)
    · exact .inl (.inr (.inl (.inr h)))
    · exact .inl (.inr (.inr h))
    · exact .inr h
  | [(id', [])] =>
    rcases mem_ids.mp hid with ⟨t, ht, -⟩ | h
    · simp [exit] at ht
    · exact mem_ids.mpr (.inr h)
  | [(id', o :: below)] =>
    simp only [exit, mem_ids, List.mem_cons, exists_eq_or_imp, mem_ids_node] at hid ⊢
    rcases hid with h | h | h
    · simp at h
    · exact .inl (.inl h)
    · exact .inr h

theorem mem_ids_of_finish {b : Builder} {o : Outline} {id : Nat} (ho : o ∈ b.finish)
    (hid : id ∈ o.ids) : id ∈ b.ids :=
  mem_ids.mpr (.inr ⟨o, List.mem_reverse.mp ho, hid⟩)

end Outline.Builder

namespace Recorder

def block (past before : List Entry) (r : Recorder) : List Entry :=
  (r.session.stream past).drop before.length

/-- Nothing written since `before` is a document, the outline holds declarations written since, and
the open components are scopes. -/
structure Coherent (past before : List Entry) (documents : List (String × Bool)) (r : Recorder) :
    Prop where
  session : r.session.Coherent past documents
  starts : before <+: r.session.stream past
  noDocument : ∀ e ∈ r.block past before, e.document? = none
  outline : ∀ id ∈ r.outline.ids, Names Entry.isRange (r.block past before) id
  components : ∀ c ∈ r.components, Names Entry.isScope (r.session.stream past) c.id

variable {past before : List Entry} {documents : List (String × Bool)} {r : Recorder}

theorem block_vertex (h : before <+: r.session.stream past) (element : Element) :
    ((inSession (Session.vertex element)).run r).2.block past before =
      r.block past before ++ [⟨r.session.lastId + 1, .vertex, element⟩] := by
  change (((Session.emit .vertex element).run r.session).2.stream past).drop before.length = _
  rw [Session.stream_emit, List.drop_append_of_le_length h.length_le]
  rfl

theorem Coherent.vertex {element : Element} (h : r.Coherent past before documents)
    (hg : element.GroundedIn (r.session.stream past))
    (hd : ∀ id, Entry.document? ⟨id, .vertex, element⟩ = none) :
    ((inSession (Session.vertex element)).run r).2.Coherent past before documents where
  session := h.session.emit_other .vertex hg hd
  starts := h.starts.trans (by
    change r.session.stream past <+: ((Session.emit .vertex element).run r.session).2.stream past
    rw [Session.stream_emit]
    exact List.prefix_append _ _)
  noDocument e he := by
    rw [block_vertex h.starts] at he
    rcases List.mem_append.mp he with he | he
    · exact h.noDocument e he
    · rw [List.mem_singleton.mp he]
      exact hd _
  outline id hid := by
    rw [block_vertex h.starts]
    exact (h.outline id hid).mono (List.subset_append_left _ _)
  components c hc := (h.components c hc).mono (Session.subset_emit _ _)

/-- Coherence does not look at the resolver, the closed components and the marks of what was opened,
nor at the tokens of the open components. -/
theorem Coherent.congr {r' : Recorder} (h : r.Coherent past before documents)
    (hj : r'.session.journal.entries = r.session.journal.entries)
    (hid : r'.session.lastId = r.session.lastId)
    (hdefs : r'.session.definitions = r.session.definitions)
    (hrefs : r'.session.references = r.session.references)
    (houtline : r'.outline.ids ⊆ r.outline.ids)
    (hcomponents : ∀ c' ∈ r'.components, ∃ c ∈ r.components, c'.id = c.id) :
    r'.Coherent past before documents := by
  have hs : r'.session.stream past = r.session.stream past := by
    rw [Session.stream, Session.stream, hj]
  have hb : r'.block past before = r.block past before := by rw [Recorder.block, Recorder.block, hs]
  refine ⟨h.session.congr hj hid hdefs hrefs, hs ▸ h.starts, hb ▸ h.noDocument, ?_, ?_⟩
  · intro id hid
    rw [hb]
    exact h.outline id (houtline hid)
  · intro c' hc'
    obtain ⟨c, hc, he⟩ := hcomponents c' hc'
    rw [hs, he]
    exact h.components c hc

structure Declares (past before : List Entry) (documents : List (String × Bool)) (id : Nat)
    (r : Recorder) : Prop extends r.Coherent past before documents where
  range : Names Entry.isRange (r.block past before) id

theorem block_subset : r.block past before ⊆ r.session.stream past := List.drop_subset _ _

theorem Declares.define {id : Nat} (h : r.Declares past before documents id) (l : Location) :
    ((inSession (Session.define id l)).run r).2.Declares past before documents id where
  session := h.session.define l ((h.range.mono block_subset).scope)
  starts := h.starts
  noDocument := h.noDocument
  outline := h.outline
  components := h.components
  range := h.range

theorem Declares.refer {id : Nat} (h : r.Declares past before documents id) (ls : List Location) :
    ((inSession (Session.refer id ls)).run r).2.Declares past before documents id where
  session := h.session.refer ls (h.range.mono block_subset)
  starts := h.starts
  noDocument := h.noDocument
  outline := h.outline
  components := h.components
  range := h.range

theorem Declares.consult {α : Type} {id : Nat} (h : r.Declares past before documents id)
    (query : Query) (answer : Except OracleError α) (nothing : α) :
    ((inSession (Session.consult query answer nothing)).run r).2.Declares past before documents
      id := by
  have hj := Journal.consult_entries r.session.journal query answer nothing
  have hb : ((inSession (Session.consult query answer nothing)).run r).2.block past before =
      r.block past before := congrArg (fun es => (past ++ es).drop before.length) hj
  exact ⟨h.toCoherent.congr hj rfl rfl rfl (List.Subset.refl _) fun c hc => ⟨c, hc, rfl⟩,
    hb.symm ▸ h.range⟩

theorem Declares.enter {id : Nat} (h : r.Declares past before documents id) :
    Recorder.Coherent past before documents
      { r with components := r.components.enter id, outline := r.outline.enter id } where
  session := h.session
  starts := h.starts
  noDocument := h.noDocument
  outline id' hid' := by
    rw [Outline.Builder.ids_enter] at hid'
    rcases List.mem_cons.mp hid' with rfl | hid'
    · exact h.range
    · exact h.outline id' hid'
  components c hc := by
    rcases List.mem_cons.mp hc with rfl | hc
    · exact (h.range.mono block_subset).scope
    · exact h.components c hc

end Recorder

namespace FileContext

open Recorder

variable {past before : List Entry} {documents : List (String × Bool)} {c : FileContext}

theorem resolve_coherent (index : Nat) :
    Ensures (Recorder.Coherent past before documents) (c.resolve index)
      fun _ => Recorder.Coherent past before documents := by
  intro r h
  have he := (World.resolves_run (w := c.world) (c.options.maxSymbolDepth.toNat + 1)
    ⟨c.fileId, some index⟩
    ⟨r.session.symbols, r.resolver, r.session.packages, r.session.journal⟩).entries
  exact h.congr he rfl rfl rfl (List.Subset.refl _) fun c hc => ⟨c, hc, rfl⟩

theorem openComponent_coherent (index : Nat) (n : Node) (s : Symbol) :
    Ensures (Recorder.Coherent past before documents) (c.openComponent index n s)
      fun _ => Recorder.Coherent past before documents := by
  intro r h
  let range := c.file.nodeRange (some index)
  let element : Element := .range range s.render (.ofKind n.kind) range
  let r₁ := ((inSession (Session.vertex .resultSet)).run r).2
  let r₂ := ((inSession (Session.vertex .moniker)).run r₁).2
  let r₃ := ((inSession (Session.vertex element)).run r₂).2
  have h₁ : r₁.Coherent past before documents := h.vertex trivial fun _ => rfl
  have h₂ : r₂.Coherent past before documents := h₁.vertex trivial fun _ => rfl
  have h₃ : r₃.Declares past before documents (r₂.session.lastId + 1) :=
    ⟨h₂.vertex trivial fun _ => rfl,
      ⟨⟨r₂.session.lastId + 1, .vertex, element⟩, by simp [r₃, block_vertex h₂.starts], rfl, rfl⟩⟩
  exact (((h₃.define _).consult _ _ _).refer _).enter

theorem openDeclaration_coherent (index : Nat) (n : Node) :
    Ensures (Recorder.Coherent past before documents) (c.openDeclaration index n)
      fun _ => Recorder.Coherent past before documents := by
  unfold openDeclaration
  split
  · refine (resolve_coherent index).bind fun s r h => ?_
    have hopen := openComponent_coherent (c := c) index n s r h
    cases s with
    | fileLocal =>
      cases c.options.includeLocals with
      | false => exact h
      | true => exact hopen
    | empty => exact hopen
    | global => exact hopen
  · exact .pure fun _ h => h

theorem closeComponent_nil {r : Recorder} (h : r.components = []) :
    (c.closeComponent).run r = ((), r) := by
  obtain ⟨session, resolver, components, outline, closed, opened⟩ := r
  subst h
  rfl

theorem closeComponent_cons {r : Recorder} {component : Component} {components : ComponentStack}
    (h : r.components = component :: components) :
    ((c.closeComponent).run r).2 =
      let r₁ := if c.options.emitComplexity then
          ((inSession (Session.vertex (.complexity component.id component.tokens.metrics))).run
            { r with components }).2
        else { r with components }
      { r₁ with closed := component :: r₁.closed } := by
  obtain ⟨session, resolver, components', outline, closed, opened⟩ := r
  subst h
  simp only [closeComponent, run_bind]
  cases c.options.emitComplexity <;> rfl

theorem closeComponent_coherent :
    Ensures (Recorder.Coherent past before documents) c.closeComponent
      fun _ => Recorder.Coherent past before documents := by
  intro r h
  cases hc : r.components with
  | nil =>
    rw [closeComponent_nil hc]
    exact h
  | cons component components =>
    have hp : Recorder.Coherent past before documents { r with components } :=
      h.congr rfl rfl rfl rfl (List.Subset.refl _)
        fun d hd => ⟨d, hc ▸ List.mem_cons_of_mem _ hd, rfl⟩
    have hg : Element.GroundedIn (r.session.stream past)
        (.complexity component.id component.tokens.metrics) := h.components component (by simp [hc])
    rw [closeComponent_cons hc]
    cases c.options.emitComplexity with
    | false => exact hp.congr rfl rfl rfl rfl (List.Subset.refl _) fun d hd => ⟨d, hd, rfl⟩
    | true =>
      exact (hp.vertex hg fun _ => rfl).congr rfl rfl rfl rfl (List.Subset.refl _)
        fun d hd => ⟨d, hd, rfl⟩

theorem record_coherent (e : Event) :
    Ensures (Recorder.Coherent past before documents) (c.record e)
      fun _ => Recorder.Coherent past before documents := by
  cases e with
  | operator token =>
    intro r h
    refine h.congr rfl rfl rfl rfl (List.Subset.refl _) fun d hd => ?_
    obtain ⟨d', hd', rfl⟩ := List.mem_map.mp hd
    exact ⟨d', hd', rfl⟩
  | operand token =>
    intro r h
    refine h.congr rfl rfl rfl rfl (List.Subset.refl _) fun d hd => ?_
    obtain ⟨d', hd', rfl⟩ := List.mem_map.mp hd
    exact ⟨d', hd', rfl⟩
  | enter index n =>
    have hrest : Ensures (Recorder.Coherent past before documents)
        (do
          let opened ← c.openDeclaration index n
          modify fun r => { r with opened := opened :: r.opened })
        fun _ => Recorder.Coherent past before documents :=
      (openDeclaration_coherent index n).bind fun opened r h =>
        h.congr rfl rfl rfl rfl (List.Subset.refl _) fun d hd => ⟨d, hd, rfl⟩
    simp only [record]
    split
    · exact (resolve_coherent index).bind fun _ => hrest
    · exact hrest
  | leave =>
    intro r h
    obtain ⟨session, resolver, components, outline, closed, opened⟩ := r
    match opened with
    | true :: rest =>
      have hclose := closeComponent_coherent (c := c) _ h
      exact hclose.congr rfl rfl rfl rfl (Outline.Builder.ids_exit_subset _)
        fun d hd => ⟨d, hd, rfl⟩
    | false :: rest => exact h.congr rfl rfl rfl rfl (List.Subset.refl _) fun d hd => ⟨d, hd, rfl⟩
    | [] => exact h

end FileContext

end SourceIndex
