import SourceIndex.Proofs.Closure
import SourceIndex.Proofs.Journals

/-! The scopes that a run opens: the document of each file and the declarations in it. They are read
off the run event by event. The tables of definitions and references hold these scopes and nothing
else, in the order in which they were opened, which is that of their ids. -/

namespace SourceIndex

/-- A record that belongs to a link. -/
def Entry.isLink (e : Entry) : Bool :=
  match e.element with
  | .referenceResult | .references _ | .item _ _ _ => true
  | _ => false

/-- A scope of a run, with the scopes that were open around it, innermost first, and with what was
answered when references to it were asked for. -/
structure Scope where
  context : FileContext
  id : Nat
  site : NodeRef
  isDeclaration : Bool
  around : List Nat
  answers : List Reference

namespace Scope

def place (o : Scope) : Location := ⟨o.context.file.name, o.context.file.nodeRange o.site⟩

def references (o : Scope) : List Location := o.answers.map o.context.locate

end Scope

namespace FileContext

def documentScope (c : FileContext) (document : Nat) : Scope :=
  ⟨c, document, c.file.root, false, [], []⟩

def declarationScope (c : FileContext) (index : Nat) (n : Node) (id : Nat) (around : List Nat) :
    Scope :=
  let offset := c.file.referenceOffset n
  ⟨c, id, some index, true, around,
    (c.world.collaborators.references c.file.name offset).toOption.getD []⟩

/-- The declaration that is opened at an event, if one is. The last record written then is its
range. -/
def opening? (c : FileContext) (r : Recorder) (e : Event) : Option Scope :=
  let r' := ((c.record e).run r).2
  match e, r'.opened with
  | .enter index n, true :: _ =>
    some (c.declarationScope index n r'.session.lastId (r.components.map (·.id)))
  | _, _ => none

def openings (c : FileContext) : Recorder → List Event → List Scope
  | _, [] => []
  | r, e :: es => (c.opening? r e).toList ++ c.openings ((c.record e).run r).2 es

/-- The recorder with which the tour of a file begins. -/
def start (c : FileContext) (document : Nat) (s : Session) : Recorder where
  session := { s with
    definitions := s.definitions.insert document ⟨c.file.name, c.file.nodeRange c.file.root⟩ }
  components := ComponentStack.enter [] document

/-- The scopes of one file; one without a proper root has none. -/
def scopes (c : FileContext) (document : Nat) (s : Session) : List Scope :=
  if c.file.arena.kind? c.file.root = some .sourceFile then
    c.documentScope document :: c.openings (c.start document s) c.file.tour.events
  else []

end FileContext

theorem Table.entries_insert_of_not_mem {κ α : Type} [DecidableEq κ] {t : Table κ α} {k : κ}
    (h : k ∉ t.keys) (v : α) : (t.insert k v).entries = t.entries ++ [(k, v)] := by
  obtain ⟨es⟩ := t
  change put k v es = es ++ [(k, v)]
  induction es with
  | nil => rfl
  | cons e es ih =>
    simp only [keys, List.map_cons, List.mem_cons, not_or] at h ih
    rw [put, if_neg (Ne.symm h.1), ih h.2, List.cons_append]

namespace Session

def Plain (s : Session) : Prop := ∀ e ∈ s.journal.entries, e.isLink = false

/-- Nothing is defined or referred to from one session to the other, and no link is written. -/
structure Keeps (s s' : Session) : Prop where
  definitions : s'.definitions = s.definitions
  references : s'.references = s.references
  lastId : s.lastId ≤ s'.lastId
  plain : s.Plain → s'.Plain

variable {s s' s'' : Session} {scopes : List Scope}

theorem Keeps.refl (s : Session) : s.Keeps s := ⟨rfl, rfl, le_rfl, id⟩

theorem Keeps.trans (h : s.Keeps s') (h' : s'.Keeps s'') : s.Keeps s'' :=
  ⟨h'.definitions.trans h.definitions, h'.references.trans h.references,
    h.lastId.trans h'.lastId, fun hs => h'.plain (h.plain hs)⟩

theorem entries_emit (s : Session) (type : EntryType) (element : Element) :
    ((emit type element).run s).2.journal.entries =
      s.journal.entries ++ [⟨s.lastId + 1, type, element⟩] :=
  Journal.entries_push s.journal (.write ⟨s.lastId + 1, type, element⟩)

/-- The second session is the first one after these entries were written. -/
structure Writes (es : List Entry) (s t : Session) : Prop where
  symbols : t.symbols = s.symbols
  packages : t.packages = s.packages
  definitions : t.definitions = s.definitions
  references : t.references = s.references
  queries : t.journal.queries = s.journal.queries
  entries : t.journal.entries = s.journal.entries ++ es
  lastId : t.lastId = s.lastId + es.length

theorem Writes.refl (s : Session) : s.Writes [] s :=
  ⟨rfl, rfl, rfl, rfl, rfl, (List.append_nil _).symm, rfl⟩

theorem Writes.trans {es es' : List Entry} (h : s.Writes es s') (h' : s'.Writes es' s'') :
    s.Writes (es ++ es') s'' where
  symbols := h'.symbols.trans h.symbols
  packages := h'.packages.trans h.packages
  definitions := h'.definitions.trans h.definitions
  references := h'.references.trans h.references
  queries := h'.queries.trans h.queries
  entries := by rw [h'.entries, h.entries, List.append_assoc]
  lastId := by rw [h'.lastId, h.lastId, List.length_append, Nat.add_assoc]

theorem Writes.stream {es : List Entry} (h : s.Writes es s') (past : List Entry) :
    s'.stream past = s.stream past ++ es := by
  rw [Session.stream, h.entries, ← List.append_assoc]
  rfl

theorem writes_emit (s : Session) (type : EntryType) (element : Element) :
    s.Writes [⟨s.lastId + 1, type, element⟩] ((emit type element).run s).2 :=
  ⟨rfl, rfl, rfl, rfl, Journal.queries_push_write _ _, entries_emit s type element, rfl⟩

theorem plain_emit (hs : s.Plain) (type : EntryType) {element : Element}
    (h : ∀ id, Entry.isLink ⟨id, type, element⟩ = false) :
    ((emit type element).run s).2.Plain := by
  intro e he
  rw [entries_emit] at he
  rcases List.mem_append.mp he with he | he
  · exact hs e he
  · rw [List.mem_singleton.mp he]
    exact h _

theorem keeps_vertex (s : Session) {element : Element}
    (h : ∀ id, Entry.isLink ⟨id, .vertex, element⟩ = false) :
    s.Keeps ((vertex element).run s).2 :=
  ⟨rfl, rfl, Nat.le_succ _, fun hs => plain_emit hs .vertex h⟩

/-- The tables hold the scopes, with ids that grow in their order. -/
structure Registers (scopes : List Scope) (s : Session) : Prop where
  definitions : s.definitions.entries = scopes.map fun o => (o.id, o.place)
  references : s.references.entries =
    (scopes.filter (·.isDeclaration)).map fun o => (o.id, o.references)
  increasing : (scopes.map (·.id)).Pairwise (· < ·)
  bounded : ∀ o ∈ scopes, o.id ≤ s.lastId
  around : ∀ o ∈ scopes, ∀ id ∈ o.around, id < o.id
  plain : s.Plain

theorem Registers.keeps (h : s.Registers scopes) (hk : s.Keeps s') : s'.Registers scopes where
  definitions := by rw [hk.definitions, h.definitions]
  references := by rw [hk.references, h.references]
  increasing := h.increasing
  bounded o ho := (h.bounded o ho).trans hk.lastId
  around := h.around
  plain := hk.plain h.plain

theorem id_not_mem_keys {β : Type} {o : Scope} {os : List Scope} (h : ∀ o' ∈ os, o'.id < o.id)
    (f : Scope → β) : o.id ∉ (os.map fun o' => (o'.id, f o')).map (·.1) := by
  intro hmem
  rw [List.map_map] at hmem
  obtain ⟨o', ho', heq⟩ := List.mem_map.mp hmem
  exact absurd heq (Nat.ne_of_lt (h o' ho'))

theorem Registers.snoc {o : Scope} (h : s.Registers scopes)
    (hfresh : ∀ o' ∈ scopes, o'.id < o.id) (hid : o.id ≤ s'.lastId)
    (haround : ∀ id ∈ o.around, id < o.id) (hplain : s'.Plain)
    (hdefs : s'.definitions = s.definitions.insert o.id o.place)
    (hrefs : s'.references =
      if o.isDeclaration then s.references.insert o.id o.references else s.references) :
    s'.Registers (scopes ++ [o]) where
  definitions := by
    have hnew : o.id ∉ s.definitions.keys := by
      rw [Table.keys, h.definitions]
      exact id_not_mem_keys hfresh Scope.place
    rw [hdefs, Table.entries_insert_of_not_mem hnew, h.definitions, List.map_append]
    rfl
  references := by
    cases hdecl : o.isDeclaration with
    | false => simp [hrefs, hdecl, h.references]
    | true =>
      have hnew : o.id ∉ s.references.keys := by
        rw [Table.keys, h.references]
        exact id_not_mem_keys (fun o' ho' => hfresh o' (List.mem_of_mem_filter ho'))
          Scope.references
      rw [hrefs, hdecl, if_pos rfl, Table.entries_insert_of_not_mem hnew, h.references]
      simp [hdecl]
  increasing := by
    rw [List.map_append, List.pairwise_append]
    refine ⟨h.increasing, List.pairwise_singleton _ _, fun a ha b hb => ?_⟩
    obtain ⟨o', ho', rfl⟩ := List.mem_map.mp ha
    rw [List.map_singleton, List.mem_singleton] at hb
    rw [hb]
    exact hfresh o' ho'
  bounded o' ho' := by
    rcases List.mem_append.mp ho' with ho' | ho'
    · exact ((hfresh o' ho').le).trans hid
    · rw [List.mem_singleton.mp ho']
      exact hid
  around o' ho' := by
    rcases List.mem_append.mp ho' with ho' | ho'
    · exact h.around o' ho'
    · rw [List.mem_singleton.mp ho']
      exact haround
  plain := hplain

end Session

namespace Recorder

/-- Nothing is opened from one recorder to the other. -/
structure Passes (r r' : Recorder) : Prop where
  session : r.session.Keeps r'.session
  components : ∀ d' ∈ r'.components, ∃ d ∈ r.components, d'.id = d.id

structure Opens (r : Recorder) (o : Scope) (r' : Recorder) : Prop where
  isDeclaration : o.isDeclaration = true
  around : o.around = r.components.map (·.id)
  fresh : r.session.lastId < o.id
  lastId : r'.session.lastId = o.id
  definitions : r'.session.definitions = r.session.definitions.insert o.id o.place
  references : r'.session.references = r.session.references.insert o.id o.references
  plain : r.session.Plain → r'.session.Plain
  components : ∀ d' ∈ r'.components, d'.id = o.id ∨ ∃ d ∈ r.components, d'.id = d.id

structure Registers (scopes : List Scope) (r : Recorder) : Prop where
  session : r.session.Registers scopes
  components : ∀ d ∈ r.components, d.id ≤ r.session.lastId

variable {r r' r'' : Recorder} {scopes : List Scope} {o : Scope}

theorem Passes.refl (r : Recorder) : r.Passes r := ⟨.refl _, fun d hd => ⟨d, hd, rfl⟩⟩

theorem Passes.trans (h : r.Passes r') (h' : r'.Passes r'') : r.Passes r'' where
  session := h.session.trans h'.session
  components d'' hd'' := by
    obtain ⟨d', hd', heq'⟩ := h'.components d'' hd''
    obtain ⟨d, hd, heq⟩ := h.components d' hd'
    exact ⟨d, hd, heq'.trans heq⟩

theorem Registers.passes (h : r.Registers scopes) (hp : r.Passes r') : r'.Registers scopes where
  session := h.session.keeps hp.session
  components d' hd' := by
    obtain ⟨d, hd, heq⟩ := hp.components d' hd'
    exact heq ▸ (h.components d hd).trans hp.session.lastId

theorem Registers.opens (h : r.Registers scopes) (ho : r.Opens o r') :
    r'.Registers (scopes ++ [o]) where
  session := by
    refine h.session.snoc (fun o' ho' => (h.session.bounded o' ho').trans_lt ho.fresh)
      ho.lastId.ge (fun id hid => ?_) (ho.plain h.session.plain) ho.definitions ?_
    · rw [ho.around] at hid
      obtain ⟨d, hd, rfl⟩ := List.mem_map.mp hid
      exact (h.components d hd).trans_lt ho.fresh
    · rw [ho.isDeclaration, if_pos rfl, ho.references]
  components d' hd' := by
    rw [ho.lastId]
    rcases ho.components d' hd' with heq | ⟨d, hd, heq⟩
    · exact heq.le
    · exact heq ▸ (h.components d hd).trans ho.fresh.le

theorem Opens.after (ho : r'.Opens o r'') (hp : r.Passes r')
    (hcomponents : r'.components = r.components) : r.Opens o r'' where
  isDeclaration := ho.isDeclaration
  around := hcomponents ▸ ho.around
  fresh := hp.session.lastId.trans_lt ho.fresh
  lastId := ho.lastId
  definitions := hp.session.definitions ▸ ho.definitions
  references := hp.session.references ▸ ho.references
  plain hs := ho.plain (hp.session.plain hs)
  components := hcomponents ▸ ho.components

theorem passes_vertex (r : Recorder) {element : Element}
    (h : ∀ id, Entry.isLink ⟨id, .vertex, element⟩ = false) :
    r.Passes ((inSession (Session.vertex element)).run r).2 :=
  ⟨Session.keeps_vertex r.session h, fun d hd => ⟨d, hd, rfl⟩⟩

end Recorder

theorem Journal.consult_fst {α : Type} (j : Journal) (query : Query)
    (answer : Except OracleError α) (nothing : α) :
    (j.consult query answer nothing).1 = answer.toOption.getD nothing := by
  cases answer <;> rfl

namespace FileContext

open Recorder

variable {c : FileContext} {scopes : List Scope}

theorem resolve_passes (index : Nat) (r : Recorder) :
    r.Passes ((c.resolve index).run r).2 := by
  have he := (World.resolves_run (w := c.world) (c.options.maxSymbolDepth.toNat + 1)
    ⟨c.fileId, some index⟩
    ⟨r.session.symbols, r.resolver, r.session.packages, r.session.journal⟩).entries
  refine ⟨⟨rfl, rfl, le_rfl, fun hs e hmem => hs e ?_⟩, fun d hd => ⟨d, hd, rfl⟩⟩
  rw [← he]
  exact hmem

theorem openComponent_opens (index : Nat) (n : Node) (s : Symbol) (r : Recorder) :
    r.Opens (c.declarationScope index n (r.session.lastId + 3) (r.components.map (·.id)))
      ((c.openComponent index n s).run r).2 where
  isDeclaration := rfl
  around := rfl
  fresh := by simp [declarationScope]
  lastId := rfl
  definitions := rfl
  references := by
    simp only [Scope.references, declarationScope]
    rw [← Journal.consult_fst]
    rfl
  plain hs := by
    let range := c.file.nodeRange (some index)
    let element : Element := .range range s.render (.ofKind n.kind) range
    let s₁ := ((Session.vertex .resultSet).run r.session).2
    let s₂ := ((Session.vertex .moniker).run s₁).2
    let s₃ := ((Session.vertex element).run s₂).2
    have h₁ : s₁.Plain := Session.plain_emit hs .vertex fun _ => rfl
    have h₂ : s₂.Plain := Session.plain_emit h₁ .vertex fun _ => rfl
    have h₃ : s₃.Plain := Session.plain_emit h₂ .vertex fun _ => rfl
    intro e he
    have hentries := Journal.consult_entries s₃.journal
      (.references c.file.name (c.file.referenceOffset n))
      (c.world.collaborators.references c.file.name (c.file.referenceOffset n)) []
    exact h₃ e (hentries ▸ he)
  components d hd := by
    rcases List.mem_cons.mp hd with rfl | hd
    · exact .inl rfl
    · exact .inr ⟨d, hd, rfl⟩

theorem openDeclaration_spec (index : Nat) (n : Node) (r : Recorder) :
    (((c.openDeclaration index n).run r).1 = false ∧
      r.Passes ((c.openDeclaration index n).run r).2) ∨
    (((c.openDeclaration index n).run r).1 = true ∧
      r.Opens (c.declarationScope index n ((c.openDeclaration index n).run r).2.session.lastId
        (r.components.map (·.id))) ((c.openDeclaration index n).run r).2) := by
  by_cases hdecl : n.isDeclaration = true
  · let r₁ := ((c.resolve index).run r).2
    have hpass : r.Passes r₁ := resolve_passes index r
    have hopen : ∀ s, r.Opens (c.declarationScope index n (r.session.lastId + 3)
        (r.components.map (·.id))) ((c.openComponent index n s).run r₁).2 :=
      fun s => (openComponent_opens index n s r₁).after hpass rfl
    rw [openDeclaration, if_pos hdecl, run_bind]
    cases ((c.resolve index).run r).1 with
    | fileLocal k =>
      cases c.options.includeLocals with
      | false => exact .inl ⟨rfl, hpass⟩
      | true => exact .inr ⟨rfl, hopen _⟩
    | empty => exact .inr ⟨rfl, hopen _⟩
    | global text => exact .inr ⟨rfl, hopen _⟩
  · rw [openDeclaration, if_neg hdecl]
    exact .inl ⟨rfl, .refl r⟩

theorem closeComponent_passes (r : Recorder) : r.Passes ((c.closeComponent).run r).2 := by
  cases hc : r.components with
  | nil =>
    rw [closeComponent_nil hc]
    exact .refl r
  | cons component components =>
    have hpop : r.Passes { r with components } :=
      ⟨.refl _, fun d hd => ⟨d, hc ▸ List.mem_cons_of_mem _ hd, rfl⟩⟩
    rw [closeComponent_cons hc]
    cases c.options.emitComplexity with
    | false => exact ⟨hpop.session, hpop.components⟩
    | true =>
      have hwrite : r.Passes ((inSession (Session.vertex
          (.complexity component.id component.tokens.metrics))).run { r with components }).2 :=
        hpop.trans (passes_vertex _ fun _ => rfl)
      exact ⟨hwrite.session, hwrite.components⟩

/-- What an event does: it opens a declaration, or nothing of the sort happens. -/
theorem record_cases (e : Event) (r : Recorder) :
    (c.opening? r e = none ∧ r.Passes ((c.record e).run r).2) ∨
      ∃ o, c.opening? r e = some o ∧ r.Opens o ((c.record e).run r).2 := by
  cases e with
  | operator token =>
    refine .inl ⟨rfl, .refl _, fun d hd => ?_⟩
    obtain ⟨d', hd', rfl⟩ := List.mem_map.mp hd
    exact ⟨d', hd', rfl⟩
  | operand token =>
    refine .inl ⟨rfl, .refl _, fun d hd => ?_⟩
    obtain ⟨d', hd', rfl⟩ := List.mem_map.mp hd
    exact ⟨d', hd', rfl⟩
  | enter index n =>
    obtain ⟨r₁, hcomponents, hpass, hrun⟩ : ∃ r₁ : Recorder, r₁.components = r.components ∧
        r.Passes r₁ ∧ ((c.record (.enter index n)).run r).2 =
          { ((c.openDeclaration index n).run r₁).2 with
            opened := ((c.openDeclaration index n).run r₁).1 ::
              ((c.openDeclaration index n).run r₁).2.opened } := by
      by_cases hkey : n.isKey = true
      · refine ⟨((c.resolve index).run r).2, rfl, resolve_passes index r, ?_⟩
        simp only [record, hkey, if_true]
        rfl
      · refine ⟨r, rfl, .refl r, ?_⟩
        simp only [record, hkey]
        rfl
    rcases openDeclaration_spec (c := c) index n r₁ with ⟨hfalse, hp⟩ | ⟨htrue, ho⟩
    · left
      refine ⟨?_, ?_⟩
      · simp [opening?, hrun, hfalse]
      · rw [hrun]
        have hall := hpass.trans hp
        exact ⟨hall.session, hall.components⟩
    · right
      refine ⟨c.declarationScope index n ((c.openDeclaration index n).run r₁).2.session.lastId
        (r.components.map (·.id)), ?_, ?_⟩
      · simp only [opening?, hrun, htrue]
      · have hall := ho.after hpass hcomponents
        rw [hcomponents] at hall
        rw [hrun]
        exact ⟨hall.isDeclaration, hall.around, hall.fresh, hall.lastId, hall.definitions,
          hall.references, hall.plain, hall.components⟩
  | leave =>
    left
    refine ⟨by simp [opening?], ?_⟩
    obtain ⟨session, resolver, components, outline, closed, opened⟩ := r
    cases opened with
    | nil => exact .refl _
    | cons declared rest =>
      cases declared with
      | true =>
        have hclose := closeComponent_passes (c := c)
          ⟨session, resolver, components, outline, closed, true :: rest⟩
        exact ⟨hclose.session, hclose.components⟩
      | false => exact ⟨.refl _, fun d hd => ⟨d, hd, rfl⟩⟩

theorem record_registers (e : Event) {r : Recorder} (h : r.Registers scopes) :
    ((c.record e).run r).2.Registers (scopes ++ (c.opening? r e).toList) := by
  rcases record_cases (c := c) e r with ⟨hnone, hpass⟩ | ⟨o, hsome, hopen⟩
  · rw [hnone, Option.toList_none, List.append_nil]
    exact h.passes hpass
  · rw [hsome, Option.toList_some]
    exact h.opens hopen

/-- Over a whole tour, the scopes in the tables grow by those that are opened. -/
theorem forM_record_registers (events : List Event) {r : Recorder} (h : r.Registers scopes) :
    ((events.forM c.record).run r).2.Registers (scopes ++ c.openings r events) := by
  induction events generalizing r scopes with
  | nil =>
    rw [openings, List.append_nil]
    exact h
  | cons e es ih =>
    have hrest := ih (record_registers (c := c) e h)
    rw [List.append_assoc] at hrest
    exact hrest

theorem outlines_registers (trees : List Outline) :
    Ensures (Recorder.Registers scopes)
      (trees.forM fun tree => do let _ ← inSession (Session.vertex (.outline tree)))
      fun _ => Recorder.Registers scopes :=
  .forM fun _ _ r h => h.passes (passes_vertex r fun _ => rfl)

theorem recordAll_registers {document : Nat} {s : Session} (h : s.Registers scopes)
    (hfresh : ∀ o ∈ scopes, o.id < document) (hid : document ≤ s.lastId) :
    Recorder.Registers (scopes ++ c.documentScope document ::
      c.openings (c.start document s) c.file.tour.events)
      ((c.recordAll document).run { session := s }).2 := by
  have hstart : (c.start document s).Registers (scopes ++ [c.documentScope document]) := by
    refine ⟨h.snoc hfresh hid (by simp [documentScope]) h.plain rfl rfl, fun d hd => ?_⟩
    rw [List.mem_singleton.mp hd]
    exact hid
  have htour := forM_record_registers (c := c) c.file.tour.events hstart
  rw [List.append_assoc, List.singleton_append] at htour
  let all := scopes ++ c.documentScope document ::
    c.openings (c.start document s) c.file.tour.events
  have hall : Ensures (· = { session := s }) (c.recordAll document)
      fun _ => Recorder.Registers all := by
    unfold recordAll
    refine Ensures.bind (Q := fun _ r => r = { session := (c.start document s).session })
      (fun r hr => ?_) fun _ => ?_
    · subst hr
      rfl
    refine Ensures.bind (Q := fun _ r => r = c.start document s) (fun r hr => ?_) fun _ => ?_
    · subst hr
      rfl
    refine Ensures.bind (Q := fun _ => Recorder.Registers all) (fun r hr => ?_) fun _ => ?_
    · subst hr
      exact htour
    -- what follows the tour opens nothing
    split
    · exact .pure fun _ hr => hr
    refine Ensures.bind (Q := fun _ => Recorder.Registers all)
      (fun r hr => hr.passes (closeComponent_passes r)) fun _ r hr => ?_
    have houtlines := outlines_registers r.outline.finish r hr
    simp only [run_bind, StateT.run_get]
    cases c.options.emitOutline with
    | false => exact hr
    | true => exact houtlines
  exact hall _ rfl

theorem opening?_spec {e : Event} {r : Recorder} {o : Scope} (h : c.opening? r e = some o) :
    ∃ index n id around, o = c.declarationScope index n id around := by
  simp only [opening?] at h
  split at h
  · exact ⟨_, _, _, _, (Option.some.inj h).symm⟩
  · simp at h

theorem mem_openings {events : List Event} {r : Recorder} {o : Scope}
    (h : o ∈ c.openings r events) :
    ∃ index n id around, o = c.declarationScope index n id around := by
  induction events generalizing r with
  | nil => simp [openings] at h
  | cons e es ih =>
    rcases List.mem_append.mp h with h | h
    · exact opening?_spec (Option.mem_toList.mp h)
    · exact ih h

theorem scope_spec {document : Nat} {s : Session} {o : Scope} (h : o ∈ c.scopes document s) :
    o.context = c ∧ ∀ r ∈ o.answers, ∃ name offset rs,
      c.world.collaborators.references name offset = .ok rs ∧ r ∈ rs := by
  unfold FileContext.scopes at h
  split at h
  · rcases List.mem_cons.mp h with rfl | h
    · exact ⟨rfl, by simp [documentScope]⟩
    · obtain ⟨index, n, id, around, rfl⟩ := mem_openings h
      refine ⟨rfl, fun r hr => ?_⟩
      have hr' : r ∈ (c.world.collaborators.references c.file.name
        (c.file.referenceOffset n)).toOption.getD [] := hr
      cases hanswer : c.world.collaborators.references c.file.name (c.file.referenceOffset n) with
      | ok rs =>
        rw [hanswer] at hr'
        exact ⟨_, _, rs, hanswer, hr'⟩
      | error e =>
        rw [hanswer] at hr'
        exact absurd hr' List.not_mem_nil
  · exact absurd h List.not_mem_nil

theorem index_registers {document : Nat} {s : Session} (h : s.Registers scopes)
    (hfresh : ∀ o ∈ scopes, o.id < document) (hid : document ≤ s.lastId) :
    ((c.index document).run s).2.Registers (scopes ++ c.scopes document s) := by
  unfold index FileContext.scopes
  split
  · exact (recordAll_registers h hfresh hid).session
  · rw [List.append_nil]
    exact h

end FileContext

namespace Project

def documentElement (p : Project) (file : SourceFile) : Element :=
  .document (p.documentOf file).1 (p.documentOf file).2

/-- The scopes of files that are indexed one after the other. -/
def scopesFrom (p : Project) : Session → List (SourceFile × Nat) → List Scope
  | _, [] => []
  | s, (file, fileId) :: rest =>
    (p.context fileId file).scopes (s.lastId + 1)
      ((Session.vertex (p.documentElement file)).run s).2 ++
    p.scopesFrom ((stage (.file file.name) (p.indexFile fileId file)).run s).2 rest

def indexFiles (p : Project) (files : List (SourceFile × Nat)) :
    StateM Session (List (Bool × Stage)) :=
  files.mapM fun (file, fileId) => stage (.file file.name) (p.indexFile fileId file)

theorem indexFiles_cons (p : Project) (f : SourceFile × Nat) (files : List (SourceFile × Nat))
    (s : Session) :
    (p.indexFiles (f :: files)).run s =
      let first := (p.indexFile f.2 f.1).run s
      let rest := (p.indexFiles files).run ((Session.takeJournal).run first.2).2
      ((first.1, ⟨.file f.1.name, first.2.journal⟩) :: rest.1, rest.2) := by
  rw [indexFiles, List.mapM_cons]
  rfl

/-- The session in which the first file begins: the metadata and the project have taken an id. -/
def begun : Session := { lastId := 2 }

/-- The session after the last file, in which the links are made. -/
def recorded (p : Project) : Session := ((p.indexFiles p.program.files.toList.zipIdx).run begun).2

/-- All scopes of the run, in the order in which they are opened. -/
def scopes (p : Project) : List Scope := p.scopesFrom begun p.program.files.toList.zipIdx

variable {p : Project} {scopes : List Scope}

theorem indexFile_registers (fileId : Nat) (file : SourceFile) {s : Session}
    (h : s.Registers scopes) :
    ((p.indexFile fileId file).run s).2.Registers (scopes ++
      (p.context fileId file).scopes (s.lastId + 1)
        ((Session.vertex (p.documentElement file)).run s).2) := by
  let s₁ := ((Session.vertex (p.documentElement file)).run s).2
  have h₁ : s₁.Registers scopes := h.keeps (Session.keeps_vertex s fun _ => rfl)
  have hfresh : ∀ o ∈ scopes, o.id < s.lastId + 1 := fun o ho => Nat.lt_succ_of_le (h.bounded o ho)
  have hindex := FileContext.index_registers (c := p.context fileId file) h₁ hfresh le_rfl
  rw [indexFile_run]
  exact hindex

theorem stage_registers {α : Type} (purpose : Purpose) {x : StateM Session α} {s : Session}
    (h : (x.run s).2.Registers scopes) : ((stage purpose x).run s).2.Registers scopes := by
  have hjournal : ((stage purpose x).run s).2.journal = #[] := rfl
  refine h.keeps ⟨rfl, rfl, le_rfl, fun _ e he => ?_⟩
  rw [hjournal] at he
  simp [Journal.entries] at he

theorem indexFiles_registers (files : List (SourceFile × Nat)) {s : Session}
    (h : s.Registers scopes) :
    ((p.indexFiles files).run s).2.Registers (scopes ++ p.scopesFrom s files) := by
  induction files generalizing s scopes with
  | nil =>
    rw [indexFiles, List.mapM_nil, scopesFrom, List.append_nil]
    exact h
  | cons f files ih =>
    obtain ⟨file, fileId⟩ := f
    have hfirst := stage_registers (.file file.name) (indexFile_registers (p := p) fileId file h)
    have hrest := ih hfirst
    rw [List.append_assoc] at hrest
    rw [indexFiles, List.mapM_cons]
    exact hrest

theorem begun_registers : begun.Registers [] :=
  ⟨rfl, rfl, .nil, by simp, by simp, fun e he => by simp [begun, Journal.entries] at he⟩

theorem recorded_registers (p : Project) : p.recorded.Registers p.scopes := by
  have h := indexFiles_registers (p := p) p.program.files.toList.zipIdx begun_registers
  rw [List.nil_append] at h
  exact h

theorem exists_of_mem_scopesFrom {o : Scope} {files : List (SourceFile × Nat)} {s : Session}
    (h : o ∈ p.scopesFrom s files) :
    ∃ f ∈ files, ∃ document s, o ∈ (p.context f.2 f.1).scopes document s := by
  induction files generalizing s with
  | nil => simp [scopesFrom] at h
  | cons f files ih =>
    rcases List.mem_append.mp h with h | h
    · exact ⟨f, by simp, _, _, h⟩
    · obtain ⟨f', hf', hmem⟩ := ih h
      exact ⟨f', by simp [hf'], hmem⟩

/-- A scope belongs to a file of the program, and what is known of it was answered by those who were
asked. -/
theorem scope_spec {o : Scope} (h : o ∈ p.scopes) :
    (∃ fileId file, file ∈ p.program.files.toList ∧ o.context = p.context fileId file) ∧
      ∀ r ∈ o.answers, ∃ name offset rs, p.collaborators.references name offset = .ok rs ∧
        r ∈ rs := by
  obtain ⟨⟨file, fileId⟩, hf, document, s, hmem⟩ := exists_of_mem_scopesFrom h
  have hfile : file ∈ p.program.files.toList := List.fst_mem_of_mem_zipIdx hf
  have hc := FileContext.scope_spec hmem
  refine ⟨⟨fileId, file, hfile, hc.1⟩, fun r hr => ?_⟩
  obtain ⟨name, offset, rs, hrs, hr⟩ := hc.2 r hr
  exact ⟨name, offset, rs, hrs, hr⟩

end Project

end SourceIndex
