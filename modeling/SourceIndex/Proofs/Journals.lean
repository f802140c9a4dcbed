import SourceIndex.Project
import SourceIndex.Proofs.Correspondence

/-! What a run leaves in its journal. A run writes entries and puts questions, and does nothing to
the journal besides, nor does it ever look there. So two runs of one project whose collaborators
give the same answers differ at most in their journals, and what holds between two journals, or of
one, holds at the end if it outlasts every entry and every question. -/

namespace SourceIndex

open Memory Recorder

namespace Query

def Answer : Query → Type
  | references _ _ => List Reference
  | propsType _ => Option Nat
  | properties _ _ => List NodeKey
  | aliases _ => List NodeKey

def nothing : (q : Query) → q.Answer
  | references _ _ => []
  | propsType _ => none
  | properties _ _ => []
  | aliases _ => []

end Query

def Collaborators.answer (c : Collaborators) : (q : Query) → Except OracleError q.Answer
  | .references file offset => c.references file offset
  | .propsType element => c.propsType element
  | .properties type name => c.properties type name
  | .aliases node => c.aliases node

def Effect.query? : Effect → Option Query
  | ask q => some q
  | _ => none

def Journal.queries (j : Journal) : List Query := j.toList.filterMap Effect.query?

/-- A question is followed by at most one report. -/
theorem Journal.consult_toList {α : Type} (j : Journal) (query : Query)
    (answer : Except OracleError α) (nothing : α) :
    ∃ reports : List OracleError, (j.consult query answer nothing).2.toList =
      j.toList ++ .ask query :: reports.map .report := by
  cases answer with
  | ok a => exact ⟨[], by simp [Journal.consult]⟩
  | error e =>
    cases he : e.isDefect with
    | false => exact ⟨[], by simp [Journal.consult, he]⟩
    | true => exact ⟨[e], by simp [Journal.consult, he]⟩

theorem Journal.consult_queries {α : Type} (j : Journal) (query : Query)
    (answer : Except OracleError α) (nothing : α) :
    (j.consult query answer nothing).2.queries = j.queries ++ [query] := by
  obtain ⟨reports, hj⟩ := j.consult_toList query answer nothing
  have hnone : (reports.map Effect.report).filterMap Effect.query? = [] := by
    simp [List.filterMap_eq_nil_iff, Effect.query?]
  rw [queries, hj, List.filterMap_append, List.filterMap_cons, hnone]
  rfl

theorem Journal.queries_push_write (j : Journal) (e : Entry) :
    Journal.queries (j.push (.write e)) = j.queries := by
  simp [queries, Effect.query?]

/-- The same packages and the same answers as far as they count; entries and questions keep `J`
between the two journals. -/
structure Collaborators.Corresponds (c c' : Collaborators) (J : Journal → Journal → Prop) :
    Prop where
  package : c'.package = c.package
  write : ∀ {j j'}, J j j' → ∀ e, J (j.push (.write e)) (j'.push (.write e))
  consult : ∀ {j j'}, J j j' → ∀ q : Query,
    (j.consult q (c.answer q) q.nothing).1 = (j'.consult q (c'.answer q) q.nothing).1 ∧
      J (j.consult q (c.answer q) q.nothing).2 (j'.consult q (c'.answer q) q.nothing).2

def Memory.Alike (J : Journal → Journal → Prop) (m m' : Memory) : Prop :=
  ∃ j, m' = { m with journal := j } ∧ J m.journal j

def Session.Alike (J : Journal → Journal → Prop) (s s' : Session) : Prop :=
  ∃ j, s' = { s with journal := j } ∧ J s.journal j

def Recorder.Alike (J : Journal → Journal → Prop) (r r' : Recorder) : Prop :=
  ∃ j, r' = { r with session := { r.session with journal := j } } ∧ J r.session.journal j

def World.withCollaborators (w : World) (c : Collaborators) : World := ⟨w.program, c⟩

def FileContext.withCollaborators (c : FileContext) (c' : Collaborators) : FileContext :=
  { c with world := c.world.withCollaborators c' }

def Project.withCollaborators (p : Project) (c : Collaborators) : Project :=
  { p with collaborators := c }

section

variable {J : Journal → Journal → Prop}

namespace World

variable {w : World} {c : Collaborators}

theorem consult_inStep (h : w.collaborators.Corresponds c J) (q : Query) :
    InStep (Memory.Alike J) Eq (consult q (w.collaborators.answer q) q.nothing)
      (consult q (c.answer q) q.nothing) := by
  rintro m _ ⟨j, rfl, hj⟩
  obtain ⟨hanswer, hjournal⟩ := h.consult hj q
  exact ⟨hanswer, _, rfl, hjournal⟩

theorem propTarget?_inStep (h : w.collaborators.Corresponds c J) (f : SourceFile)
    (key : NodeKey) :
    InStep (Memory.Alike J) Eq (w.propTarget? f key)
      ((w.withCollaborators c).propTarget? f key) := by
  unfold propTarget?
  cases f.arena.parent (f.arena.parent key.node) with
  | none => exact .pure rfl
  | some element =>
    cases f.arena.identifierText? (f.arena.nameOf key.node) with
    | none => exact .pure rfl
    | some name =>
      refine (consult_inStep h (.propsType ⟨key.file, some element⟩)).bind_eq fun type => ?_
      cases type with
      | none => exact .pure rfl
      | some type => exact (consult_inStep h (.properties type name)).bind_eq fun _ => .pure rfl

theorem importTarget?_inStep (h : w.collaborators.Corresponds c J) (n : Node) (key : NodeKey) :
    InStep (Memory.Alike J) Eq (w.importTarget? n key)
      ((w.withCollaborators c).importTarget? n key) := by
  unfold importTarget?
  split
  · exact (consult_inStep h (.aliases key)).bind_eq fun _ => .pure rfl
  · exact .pure rfl

theorem corresponds_withCollaborators (h : w.collaborators.Corresponds c J) :
    w.Corresponds (w.withCollaborators c) Eq (Memory.Alike J) where
  node? := by rintro key _ rfl; rfl
  node := by rintro key _ rfl; rfl
  inFile := by rintro key _ rfl r; rfl
  known? := by rintro m _ key _ ⟨j, rfl, -⟩ rfl; rfl
  remember := by rintro key _ rfl s m _ ⟨j, rfl, hj⟩; exact ⟨rfl, j, rfl, hj⟩
  newLocal := by rintro key _ rfl m _ ⟨j, rfl, hj⟩; exact ⟨rfl, j, rfl, hj⟩
  countKey := by rintro spelling m _ ⟨j, rfl, hj⟩; exact ⟨rfl, j, rfl, hj⟩
  packageOf := by
    rintro name m _ ⟨j, rfl, hj⟩
    have hpackage : (w.withCollaborators c).collaborators.package = w.collaborators.package :=
      h.package
    simp only [packageOf, hpackage]
    exact ⟨rfl, j, rfl, hj⟩
  setTarget? := by
    rintro key _ rfl f n m m' hm
    simp only [setTarget?]
    split
    · obtain ⟨htarget, hm'⟩ := propTarget?_inStep h f key m m' hm
      refine ⟨?_, hm'⟩
      rw [← htarget]
      cases ((w.propTarget? f key).run m).1 <;> constructor
      rfl
    · exact ⟨.none, hm⟩
  importTarget? := by
    rintro key _ rfl n m m' hm
    obtain ⟨htarget, hm'⟩ := importTarget?_inStep h n key m m' hm
    refine ⟨?_, hm'⟩
    rw [← htarget]
    cases ((w.importTarget? n key).run m).1 <;> constructor
    rfl

end World

namespace Session

variable {c c' : Collaborators}

theorem emit_inStep (h : c.Corresponds c' J) (type : EntryType) (element : Element) :
    InStep (Session.Alike J) Eq (emit type element) (emit type element) := by
  rintro s _ ⟨j, rfl, hj⟩
  exact ⟨rfl, _, rfl, h.write hj _⟩

theorem emitLink_inStep (h : c.Corresponds c' J) (id : Nat) (referrers : List Nat) :
    InStep (Session.Alike J) Eq (emitLink id referrers) (emitLink id referrers) := by
  unfold emitLink
  refine (emit_inStep h .vertex _).bind_eq fun result => ?_
  refine (emit_inStep h .edge _).bind_eq fun _ => ?_
  refine (emit_inStep h .edge _).bind_eq fun _ => ?_
  exact (emit_inStep h .edge _).bind_eq fun _ => .pure rfl

theorem emitLinks_inStep (h : c.Corresponds c' J) :
    InStep (Session.Alike J) Eq emitLinks emitLinks := by
  unfold emitLinks
  refine InStep.bind (S := fun s s' => s'.definitions = s.definitions ∧
    s'.references = s.references) ?_ fun s s' hs => ?_
  · rintro s _ ⟨j, rfl, hj⟩
    exact ⟨⟨rfl, rfl⟩, j, rfl, hj⟩
  rw [hs.1, hs.2]
  exact (InStep.forM fun e _ => emitLink_inStep h e.1 e.2).bind_eq fun _ => .pure rfl

end Session

namespace FileContext

variable {c : FileContext} {c' : Collaborators}

theorem resolve_run (index : Nat) (r : Recorder) :
    (c.resolve index).run r =
      (((c.world.resolve c.options.maxSymbolDepth.toNat ⟨c.fileId, some index⟩).run r.memory).1,
        r.withMemory
          ((c.world.resolve c.options.maxSymbolDepth.toNat
            ⟨c.fileId, some index⟩).run r.memory).2) :=
  rfl

theorem resolve_inStep (h : c.world.collaborators.Corresponds c' J) (index : Nat) :
    InStep (Recorder.Alike J) Eq (c.resolve index) ((c.withCollaborators c').resolve index) := by
  rintro r _ ⟨j, rfl, hj⟩
  obtain ⟨hs, j', hm, hj'⟩ := (World.corresponds_withCollaborators h).resolve
    c.options.maxSymbolDepth.toNat (rfl : (⟨c.fileId, some index⟩ : NodeKey) = _) r.memory
    { r.memory with journal := j } ⟨j, rfl, hj⟩
  refine ⟨hs, j', ?_, hj'⟩
  rw [resolve_run, resolve_run]
  exact congrArg (Recorder.withMemory { r with session := { r.session with journal := j } }) hm

theorem inSession_inStep {α : Type} {x y : StateM Session α}
    (h : InStep (Session.Alike J) Eq x y) :
    InStep (Recorder.Alike J) Eq (inSession x) (inSession y) := by
  rintro r _ ⟨j, rfl, hj⟩
  obtain ⟨ha, j', hs, hj'⟩ := h r.session { r.session with journal := j } ⟨j, rfl, hj⟩
  exact ⟨ha, j', congrArg (fun session => { r with session }) hs, hj'⟩

theorem openComponent_inStep (h : c.world.collaborators.Corresponds c' J) (index : Nat) (n : Node)
    (s : Symbol) :
    InStep (Recorder.Alike J) Eq (c.openComponent index n s)
      ((c.withCollaborators c').openComponent index n s) := by
  unfold openComponent
  refine (inSession_inStep (Session.emit_inStep h .vertex _)).bind_eq fun _ => ?_
  refine (inSession_inStep (Session.emit_inStep h .vertex _)).bind_eq fun _ => ?_
  refine (inSession_inStep (Session.emit_inStep h .vertex _)).bind_eq fun id => ?_
  refine InStep.bind_eq (inSession_inStep ?_) fun _ => ?_
  · rintro s _ ⟨j, rfl, hj⟩
    exact ⟨rfl, j, rfl, hj⟩
  refine InStep.bind_eq (inSession_inStep ?_) fun found => ?_
  · rintro s _ ⟨j, rfl, hj⟩
    obtain ⟨hanswer, hjournal⟩ := h.consult hj (.references c.file.name (c.file.referenceOffset n))
    exact ⟨hanswer, _, rfl, hjournal⟩
  refine InStep.bind_eq (inSession_inStep ?_) fun _ => ?_
  · rintro s _ ⟨j, rfl, hj⟩
    exact ⟨rfl, j, rfl, hj⟩
  · rintro r _ ⟨j, rfl, hj⟩
    exact ⟨rfl, j, rfl, hj⟩

theorem openDeclaration_inStep (h : c.world.collaborators.Corresponds c' J) (index : Nat)
    (n : Node) :
    InStep (Recorder.Alike J) Eq (c.openDeclaration index n)
      ((c.withCollaborators c').openDeclaration index n) := by
  unfold openDeclaration
  split
  · refine (resolve_inStep h index).bind_eq fun s => ?_
    have hopen : InStep (Recorder.Alike J) Eq
        (do c.openComponent index n s; pure true)
        (do (c.withCollaborators c').openComponent index n s; pure true) :=
      (openComponent_inStep h index n s).bind_eq fun _ => .pure rfl
    have hoptions : (c.withCollaborators c').options = c.options := rfl
    rw [hoptions]
    cases s with
    | fileLocal =>
      cases c.options.includeLocals with
      | false => exact .pure rfl
      | true => exact hopen
    | empty => exact hopen
    | global => exact hopen
  · exact .pure rfl

theorem modify_inStep {g : Recorder → Recorder}
    (hg : ∀ r j, g { r with session := { r.session with journal := j } } =
      { g r with session := { (g r).session with journal := j } })
    (hjournal : ∀ r, (g r).session.journal = r.session.journal) :
    InStep (Recorder.Alike J) Eq (modify g : StateM Recorder PUnit) (modify g) := by
  rintro r _ ⟨j, rfl, hj⟩
  exact ⟨rfl, j, hg r j, (hjournal r).symm ▸ hj⟩

theorem closeComponent_inStep (h : c.world.collaborators.Corresponds c' J) :
    InStep (Recorder.Alike J) Eq c.closeComponent (c.withCollaborators c').closeComponent := by
  unfold closeComponent
  refine InStep.bind (S := fun r r' => r'.components = r.components) ?_ fun r r' hcomponents => ?_
  · rintro r _ ⟨j, rfl, hj⟩
    exact ⟨rfl, j, rfl, hj⟩
  have hoptions : (c.withCollaborators c').options = c.options := rfl
  rw [hcomponents, hoptions]
  split
  · exact .pure rfl
  · refine InStep.bind_eq (modify_inStep (fun _ _ => rfl) fun _ => rfl) fun _ => ?_
    have hclosed : ∀ component : Component, InStep (Recorder.Alike J) Eq
        (modify fun r : Recorder => { r with closed := component :: r.closed } :
          StateM Recorder PUnit)
        (modify fun r : Recorder => { r with closed := component :: r.closed }) :=
      fun _ => modify_inStep (fun _ _ => rfl) fun _ => rfl
    split
    · exact (inSession_inStep (Session.emit_inStep h .vertex _)).bind_eq fun _ => hclosed _
    · exact hclosed _

theorem record_inStep (h : c.world.collaborators.Corresponds c' J) (e : Event) :
    InStep (Recorder.Alike J) Eq (c.record e) ((c.withCollaborators c').record e) := by
  cases e with
  | operator token => exact modify_inStep (fun _ _ => rfl) fun _ => rfl
  | operand token => exact modify_inStep (fun _ _ => rfl) fun _ => rfl
  | enter index n =>
    have hrest : InStep (Recorder.Alike J) Eq
        (do
          let opened ← c.openDeclaration index n
          modify fun r => { r with opened := opened :: r.opened })
        (do
          let opened ← (c.withCollaborators c').openDeclaration index n
          modify fun r => { r with opened := opened :: r.opened }) :=
      (openDeclaration_inStep h index n).bind_eq fun opened =>
        modify_inStep (fun _ _ => rfl) fun _ => rfl
    simp only [record]
    split
    · exact (resolve_inStep h index).bind_eq fun _ => hrest
    · exact hrest
  | leave =>
    simp only [record]
    refine InStep.bind (S := fun r r' => r'.opened = r.opened) ?_ fun r r' hopened => ?_
    · rintro r _ ⟨j, rfl, hj⟩
      exact ⟨rfl, j, rfl, hj⟩
    rw [hopened]
    split
    · exact (closeComponent_inStep h).bind_eq fun _ => modify_inStep (fun _ _ => rfl) fun _ => rfl
    · exact modify_inStep (fun _ _ => rfl) fun _ => rfl
    · exact .pure rfl

theorem recordAll_inStep (h : c.world.collaborators.Corresponds c' J) (document : Nat) :
    InStep (Recorder.Alike J) Eq (c.recordAll document)
      ((c.withCollaborators c').recordAll document) := by
  unfold recordAll
  refine InStep.bind_eq (inSession_inStep ?_) fun _ => ?_
  · rintro s _ ⟨j, rfl, hj⟩
    exact ⟨rfl, j, rfl, hj⟩
  refine InStep.bind_eq (modify_inStep (fun _ _ => rfl) fun _ => rfl) fun _ => ?_
  refine (InStep.forM fun e _ => record_inStep h e).bind_eq fun _ => ?_
  have hfile : (c.withCollaborators c').file = c.file := rfl
  have hoptions : (c.withCollaborators c').options = c.options := rfl
  rw [hfile, hoptions]
  split
  · exact .pure rfl
  refine (closeComponent_inStep h).bind_eq fun _ => ?_
  refine InStep.bind (S := fun r r' => r'.outline = r.outline) ?_ fun r r' houtline => ?_
  · rintro r _ ⟨j, rfl, hj⟩
    exact ⟨rfl, j, rfl, hj⟩
  rw [houtline]
  have hlast : InStep (Recorder.Alike J) Eq
      (do
        let components := sortBy (fun a b => a.id ≤ b.id) (← get).closed
        pure (.ok ⟨document, components, r.outline.finish⟩) :
        StateM Recorder (Except IndexError FileSummary))
      (do
        let components := sortBy (fun a b => a.id ≤ b.id) (← get).closed
        pure (.ok ⟨document, components, r.outline.finish⟩)) := by
    rintro r _ ⟨j, rfl, hj⟩
    exact ⟨rfl, j, rfl, hj⟩
  split
  · refine (InStep.forM fun tree _ => ?_).bind_eq fun _ => hlast
    exact (inSession_inStep (Session.emit_inStep h .vertex _)).bind_eq fun _ => .pure rfl
  · exact hlast

theorem index_inStep (h : c.world.collaborators.Corresponds c' J) (document : Nat) :
    InStep (Session.Alike J) Eq (c.index document) ((c.withCollaborators c').index document) := by
  have hfile : (c.withCollaborators c').file = c.file := rfl
  unfold index
  rw [hfile]
  split
  · rintro s _ ⟨j, rfl, hj⟩
    obtain ⟨hresult, j', hr, hj'⟩ := recordAll_inStep h document { session := s }
      { session := { s with journal := j } } ⟨j, rfl, hj⟩
    exact ⟨hresult, j', congrArg Recorder.session hr, hj'⟩
  · exact .pure rfl

end FileContext

def Stage.Alike (J : Journal → Journal → Prop) (stage stage' : Stage) : Prop :=
  stage'.purpose = stage.purpose ∧ J stage.effects stage'.effects

/-- Stage by stage alike up to the flush at the end. -/
structure Plan.Alike (J : Journal → Journal → Prop) (plan plan' : Plan) : Prop where
  summary : plan'.summary = plan.summary
  stages : ∃ stages stages', plan.stages = stages ++ [⟨.flush, #[.flush]⟩] ∧
    plan'.stages = stages' ++ [⟨.flush, #[.flush]⟩] ∧ List.Forall₂ (Stage.Alike J) stages stages'

namespace Project

variable {p : Project} {c : Collaborators}

theorem indexFile_inStep (h : p.collaborators.Corresponds c J) (fileId : Nat) (file : SourceFile) :
    InStep (Session.Alike J) Eq (p.indexFile fileId file)
      ((p.withCollaborators c).indexFile fileId file) := by
  unfold indexFile
  refine (Session.emit_inStep h .vertex _).bind_eq fun document => ?_
  have hindex : InStep (Session.Alike J) Eq ((p.context fileId file).index document)
      (((p.withCollaborators c).context fileId file).index document) :=
    FileContext.index_inStep (c := p.context fileId file) h document
  refine hindex.bind_eq fun result => ?_
  cases result <;> exact .pure rfl

theorem stage_inStep {α : Type} (hempty : J #[] #[]) (purpose : Purpose) {x y : StateM Session α}
    (h : InStep (Session.Alike J) Eq x y) :
    InStep (Session.Alike J) (fun a b => a.1 = b.1 ∧ Stage.Alike J a.2 b.2) (stage purpose x)
      (stage purpose y) := by
  intro s s' hs
  obtain ⟨ha, j, hafter, hj⟩ := h s s' hs
  have htaken : (Session.takeJournal.run (y.run s').2).2 =
      (Session.takeJournal.run (x.run s).2).2 := by
    rw [hafter]
    rfl
  refine ⟨⟨ha, rfl, ?_⟩, #[], htaken, hempty⟩
  have heffects : ((stage purpose y).run s').1.2.effects = j := by
    have hjournal := congrArg Session.journal hafter
    exact hjournal
  rw [heffects]
  exact hj

/-- Two runs of a project whose collaborators give the same answers. -/
theorem planAll_inStep (hempty : J #[] #[]) (h : p.collaborators.Corresponds c J) :
    InStep (Session.Alike J) (Plan.Alike J) p.planAll (p.withCollaborators c).planAll := by
  unfold planAll
  refine (stage_inStep hempty _ (Session.emit_inStep h .vertex _)).bind
    fun metadata metadata' hmetadata => ?_
  refine (stage_inStep hempty _ (Session.emit_inStep h .vertex _)).bind
    fun project project' hproject => ?_
  refine (InStep.mapM fun f _ => stage_inStep hempty _ (indexFile_inStep h f.2 f.1)).bind
    fun files files' hfiles => ?_
  refine InStep.bind (S := fun s s' => s'.definitions = s.definitions) ?_ fun s s' hs => ?_
  · rintro s _ ⟨j, rfl, hj⟩
    exact ⟨rfl, j, rfl, hj⟩
  refine (stage_inStep hempty _ (Session.emitLinks_inStep h)).bind fun links links' hlinks => ?_
  have hcount : ∀ b : Bool, files'.countP (·.1 == b) = files.countP (·.1 == b) := by
    intro b
    induction hfiles with
    | nil => rfl
    | cons hfirst _ ih => rw [List.countP_cons, List.countP_cons, ih, hfirst.1]
  refine .pure ⟨?_, [metadata.2, project.2] ++ files.map (·.2) ++ [links.2],
    [metadata'.2, project'.2] ++ files'.map (·.2) ++ [links'.2], ?_, ?_, ?_⟩
  · have hindexed := hcount true
    have hfailed := hcount false
    simp only [beq_true, beq_false] at hindexed hfailed
    simp only [hindexed, hfailed, hs, hlinks.1]
  · simp
  · simp
  · refine List.rel_append (List.rel_append ?_ ?_) ?_
    · exact .cons hmetadata.2 (.cons hproject.2 .nil)
    · rw [List.forall₂_map_left_iff, List.forall₂_map_right_iff]
      exact hfiles.imp fun _ _ hf => hf.2
    · exact .cons hlinks.2 .nil

end Project

end

end SourceIndex
