import SourceIndex.Proofs.Counting

/-! The index of a file that is written while its tree is walked. On a sink that takes everything
the walk does what the tour has recorded, up to the first node that is too deep, as long as all
numbers fit. -/

namespace SourceIndex

open Recorder

/-- A sink that takes everything and keeps nothing. -/
structure Quiet where

instance : Sink Quiet where
  write _ q := (.ok (), q)
  flush q := (.ok (), q)

namespace Live

/-- The session of a file, with nothing written elsewhere. -/
def IsSession (l : Live Session Quiet) (s : Session) : Prop := s = l.state

/-- The recorder of a walk, next to a recording for which these nodes are open. -/
def IsRecorder (opened : List Bool) (l : Live Recorder Quiet) (r : Recorder) : Prop :=
  r = { l.state with opened }

end Live

/-- Ids are given out in 64 bits. -/
def Session.Full (o : Overflow) (l : Live Session Quiet) : Prop :=
  o = .id ∧ bound64 ≤ l.state.lastId + 1

/-- An answer has a reference that ends where no file can. -/
def FileContext.ReachesTooFar (c : FileContext) : Prop :=
  ∃ offset found, c.world.collaborators.references c.file.name offset = .ok found ∧
    ∃ r ∈ found, bound32 ≤ r.start + r.length

/-- Why the index of a file may overflow. -/
def FileContext.Full {σ : Type} (c : FileContext) : Overflow → Live Recorder σ → Prop
  | .id, l => bound64 ≤ l.state.session.lastId + 1
  | .referenceEnd, _ => c.ReachesTooFar
  | o, l => Memory.Full c.options.maxSymbolDepth o l.state.memory

namespace Live

variable {ε α : Type}

theorem nextId_run {σ : Type} (l : Live Session σ) :
    (nextId : Attempt (Live Session σ) ε Nat) l =
      if l.state.lastId + 1 < bound64 then
        .ok (l.state.lastId + 1) { l with state := { l.state with lastId := l.state.lastId + 1 } }
      else .error (.overflow .id) l := by
  change (if l.state.lastId + 1 < bound64 then sure Session.nextId else Attempt.overflow .id :
    Attempt (Live Session σ) ε Nat) l = _
  split <;> rfl

theorem emit_agrees (type : EntryType) (element : Element) :
    Agrees IsSession IsSession Session.Full (emit type element)
      (Session.emit type element) := by
  refine ⟨fun s => ⟨[_], Array.toList_push.symm⟩, ?_⟩
  rintro l _ rfl
  by_cases h : l.state.lastId + 1 < bound64
  · rw [emit, bind_of_ok ((nextId_run l).trans (if_pos h))]
    exact ⟨rfl, rfl⟩
  · rw [emit, bind_of_error ((nextId_run l).trans (if_neg h))]
    exact ⟨⟨rfl, Nat.le_of_not_lt h⟩, ⟨[_], Array.toList_push.symm⟩⟩

theorem emitLink_agrees (id : Nat) (referrers : List Nat) :
    Agrees IsSession IsSession Session.Full (emitLink id referrers)
      (Session.emitLink id referrers) := by
  unfold emitLink Session.emitLink
  refine (emit_agrees .vertex .referenceResult).bind fun result => ?_
  refine (emit_agrees .edge _).bind fun _ => (emit_agrees .edge _).bind fun _ => ?_
  exact (emit_agrees .edge _).bind fun _ => .pure _

theorem emitLinks_agrees :
    Agrees IsSession IsSession Session.Full emitLinks Session.emitLinks := by
  refine Agrees.get (fun _ _ h => h) (fun s => ⟨⟨s, {}⟩, rfl⟩) ?_
  rintro l _ rfl
  refine (Agrees.forM fun entry _ => ?_).bind fun _ => .pure _
  exact emitLink_agrees entry.1 entry.2

section

variable {c : FileContext} {opened : List Bool}

theorem inSession_agrees {x : Attempt (Live Session Quiet) ε α} {y : StateM Session α}
    (h : Agrees IsSession IsSession Session.Full x y) :
    Agrees (IsRecorder opened) (IsRecorder opened) c.Full (Live.inSession x)
      (Recorder.inSession y) := by
  refine Follows.within Recorder.session (fun s r => { r with session := s }) h
    ⟨fun _ => rfl, fun _ _ => rfl⟩ ⟨fun _ => rfl, fun _ _ => rfl⟩ ?_ ?_ ?_ ?_
  · rintro l _ rfl
    rfl
  · rintro l _ l' _ rfl rfl
    rfl
  · exact fun _ _ _ _ _ h => h
  · rintro l l' _ ⟨rfl, h⟩
    exact h

/-- What does not look at the open nodes. -/
theorem sure_agrees {y : StateM Recorder α} (hlog : ∀ r, log r <+: log (y.run r).2)
    (hopened : ∀ r, y.run { r with opened } = ((y.run r).1, { (y.run r).2 with opened })) :
    Agrees (ε := ε) (IsRecorder opened) (IsRecorder opened) c.Full (Live.sure y) y := by
  refine ⟨hlog, ?_⟩
  rintro l _ rfl
  refine ⟨?_, ?_⟩
  · exact congrArg (fun done => Except.ok done.1) (hopened l.state)
  · exact congrArg Prod.snd (hopened l.state)

theorem resolve_agrees (index : Nat) :
    Agrees (ε := ε) (IsRecorder opened) (IsRecorder opened) c.Full (Live.resolve c index)
      (c.resolve index) := by
  refine Follows.within Recorder.memory (fun m r => r.withMemory m)
    (World.symbolOf_counts c.options.maxSymbolDepth ⟨c.fileId, some index⟩).agrees
    ⟨fun _ => rfl, fun _ _ => rfl⟩ ⟨fun _ => rfl, fun _ _ => rfl⟩ ?_ ?_ ?_ ?_
  · rintro l _ rfl
    rfl
  · rintro l _ l' _ rfl rfl
    rfl
  · exact fun _ _ _ _ _ h => h
  · intro m l o h
    cases o with
    | id => exact h.elim
    | referenceEnd => exact h.elim
    | localNumber => exact h
    | keyNumber => exact h
    | ownerDepth => exact h

theorem modify_agrees {opened' : List Bool} {g g' : Recorder → Recorder}
    (hlog : ∀ r, log (g' r) = log r)
    (hopened : ∀ r, g' { r with opened } = { g r with opened := opened' }) :
    Agrees (ε := ε) (IsRecorder opened) (IsRecorder opened') c.Full
      (Live.sure (modify g : StateM Recorder Unit)) (modify g') := by
  refine ⟨fun r => (Talked.of_eq (hlog r)).grows, ?_⟩
  rintro l _ rfl
  exact ⟨rfl, hopened l.state⟩

theorem locate_agrees {r : Reference} (hr : bound32 ≤ r.start + r.length → c.ReachesTooFar) :
    Agrees (ε := ε) (IsRecorder opened) (IsRecorder opened) c.Full (locate c r)
      (pure (c.locate r)) := by
  unfold locate
  split
  · exact .pure _
  · rename_i h
    refine ⟨fun _ => List.prefix_refl _, ?_⟩
    rintro l _ rfl
    exact ⟨hr (Nat.le_of_not_lt h), List.prefix_refl _⟩

theorem collectReferences_agrees (id offset : Nat) :
    Agrees (ε := ε) (IsRecorder opened) (IsRecorder opened) c.Full (collectReferences c id offset)
      (do
        let found ← Recorder.inSession (Session.consult (.references c.file.name offset)
          (c.world.collaborators.references c.file.name offset) [])
        Recorder.inSession (Session.refer id (found.map c.locate))) := by
  refine Agrees.bind_of (sure_agrees ?_ fun _ => rfl) fun r => ?_
  · exact fun r => (Memory.consult_talked _ _ _ r.memory).grows
  have hanswer : ∀ found, ((Recorder.inSession (Session.consult (.references c.file.name offset)
      (c.world.collaborators.references c.file.name offset) [])).run r).1 = found →
      ∀ reference ∈ found, bound32 ≤ reference.start + reference.length → c.ReachesTooFar := by
    rintro _ rfl reference hreference hr
    cases hanswer : c.world.collaborators.references c.file.name offset with
    | ok found =>
      refine ⟨offset, found, hanswer, reference, ?_, hr⟩
      rwa [hanswer] at hreference
    | error e =>
      rw [hanswer] at hreference
      exact absurd hreference List.not_mem_nil
  have hlocated : Agrees (ε := ε) (IsRecorder opened) (IsRecorder opened) c.Full
      (List.mapM (locate c) _) (List.mapM (fun r => pure (c.locate r)) _) :=
    Agrees.mapM fun reference hreference => locate_agrees (hanswer _ rfl reference hreference)
  rw [List.mapM_pure] at hlocated
  exact hlocated.bind fun _ => sure_agrees (fun _ => List.prefix_refl _) fun _ => rfl

theorem openComponent_agrees (index : Nat) (n : Node) (s : Symbol) :
    Agrees (IsRecorder opened) (IsRecorder opened) c.Full (openComponent c index n s)
      (c.openComponent index n s) := by
  unfold openComponent FileContext.openComponent
  refine (inSession_agrees (emit_agrees .vertex .resultSet)).bind fun _ => ?_
  refine (inSession_agrees (emit_agrees .vertex .moniker)).bind fun _ => ?_
  refine (inSession_agrees (emit_agrees .vertex _)).bind fun id => ?_
  refine (sure_agrees (fun _ => List.prefix_refl _) fun _ => rfl).bind fun _ => ?_
  have hcollect : Agrees (ε := IndexError) (IsRecorder opened) (IsRecorder opened) c.Full
      (collectReferences c id (c.file.referenceOffset n)) _ :=
    collectReferences_agrees id (c.file.referenceOffset n)
  dsimp only
  simp only [← bind_assoc]
  refine Agrees.bind hcollect fun _ => modify_agrees (fun _ => rfl) fun _ => rfl

theorem openDeclaration_agrees (index : Nat) (n : Node) :
    Agrees (IsRecorder opened) (IsRecorder opened) c.Full (openDeclaration c index n)
      (c.openDeclaration index n) := by
  unfold openDeclaration FileContext.openDeclaration
  split
  · refine (resolve_agrees index).bind fun s => ?_
    have hopen : Agrees (IsRecorder opened) (IsRecorder opened) c.Full
        (do openComponent c index n s; pure true)
        (do c.openComponent index n s; pure true) :=
      (openComponent_agrees index n s).bind fun _ => .pure _
    cases s with
    | fileLocal =>
      cases c.options.includeLocals with
      | false => exact .pure _
      | true => exact hopen
    | empty => exact hopen
    | global => exact hopen
  · exact .pure _

/-- Whatever is looked up in a recorder, the open nodes aside. -/
theorem get_follows {F : Live Recorder Quiet → Recorder → Prop}
    {f : Live Recorder Quiet → Attempt (Live Recorder Quiet) ε α}
    {g : Recorder → StateM Recorder (Except ε α)}
    (hf : ∀ l opened', Follows (IsRecorder opened) (IsRecorder opened) F c.Full (f l)
      (g { l.state with opened := opened' })) :
    Follows (IsRecorder opened) (IsRecorder opened) F c.Full (do f (← get)) (do g (← get)) := by
  refine Follows.get (V := fun l r => ∃ opened', IsRecorder opened' l r) (fun _ _ h => ⟨_, h⟩)
    (fun r => ⟨⟨r, {}⟩, r.opened, rfl⟩) ?_
  rintro l _ ⟨opened', rfl⟩
  exact hf l opened'

theorem get_agrees {f : Live Recorder Quiet → Attempt (Live Recorder Quiet) ε α}
    {g : Recorder → StateM Recorder α}
    (hf : ∀ l opened', Agrees (IsRecorder opened) (IsRecorder opened) c.Full (f l)
      (g { l.state with opened := opened' })) :
    Agrees (IsRecorder opened) (IsRecorder opened) c.Full (do f (← get)) (do g (← get)) :=
  get_follows (g := fun r => Except.ok <$> g r) hf

theorem closeComponent_agrees :
    Agrees (IsRecorder opened) (IsRecorder opened) c.Full (closeComponent c)
      c.closeComponent := by
  unfold closeComponent FileContext.closeComponent
  refine get_agrees fun l opened' => ?_
  dsimp only
  cases l.state.components.exit with
  | mk component? components =>
  cases component? with
  | none => exact .pure _
  | some component =>
    refine Agrees.bind (modify_agrees (fun _ => rfl) fun _ => rfl) fun _ => ?_
    have hclosed : Agrees (IsRecorder opened) (IsRecorder opened) c.Full
        (sure (modify fun r => { r with closed := component :: r.closed }) :
          Attempt (Live Recorder Quiet) IndexError Unit)
        (modify fun r => { r with closed := component :: r.closed }) :=
      modify_agrees (fun _ => rfl) fun _ => rfl
    split
    · exact (inSession_agrees (emit_agrees .vertex _)).bind fun _ => hclosed
    · exact hclosed

end

end Live

/-- Records a tour, with an error where it was cut off. -/
def FileContext.play (c : FileContext) (t : Tour) : StateM Recorder (Except IndexError Unit) := do
  t.events.forM c.record
  pure (if t.isCut then .error (.tooDeep c.file.name) else .ok ())

namespace FileContext

variable {c : FileContext}

theorem play_append (t : Tour) (rest : Unit → Tour) :
    c.play (t.append rest) = unlessError (c.play t) fun _ => c.play (rest ()) := by
  cases hcut : t.isCut with
  | true => simp [play, Tour.append, hcut, unlessError]
  | false => simp [play, Tour.append, hcut, unlessError]

theorem play_single (e : Event) : c.play { events := [e] } = Except.ok <$> c.record e := by
  simp [play]

theorem play_cons (e : Event) (t : Tour) :
    c.play { t with events := e :: t.events } = (do c.record e; c.play t) := by
  simp [play]

end FileContext

namespace Live

variable {c : FileContext} {opened : List Bool}

/-- All that is left of a walk that was too deep. -/
def SameSession (l : Live Recorder Quiet) (r : Recorder) : Prop := r.session = l.state.session

/-- A node is left as it was entered. -/
theorem leave_follows (isOpen : Bool) :
    Follows (IsRecorder (isOpen :: opened)) (IsRecorder opened) SameSession c.Full
      (do
        if isOpen then
          closeComponent c
          sure (modify fun r => { r with outline := r.outline.exit }))
      (c.play { events := [.leave] }) := by
  have hleave : ∀ (isOpen : Bool) (rest : List Bool),
      Agrees (IsRecorder (isOpen :: rest)) (IsRecorder rest) c.Full
        (do
          if isOpen then
            closeComponent c
            sure (modify fun r => { r with outline := r.outline.exit }))
        (if isOpen then do
            c.closeComponent
            modify fun r => { r with outline := r.outline.exit, opened := rest }
          else modify fun r => { r with opened := rest }) := by
    intro isOpen rest
    cases isOpen with
    | true =>
      refine Agrees.bind closeComponent_agrees fun _ => ?_
      exact modify_agrees (fun _ => rfl) fun _ => rfl
    | false =>
      refine ⟨fun r => List.prefix_refl _, ?_⟩
      rintro l _ rfl
      exact ⟨rfl, rfl⟩
  rw [FileContext.play_single]
  refine Agrees.follows ⟨fun r => ?_, ?_⟩
  · change log r <+: log ((c.record .leave).run r).2
    simp only [FileContext.record, run_bind, StateT.run_get]
    cases hopened : r.opened with
    | nil => exact List.prefix_refl _
    | cons isOpen rest =>
      have hgrows := (hleave isOpen rest).grows r
      cases isOpen <;> exact hgrows
  · rintro l _ rfl
    have hends := (hleave isOpen opened).ends l _ rfl
    cases isOpen <;> exact hends

theorem steps_follow {visit : NodeRef → Attempt (Live Recorder Quiet) IndexError Unit}
    {tour : NodeRef → Tour}
    (hvisit : ∀ r, Follows (IsRecorder opened) (IsRecorder opened) SameSession c.Full (visit r)
      (c.play (tour r))) (ss : List Step) :
    Follows (IsRecorder opened) (IsRecorder opened) SameSession c.Full
      (ss.forM fun
        | .operator token =>
          sure (modify fun r => { r with components := r.components.operator token })
        | .operand token =>
          sure (modify fun r => { r with components := r.components.operand token })
        | .visit r => visit r)
      (c.play (Tour.steps tour ss)) := by
  induction ss with
  | nil => exact Agrees.follows (.pure ())
  | cons s ss ih =>
    rw [Tour.steps, FileContext.play_append]
    refine Follows.bind ?_ fun _ => ih
    cases s with
    | operator token =>
      rw [Tour.step, FileContext.play_single]
      exact Agrees.follows (modify_agrees (fun _ => rfl) fun _ => rfl)
    | operand token =>
      rw [Tour.step, FileContext.play_single]
      exact Agrees.follows (modify_agrees (fun _ => rfl) fun _ => rfl)
    | visit r => exact hvisit r

/-- Entering a node: a key is numbered, a declaration is opened, and the recording takes down
whether it was. -/
theorem enter_follows {index : Nat} {n : Node}
    {rest : Bool → Attempt (Live Recorder Quiet) IndexError Unit}
    {t : Tour} (hrest : ∀ isOpen, Follows (IsRecorder (isOpen :: opened)) (IsRecorder opened)
      SameSession c.Full (rest isOpen) (c.play t)) :
    Follows (IsRecorder opened) (IsRecorder opened) SameSession c.Full
      (do
        if n.isKey then let _ ← resolve c index
        let isOpen ← openDeclaration c index n
        rest isOpen)
      (c.play { t with events := .enter index n :: t.events }) := by
  have hopen : Follows (IsRecorder opened) (IsRecorder opened) SameSession c.Full
      (do
        let isOpen ← openDeclaration c index n
        rest isOpen)
      (do
        let isOpen ← c.openDeclaration index n
        modify fun r => { r with opened := isOpen :: r.opened }
        c.play t) := by
    refine (openDeclaration_agrees index n).then fun isOpen => ?_
    exact Follows.modify (fun _ => rfl) (by rintro l _ rfl; rfl) (hrest isOpen)
  rw [FileContext.play_cons]
  simp only [FileContext.record]
  split
  · simp only [bind_assoc]
    exact (resolve_agrees index).then fun _ => hopen
  · exact hopen

theorem visit_follows (levels : Nat) (r : NodeRef) :
    Follows (IsRecorder opened) (IsRecorder opened) SameSession c.Full (visit c levels r)
      (c.play (c.file.visit levels r)) := by
  have hnothing : ∀ opened, Follows (IsRecorder opened) (IsRecorder opened) SameSession c.Full
      (pure ()) (c.play {}) := fun opened => Agrees.follows (.pure ())
  induction levels using Nat.strongRecOn generalizing r opened with
  | ind levels ih =>
    unfold visit SourceFile.visit
    cases r with
    | none => exact hnothing opened
    | some index =>
      cases c.file.arena.get? (some index) with
      | none => exact hnothing opened
      | some n =>
        dsimp only
        split
        · exact hnothing opened
        cases levels with
        | zero =>
          refine ⟨fun _ => List.prefix_refl _, ?_⟩
          rintro l _ rfl
          exact ⟨rfl, rfl⟩
        | succ levels =>
          refine enter_follows fun isOpen => ?_
          rw [FileContext.play_append]
          refine (steps_follow (ih levels (Nat.lt_succ_self levels)) _).bind fun _ => ?_
          exact leave_follows isOpen

theorem recordFile_follows (document : Nat) :
    Follows (IsRecorder opened) (IsRecorder opened) SameSession c.Full (recordFile c document)
      (c.recordAll document) := by
  have hplay : c.recordAll document = (do
      Recorder.inSession (Session.define document ⟨c.file.name, c.file.nodeRange c.file.root⟩)
      modify fun r => { r with components := r.components.enter document }
      unlessError (c.play c.file.tour) fun _ => do
        c.closeComponent
        let outline := (← get).outline.finish
        if c.options.emitOutline then
          outline.forM fun tree => do let _ ← Recorder.inSession (Session.vertex (.outline tree))
        let components := sortBy (fun a b => a.id ≤ b.id) (← get).closed
        pure (.ok ⟨document, components, outline⟩)) := by
    unfold FileContext.recordAll
    cases hcut : c.file.tour.isCut with
    | true => simp [FileContext.play, hcut, unlessError]
    | false => simp [FileContext.play, hcut, unlessError]
  rw [hplay]
  unfold recordFile
  refine Agrees.then (sure_agrees (fun _ => List.prefix_refl _) fun _ => rfl) fun _ => ?_
  refine Agrees.then (modify_agrees (fun _ => rfl) fun _ => rfl) fun _ => ?_
  refine (visit_follows SourceFile.maxVisitDepth c.file.root).bind fun _ => ?_
  refine closeComponent_agrees.then fun _ => ?_
  refine get_follows fun l opened' => ?_
  dsimp only
  have hlast : Follows (ε := IndexError) (α := FileSummary) (IsRecorder opened)
      (IsRecorder opened) SameSession c.Full
      (do
        let components := sortBy (fun a b => a.id ≤ b.id) (← get).state.closed
        pure ⟨document, components, l.state.outline.finish⟩)
      (do
        let components := sortBy (fun a b => a.id ≤ b.id) (← get).closed
        pure (.ok ⟨document, components, l.state.outline.finish⟩)) := by
    refine get_follows fun l' opened'' => ?_
    exact Agrees.follows (.pure _)
  split
  · refine Agrees.then (Agrees.forM fun tree _ => ?_) fun _ => hlast
    exact (inSession_agrees (emit_agrees .vertex _)).bind fun _ => .pure _
  · exact hlast

theorem index_follows (document : Nat) :
    Follows IsSession IsSession IsSession (fun _ _ => True) (index c document)
      (c.index document) := by
  unfold index FileContext.index
  split
  · have hrecord : Follows (IsRecorder []) (IsRecorder []) SameSession c.Full
        (recordFile c document) (c.recordAll document) := recordFile_follows document
    have hpart : Part (fun l : Live Session Quiet => (⟨{ session := l.state }, l.sink⟩ :
        Live Recorder Quiet)) fun r _ => ⟨r.state.session, r.sink⟩ :=
      ⟨fun _ => rfl, fun _ _ => rfl⟩
    refine Follows.within (fun session => { session }) (fun r _ => r.session) hrecord hpart
      ⟨fun _ => rfl, fun _ _ => rfl⟩ ?_ ?_ ?_ ?_
    · rintro l _ rfl
      rfl
    · rintro l _ l' _ rfl rfl
      rfl
    · rintro l _ l' r rfl h
      exact h
    · exact fun _ _ _ _ => trivial
  · refine ⟨fun _ => List.prefix_refl _, ?_⟩
    rintro l _ rfl
    exact ⟨rfl, rfl⟩

end Live

end SourceIndex
