import SourceIndex.LiveProject
import SourceIndex.Proofs.LiveFiles
import SourceIndex.Proofs.Deliveries

/-! Attempts on any sink. What is done next does not depend on the sink, except that the first
refusal is the end. So an attempt does what it does on a sink that takes everything, effect by
effect, up to the first that fails, and it ends with that failure. -/

namespace SourceIndex

variable {S T σ ε ε' α β : Type}

/-- The same end, with the state next to this sink. -/
def onSink (sink : σ) : EStateM.Result ε (Live S Quiet) α → EStateM.Result ε (Live S σ) α
  | .ok a l => .ok a ⟨l.state, sink⟩
  | .error e l => .error e ⟨l.state, sink⟩

namespace Delivery

variable [Sink σ] {d : Delivery σ}

theorem foldl_perform_talk {talk : List Effect} (htalk : ∀ e ∈ talk, e.isTalk = true)
    (h : d.failure? = none) :
    (talk.foldl perform d).failure? = none ∧ (talk.foldl perform d).sink = d.sink := by
  induction talk generalizing d with
  | nil => exact ⟨h, rfl⟩
  | cons e talk ih =>
    have hperform : d.perform e = { d with performed := d.performed.push e } := by
      have he := htalk e (by simp)
      cases e <;> simp_all [perform, Effect.isTalk]
    rw [List.foldl_cons, hperform]
    exact ih (fun e' he' => htalk e' (by simp [he'])) h

end Delivery

/-- How an attempt ends on a sink where `d` is what became of the effects that it has elsewhere. -/
def Enacted [Logged S] (told : SinkError → ε → Prop) (s : S) (d : Delivery σ)
    (done : EStateM.Result (Fault ε) (Live S Quiet) α)
    (result : EStateM.Result (Fault ε) (Live S σ) α) : Prop :=
  match d.failure? with
  | none => result = onSink d.sink done
  | some failure => ∃ e s', told failure e ∧ result = .error (.error e) ⟨s', d.sink⟩ ∧
    log s' = log s ++ d.performed.toList

/-- On any sink `x` does what `y` does, up to the first failure. It does not flush. -/
def Enacts [Sink σ] [Logged S] (told : SinkError → ε → Prop) (x : Attempt (Live S σ) ε α)
    (y : Attempt (Live S Quiet) ε α) : Prop :=
  ∀ s sink, ∃ effects, log (stateAfter (y ⟨s, {}⟩)) = log s ++ effects ∧ .flush ∉ effects ∧
    Enacted told s (effects.foldl Delivery.perform { sink }) (y ⟨s, {}⟩) (x ⟨s, sink⟩)

section

variable [Sink σ] [Logged S] [Logged T] {told : SinkError → ε → Prop}

/-- One attempt after another: `d` is what became of the effects of the first. -/
theorem Enacted.bind {s : S} {d : Delivery σ} {a : α} {l : Live S Quiet}
    {x : Attempt (Live S σ) ε α} {f : α → Attempt (Live S σ) ε β} {sink : σ}
    {done : EStateM.Result (Fault ε) (Live S Quiet) β} {rest : List Effect}
    (hlog : d.failure? = none → log l.state = log s ++ d.performed.toList)
    (hx : Enacted told s d (.ok a l) (x ⟨s, sink⟩))
    (hf : Enacted told l.state (rest.foldl Delivery.perform { sink := d.sink }) done
      (f a ⟨l.state, d.sink⟩)) :
    Enacted told s (rest.foldl Delivery.perform d) done ((x >>= f) ⟨s, sink⟩) := by
  cases hfailure : d.failure? with
  | some failure =>
    simp only [Enacted, hfailure] at hx
    obtain ⟨e, s', htold, hrun, hlog⟩ := hx
    rw [Delivery.foldl_perform_failed (by rw [hfailure]; rfl)]
    simp only [Enacted, hfailure]
    exact ⟨e, s', htold, bind_of_error hrun, hlog⟩
  | none =>
    have hrun : x ⟨s, sink⟩ = .ok a ⟨l.state, d.sink⟩ := by
      simp only [Enacted, hfailure] at hx
      exact hx
    rw [bind_of_ok hrun, Delivery.foldl_perform_of_sink rest hfailure]
    simp only [Enacted] at hf ⊢
    split at hf
    · exact hf
    · obtain ⟨e, s', htold, hrun, hlog'⟩ := hf
      refine ⟨e, s', htold, hrun, ?_⟩
      rw [hlog', hlog hfailure]
      simp

theorem Enacts.bind {x : Attempt (Live S σ) ε α} {y : Attempt (Live S Quiet) ε α}
    {f : α → Attempt (Live S σ) ε β} {g : α → Attempt (Live S Quiet) ε β} (hx : Enacts told x y)
    (hf : ∀ a, Enacts told (f a) (g a)) : Enacts told (x >>= f) (y >>= g) := by
  intro s sink
  obtain ⟨effects, hlog, hflush, hend⟩ := hx s sink
  cases hy : y ⟨s, {}⟩ with
  | error fault l =>
    rw [hy] at hlog hend
    rw [bind_of_error hy]
    refine ⟨effects, hlog, hflush, ?_⟩
    simp only [Enacted] at hend ⊢
    split at hend
    · rw [bind_of_error hend]
      rfl
    · obtain ⟨e, s', htold, hrun, hdone⟩ := hend
      exact ⟨e, s', htold, bind_of_error hrun, hdone⟩
  | ok a l =>
    rw [hy] at hlog hend
    rw [bind_of_ok hy]
    obtain ⟨rest, hrest, hflush', hend'⟩ :=
      hf a l.state (effects.foldl Delivery.perform { sink }).sink
    refine ⟨effects ++ rest, ?_, by simp [hflush, hflush'], ?_⟩
    · rw [hrest, ← List.append_assoc]
      exact congrArg (· ++ rest) hlog
    · rw [List.foldl_append]
      refine hend.bind (fun hnone => ?_) hend'
      rw [Delivery.foldl_perform_performed hnone]
      exact hlog

namespace Enacts

/-- Attempts that do not use the sink. -/
theorem of_talks {x : Attempt (Live S σ) ε α} {y : Attempt (Live S Quiet) ε α}
    (hsink : ∀ s sink, x ⟨s, sink⟩ = onSink sink (y ⟨s, {}⟩)) (htalks : Talks y) :
    Enacts told x y := by
  intro s sink
  obtain ⟨talk, hlog, htalk⟩ := htalks ⟨s, {}⟩
  obtain ⟨hnone, hsame⟩ := Delivery.foldl_perform_talk (d := ({ sink } : Delivery σ)) htalk rfl
  refine ⟨talk, hlog, fun hflush => ?_, ?_⟩
  · simpa [Effect.isTalk] using htalk _ hflush
  · simp only [Enacted, hnone, hsame]
    exact hsink s sink

theorem pure (a : α) :
    Enacts told (Pure.pure a : Attempt (Live S σ) ε α) (Pure.pure a) :=
  of_talks (fun _ _ => rfl) fun l => .refl l

theorem sure {z : StateM S α} (htalked : ∀ s, Talked s (z.run s).2) :
    Enacts told (Live.sure z : Attempt (Live S σ) ε α) (Live.sure z) :=
  of_talks (fun _ _ => rfl) fun l => htalked l.state

theorem get {f : Live S σ → Attempt (Live S σ) ε α} {g : Live S Quiet → Attempt (Live S Quiet) ε α}
    (hf : ∀ s sink, Enacts told (f ⟨s, sink⟩) (g ⟨s, {}⟩)) :
    Enacts told (do f (← MonadState.get)) (do g (← MonadState.get)) :=
  fun s sink => hf s sink s sink

theorem forM {as : List β} {f : β → Attempt (Live S σ) ε PUnit}
    {g : β → Attempt (Live S Quiet) ε PUnit} (h : ∀ a, Enacts told (f a) (g a)) :
    Enacts told (as.forM f) (as.forM g) := by
  induction as with
  | nil => exact .pure _
  | cons a as ih => exact (h a).bind fun _ => ih

theorem mapM {as : List β} {f : β → Attempt (Live S σ) ε α}
    {g : β → Attempt (Live S Quiet) ε α} (h : ∀ a, Enacts told (f a) (g a)) :
    Enacts told (as.mapM f) (as.mapM g) := by
  induction as with
  | nil => exact .pure _
  | cons a as ih =>
    rw [List.mapM_cons, List.mapM_cons]
    exact (h a).bind fun _ => ih.bind fun _ => .pure _

theorem foldlM {as : List β} {f : α → β → Attempt (Live S σ) ε α}
    {g : α → β → Attempt (Live S Quiet) ε α} (h : ∀ a b, Enacts told (f a b) (g a b)) (a : α) :
    Enacts told (as.foldlM f a) (as.foldlM g a) := by
  induction as generalizing a with
  | nil => exact .pure _
  | cons b as ih =>
    rw [List.foldlM_cons, List.foldlM_cons]
    exact (h a b).bind ih

/-- An attempt on a part of the state, on the same sink. -/
theorem within (get : T → S) (put : S → T → T) (hpart : Part get put)
    {x : Attempt (Live S σ) ε α} {y : Attempt (Live S Quiet) ε α} (h : Enacts told x y) :
    Enacts told
      (Attempt.within (fun l => ⟨get l.state, l.sink⟩)
        (fun l t => ⟨put l.state t.state, l.sink⟩) x : Attempt (Live T σ) ε α)
      (Attempt.within (fun l => ⟨get l.state, l.sink⟩)
        (fun l t => ⟨put l.state t.state, l.sink⟩) y) := by
  intro t sink
  obtain ⟨effects, hlog, hflush, hend⟩ := h (get t) sink
  refine ⟨effects, ?_, hflush, ?_⟩
  · rw [hpart.log_get] at hlog
    simp only [Attempt.within]
    cases hy : y ⟨get t, {}⟩ <;>
    · rw [hy] at hlog
      exact (hpart.log_put _ t).trans hlog
  · simp only [Enacted, Attempt.within] at hend ⊢
    split at hend
    · rw [hend]
      cases y ⟨get t, {}⟩ <;> rfl
    · obtain ⟨e, s', htold, hrun, hlog'⟩ := hend
      refine ⟨e, put s' t, htold, by rw [hrun], ?_⟩
      rw [hpart.log_put, hlog', hpart.log_get]

/-- A sink that does not fail makes no difference. -/
theorem of_reliable {ready : σ → Prop} (hs : Sink.Reliable ready)
    {x : Attempt (Live S σ) ε α} {y : Attempt (Live S Quiet) ε α} (h : Enacts told x y) (s : S)
    {sink : σ} (hsink : ready sink) :
    ∃ sink', ready sink' ∧ x ⟨s, sink⟩ = onSink sink' (y ⟨s, {}⟩) := by
  obtain ⟨effects, -, -, hend⟩ := h s sink
  have hstart : Delivery.Sound ready ({ sink } : Delivery σ) := ⟨rfl, hsink⟩
  obtain ⟨hsound, -⟩ := hstart.foldl hs effects
  simp only [Enacted, hsound.failure?] at hend
  exact ⟨_, hsound.ready, hend⟩

theorem mapError {told' : SinkError → ε' → Prop} {f : ε → ε'}
    (htold : ∀ failure e, told failure e → told' failure (f e))
    {x : Attempt (Live S σ) ε α} {y : Attempt (Live S Quiet) ε α} (h : Enacts told x y) :
    Enacts told' (x.mapError f) (y.mapError f) := by
  intro s sink
  obtain ⟨effects, hlog, hflush, hend⟩ := h s sink
  refine ⟨effects, ?_, hflush, ?_⟩
  · simp only [Attempt.mapError]
    cases hy : y ⟨s, {}⟩ with
    | ok a l =>
      rw [hy] at hlog
      exact hlog
    | error fault l =>
      rw [hy] at hlog
      cases fault <;> exact hlog
  · simp only [Enacted] at hend ⊢
    split at hend
    · simp only [Attempt.mapError, hend]
      cases y ⟨s, {}⟩ with
      | ok a l => rfl
      | error fault l => cases fault <;> rfl
    · obtain ⟨e, s', he, hrun, hlog'⟩ := hend
      exact ⟨f e, s', htold _ e he, Attempt.mapError_of_error f hrun, hlog'⟩

end Enacts

end

namespace Live

variable [Sink σ]

/-- A refusal is an error, and the error tells what it was. -/
def Tells (failure : SinkError) (e : IndexError) : Prop := e = .sink failure

theorem write_enacts (entry : Entry) :
    Enacts Tells (write entry : Attempt (Live Session σ) IndexError Unit) (write entry) := by
  intro s sink
  refine ⟨[.write entry], Array.toList_push, by simp, ?_⟩
  cases hwrite : Sink.write entry sink with
  | mk result sink' =>
    cases result with
    | ok _ => simp [Enacted, Delivery.perform, write, hwrite, onSink, Sink.write]
    | error failure =>
      simp [Enacted, Delivery.perform, write, hwrite, Tells]

theorem nextId_enacts :
    Enacts Tells (nextId : Attempt (Live Session σ) IndexError Nat) nextId := by
  refine Enacts.of_talks (fun s sink => ?_) fun l => ?_
  · rw [nextId_run, nextId_run]
    split <;> rfl
  · rw [nextId_run]
    split <;> exact .of_eq rfl

theorem emit_enacts (type : EntryType) (element : Element) :
    Enacts Tells (emit type element : Attempt (Live Session σ) IndexError Nat)
      (emit type element) := by
  unfold emit
  exact nextId_enacts.bind fun id => (write_enacts _).bind fun _ => .pure _

theorem emitLink_enacts (id : Nat) (referrers : List Nat) :
    Enacts Tells (emitLink id referrers : Attempt (Live Session σ) IndexError Unit)
      (emitLink id referrers) := by
  unfold emitLink
  refine (emit_enacts .vertex .referenceResult).bind fun result => ?_
  refine (emit_enacts .edge _).bind fun _ => (emit_enacts .edge _).bind fun _ => ?_
  exact (emit_enacts .edge _).bind fun _ => .pure _

theorem emitLinks_enacts :
    Enacts Tells (emitLinks : Attempt (Live Session σ) IndexError Nat) emitLinks := by
  refine Enacts.get fun s sink => ?_
  refine Enacts.bind (.forM fun entry => ?_) fun _ => .pure _
  exact emitLink_enacts entry.1 entry.2

section

variable {told : SinkError → ε → Prop} {c : FileContext}

theorem inSession_enacts {x : Attempt (Live Session σ) ε α} {y : Attempt (Live Session Quiet) ε α}
    (h : Enacts told x y) : Enacts told (Live.inSession x) (Live.inSession y) :=
  Enacts.within Recorder.session (fun session r => { r with session })
    ⟨fun _ => rfl, fun _ _ => rfl⟩ h

theorem recording_enacts {x : Attempt (Live Recorder σ) ε α}
    {y : Attempt (Live Recorder Quiet) ε α} (h : Enacts told x y) :
    Enacts told (recording x) (recording y) :=
  Enacts.within (fun session => ({ session } : Recorder)) (fun r _ => r.session)
    ⟨fun _ => rfl, fun _ _ => rfl⟩ h

theorem resolve_enacts (index : Nat) :
    Enacts told (resolve c index : Attempt (Live Recorder σ) ε Symbol) (resolve c index) := by
  have htalks := (World.symbolOf_counts (w := c.world) (ε := ε) c.options.maxSymbolDepth
    ⟨c.fileId, some index⟩).talks
  refine Enacts.of_talks (fun r sink => ?_) fun l => ?_
  · simp only [resolve, Attempt.within]
    cases c.world.symbolOf c.options.maxSymbolDepth ⟨c.fileId, some index⟩ r.memory <;> rfl
  · have htalked := htalks l.state.memory
    simp only [resolve, Attempt.within]
    cases hrun : c.world.symbolOf c.options.maxSymbolDepth ⟨c.fileId, some index⟩
        l.state.memory <;>
    · rw [hrun] at htalked
      exact htalked

theorem modify_enacts {g : Recorder → Recorder} (hlog : ∀ r, log (g r) = log r) :
    Enacts told (sure (modify g) : Attempt (Live Recorder σ) ε Unit) (sure (modify g)) :=
  .sure fun r => .of_eq (hlog r)

theorem collectReferences_enacts (id offset : Nat) :
    Enacts told (collectReferences c id offset : Attempt (Live Recorder σ) ε Unit)
      (collectReferences c id offset) := by
  refine Enacts.bind (.sure fun r => ?_) fun found => ?_
  · exact Memory.consult_talked _ _ _ r.memory
  refine Enacts.bind (.mapM fun r => ?_) fun located => .sure fun r => .of_eq rfl
  unfold locate
  split
  · exact .pure _
  · exact .of_talks (fun _ _ => rfl) fun l => .refl l

theorem openComponent_enacts (index : Nat) (n : Node) (s : Symbol) :
    Enacts Tells (openComponent c index n s : Attempt (Live Recorder σ) IndexError Unit)
      (openComponent c index n s) := by
  unfold openComponent
  refine (inSession_enacts (emit_enacts .vertex .resultSet)).bind fun _ => ?_
  refine (inSession_enacts (emit_enacts .vertex .moniker)).bind fun _ => ?_
  refine (inSession_enacts (emit_enacts .vertex _)).bind fun id => ?_
  refine Enacts.bind (.sure fun r => .of_eq rfl) fun _ => ?_
  exact (collectReferences_enacts id _).bind fun _ => modify_enacts fun _ => rfl

theorem openDeclaration_enacts (index : Nat) (n : Node) :
    Enacts Tells (openDeclaration c index n : Attempt (Live Recorder σ) IndexError Bool)
      (openDeclaration c index n) := by
  unfold openDeclaration
  split
  · refine (resolve_enacts index).bind fun s => ?_
    have hopen : Enacts Tells
        (do openComponent c index n s; pure true : Attempt (Live Recorder σ) IndexError Bool)
        (do openComponent c index n s; pure true) :=
      (openComponent_enacts index n s).bind fun _ => .pure _
    cases s with
    | fileLocal =>
      cases c.options.includeLocals with
      | false => exact .pure _
      | true => exact hopen
    | empty => exact hopen
    | global => exact hopen
  · exact .pure _

theorem closeComponent_enacts :
    Enacts Tells (closeComponent c : Attempt (Live Recorder σ) IndexError Unit)
      (closeComponent c) := by
  unfold closeComponent
  refine Enacts.get fun r sink => ?_
  dsimp only
  cases r.components.exit with
  | mk component? components =>
  cases component? with
  | none => exact .pure _
  | some component =>
    refine Enacts.bind (modify_enacts fun _ => rfl) fun _ => ?_
    have hclosed : Enacts Tells
        (sure (modify fun r => { r with closed := component :: r.closed }) :
          Attempt (Live Recorder σ) IndexError Unit)
        (sure (modify fun r => { r with closed := component :: r.closed })) :=
      modify_enacts fun _ => rfl
    split
    · exact (inSession_enacts (emit_enacts .vertex _)).bind fun _ => hclosed
    · exact hclosed

theorem fail_enacts [Logged S] (e : ε) :
    Enacts told (Attempt.fail e : Attempt (Live S σ) ε α) (Attempt.fail e) :=
  .of_talks (fun _ _ => rfl) fun l => .refl l

theorem enter_enacts {index : Nat} {n : Node}
    {rest : Bool → Attempt (Live Recorder σ) IndexError Unit}
    {rest' : Bool → Attempt (Live Recorder Quiet) IndexError Unit}
    (hrest : ∀ opened, Enacts Tells (rest opened) (rest' opened)) :
    Enacts Tells
      (do
        if n.isKey then let _ ← resolve c index
        let opened ← openDeclaration c index n
        rest opened)
      (do
        if n.isKey then let _ ← resolve c index
        let opened ← openDeclaration c index n
        rest' opened) := by
  have hopen := (openDeclaration_enacts (σ := σ) (c := c) index n).bind hrest
  split
  · exact (resolve_enacts index).bind fun _ => hopen
  · exact hopen

theorem leave_enacts (opened : Bool) :
    Enacts Tells
      (do
        if opened then
          closeComponent c
          sure (modify fun r => { r with outline := r.outline.exit }) :
        Attempt (Live Recorder σ) IndexError Unit)
      (do
        if opened then
          closeComponent c
          sure (modify fun r => { r with outline := r.outline.exit })) := by
  cases opened with
  | true => exact closeComponent_enacts.bind fun _ => modify_enacts fun _ => rfl
  | false => exact .pure _

theorem visit_enacts (levels : Nat) (r : NodeRef) :
    Enacts Tells (visit c levels r : Attempt (Live Recorder σ) IndexError Unit)
      (visit c levels r) := by
  induction levels using Nat.strongRecOn generalizing r with
  | ind levels ih =>
    unfold visit
    cases r with
    | none => exact .pure _
    | some index =>
      cases c.file.arena.get? (some index) with
      | none => exact .pure _
      | some n =>
        dsimp only
        split
        · exact .pure _
        cases levels with
        | zero => exact fail_enacts _
        | succ levels =>
          refine enter_enacts fun opened => ?_
          refine Enacts.bind (.forM fun step => ?_) fun _ => leave_enacts opened
          cases step with
          | operator token => exact modify_enacts fun _ => rfl
          | operand token => exact modify_enacts fun _ => rfl
          | visit r => exact ih levels (Nat.lt_succ_self levels) r

theorem recordFile_enacts (document : Nat) :
    Enacts Tells (recordFile c document : Attempt (Live Recorder σ) IndexError FileSummary)
      (recordFile c document) := by
  unfold recordFile
  refine Enacts.bind (.sure fun r => .of_eq rfl) fun _ => ?_
  refine Enacts.bind (modify_enacts fun _ => rfl) fun _ => ?_
  refine (visit_enacts _ _).bind fun _ => closeComponent_enacts.bind fun _ => ?_
  refine Enacts.get fun r sink => ?_
  have hlast : Enacts Tells
      (do
        let components := sortBy (fun a b => a.id ≤ b.id) (← get).state.closed
        pure ⟨document, components, r.outline.finish⟩ :
        Attempt (Live Recorder σ) IndexError FileSummary)
      (do
        let components := sortBy (fun a b => a.id ≤ b.id) (← get).state.closed
        pure ⟨document, components, r.outline.finish⟩) :=
    Enacts.get fun r' sink' => .pure _
  dsimp only
  split
  · refine Enacts.bind (.forM fun tree => ?_) fun _ => hlast
    exact (inSession_enacts (emit_enacts .vertex _)).bind fun _ => .pure _
  · exact hlast

theorem index_enacts (document : Nat) :
    Enacts Tells (index c document : Attempt (Live Session σ) IndexError FileSummary)
      (index c document) := by
  unfold index
  split
  · exact recording_enacts (recordFile_enacts document)
  · exact fail_enacts _

end

end Live

namespace Project

variable [Sink σ] {p : Project}

/-- The failure of a sink fails a run, whatever was being written. -/
def Tells (failure : SinkError) (e : ProjectError) : Prop := ∃ purpose, e = .sink purpose failure

theorem inContext_enacts {purpose : Purpose} {x : Attempt (Live Session σ) IndexError α}
    {y : Attempt (Live Session Quiet) IndexError α} (h : Enacts Live.Tells x y) :
    Enacts Tells (inContext purpose x) (inContext purpose y) :=
  h.mapError fun _ _ he => ⟨purpose, congrArg (ProjectError.index purpose) he⟩

theorem writeFile_enacts (fileId : Nat) (file : SourceFile) :
    Enacts Live.Tells
      (p.writeFile fileId file : Attempt (Live Session σ) IndexError FileSummary)
      (p.writeFile fileId file) := by
  unfold writeFile
  exact (Live.emit_enacts .vertex _).bind fun document => Live.index_enacts document

theorem writeNext_run (counts : Nat × Nat) (next : SourceFile × Nat) (l : Live Session σ) :
    p.writeNext counts next l =
      match p.writeFile next.2 next.1 l with
      | .ok _ l => .ok (counts.1 + 1, counts.2) l
      | .error (.error (.sink failure)) l =>
        .error (.error (.sink (.file next.1.name) failure)) l
      | .error (.error _) l => .ok (counts.1, counts.2 + 1) l
      | .error (.overflow o) l => .error (.overflow o) l := by
  unfold writeNext
  cases hfile : p.writeFile next.2 next.1 l with
  | ok summary l' => exact bind_of_ok (Attempt.caught_of_ok hfile)
  | error fault l' =>
    cases fault with
    | error e =>
      rw [bind_of_ok (Attempt.caught_of_error hfile)]
      cases e <;> rfl
    | overflow o => exact bind_of_error (Attempt.caught_of_overflow hfile)

/-- A file that fails is counted, but the failure of a sink goes on. -/
theorem writeNext_enacts (counts : Nat × Nat) (next : SourceFile × Nat) :
    Enacts Tells
      (p.writeNext counts next : Attempt (Live Session σ) ProjectError (Nat × Nat))
      (p.writeNext counts next) := by
  intro s sink
  obtain ⟨effects, hlog, hflush, hend⟩ := writeFile_enacts (p := p) next.2 next.1 s sink
  refine ⟨effects, ?_, hflush, ?_⟩
  · rw [writeNext_run]
    cases hy : p.writeFile next.2 next.1 (⟨s, {}⟩ : Live Session Quiet) with
    | ok summary l =>
      rw [hy] at hlog
      exact hlog
    | error fault l =>
      rw [hy] at hlog
      cases fault with
      | error e => cases e <;> exact hlog
      | overflow o => exact hlog
  · simp only [Enacted, writeNext_run] at hend ⊢
    split at hend
    · rw [hend]
      cases p.writeFile next.2 next.1 (⟨s, {}⟩ : Live Session Quiet) with
      | ok summary l => rfl
      | error fault l =>
        cases fault with
        | error e => cases e <;> rfl
        | overflow o => rfl
    · obtain ⟨_, s', rfl, hrun, hlog'⟩ := hend
      exact ⟨_, s', ⟨.file next.1.name, rfl⟩, by rw [hrun], hlog'⟩

theorem writeAll_enacts :
    Enacts Tells (p.writeAll : Attempt (Live Session σ) ProjectError Summary) p.writeAll := by
  unfold writeAll
  refine (inContext_enacts (Live.emit_enacts .vertex _)).bind fun _ => ?_
  refine (inContext_enacts (Live.emit_enacts .vertex _)).bind fun _ => ?_
  refine (Enacts.foldlM writeNext_enacts (0, 0)).bind fun counts => ?_
  refine Enacts.get fun s sink => ?_
  exact (inContext_enacts Live.emitLinks_enacts).bind fun _ => .pure _

theorem run_of_files (hsize : p.program.size ≠ 0) (l : Live Session σ) :
    p.run l = (do
      let summary ← p.writeAll
      inContext .flush Live.flush
      pure summary : Attempt (Live Session σ) ProjectError Summary) l := by
  simp [run, hsize]

end Project

end SourceIndex
