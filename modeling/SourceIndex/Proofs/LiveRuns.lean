import SourceIndex.Proofs.Declarations
import SourceIndex.Proofs.SinkRuns
import SourceIndex.Proofs.Visits

/-! A run that writes while it works is the plan carried out. Each stage of the plan has the effects
that the run has there, so both end alike on any sink, unless a number of the run overflows. -/

namespace SourceIndex

variable {σ ε α β : Type} [Sink σ]

namespace Session

/-- A session in which this was done before. -/
def after (done : Journal) (s : Session) : Session := { s with journal := done ++ s.journal }

/-- Never looks at the journal, and only adds to it. -/
def Appends (z : StateM Session α) : Prop :=
  ∀ s done, z.run (after done s) = ((z.run s).1, after done (z.run s).2)

theorem appends_of_inStep {z : StateM Session α}
    (h : ∀ done : Journal, InStep (Session.Alike fun j j' => j' = done ++ j) Eq z z) :
    Appends z := by
  intro s done
  obtain ⟨hresult, _, hstate, rfl⟩ := h done s (after done s) ⟨_, rfl, rfl⟩
  exact Prod.ext hresult.symm hstate

theorem log_after (done : Journal) (s : Session) : log (after done s) = done.toList ++ log s :=
  Array.toList_append

end Session

theorem Collaborators.corresponds_after (c : Collaborators) (done : Journal) :
    c.Corresponds c fun j j' => j' = done ++ j where
  package := rfl
  write := by rintro j _ rfl e; simp
  consult := by
    rintro j _ rfl q
    cases hanswer : c.answer q with
    | ok a => exact ⟨rfl, by simp [Journal.consult]⟩
    | error e => cases hdefect : e.isDefect <;> exact ⟨rfl, by simp [Journal.consult, hdefect]⟩

/-- The session of a run, with what was carried out in its journal. -/
def Delivery.live (d : Delivery σ) (s : Session) : Live Session σ :=
  ⟨{ s with journal := d.performed }, d.sink⟩

/-- The end of an attempt that does not overflow. -/
def ended {S : Type} : Except ε α → S → EStateM.Result (Fault ε) S α
  | .ok a, s => .ok a s
  | .error e, s => .error (.error e) s

section

variable {S τ : Type} {result : Except ε α}

theorem stateAfter_ended (result : Except ε α) (s : S) : stateAfter (ended result s) = s := by
  cases result <;> rfl

theorem onSink_ended (result : Except ε α) (s : S) (sink : τ) :
    onSink sink (ended result (⟨s, {}⟩ : Live S Quiet)) = ended result ⟨s, sink⟩ := by
  cases result <;> rfl

theorem ended_eq_ok {a : α} {s s' : S} (h : ended result s = .ok a s') :
    result = .ok a ∧ s = s' := by
  cases result with
  | ok _ =>
    obtain ⟨rfl, rfl⟩ := EStateM.Result.ok.inj h
    exact ⟨rfl, rfl⟩
  | error e => cases h

end

section

variable {s : Session} {d : Delivery σ} {x : Attempt (Live Session σ) IndexError α}
  {y : Attempt (Live Session Quiet) IndexError α} {z : StateM Session (Except IndexError α)}
  {full : Overflow → Live Session Quiet → Prop}

/-- Where it does not overflow, an attempt ends as it is planned. -/
theorem ended_of_follows (hy : Follows Live.IsSession Live.IsSession Live.IsSession full y z)
    (s : Session) :
    (∃ o l, y ⟨s, {}⟩ = .error (.overflow o) l ∧ log l <+: log (z.run s).2) ∨
      y ⟨s, {}⟩ = ended (z.run s).1 ⟨(z.run s).2, {}⟩ := by
  have hmatches := hy.ends ⟨s, {}⟩ s rfl
  cases hrun : y ⟨s, {}⟩ with
  | ok a l =>
    rw [hrun] at hmatches
    obtain ⟨hresult, hstate⟩ : (z.run s).1 = .ok a ∧ (z.run s).2 = l.state := hmatches
    rw [hresult, hstate]
    exact .inr rfl
  | error fault l =>
    rw [hrun] at hmatches
    cases fault with
    | error e =>
      obtain ⟨hresult, hstate⟩ : (z.run s).1 = .error e ∧ (z.run s).2 = l.state := hmatches
      rw [hresult, hstate]
      exact .inr rfl
    | overflow o => exact .inl ⟨o, l, rfl, hmatches.2⟩

/-- What an attempt does is the beginning of what is planned, and all of it unless it overflows. -/
theorem planned_of_follows (hy : Follows Live.IsSession Live.IsSession Live.IsSession full y z)
    (hz : Session.Appends z) {done : Journal} {effects : List Effect} (hs : s.journal = #[])
    (hlog : log (stateAfter (y ⟨s.after done, {}⟩)) = log (s.after done) ++ effects) :
    ∃ rest, (z.run s).2.journal.toList = effects ++ rest ∧
      ((∃ o l, y ⟨s.after done, {}⟩ = .error (.overflow o) l) ∨
        rest = [] ∧ y ⟨s.after done, {}⟩ = ended (z.run s).1 ⟨(z.run s).2.after done, {}⟩) := by
  have hnothing : log s = [] := by simp [log, hs]
  rw [Session.log_after, hnothing, List.append_nil] at hlog
  have hplanned : log ((z.run s).2.after done) = done.toList ++ (z.run s).2.journal.toList :=
    Session.log_after done _
  rcases ended_of_follows hy (s.after done) with ⟨o, l, hrun, rest, hrest⟩ | hrun
  · rw [hrun] at hlog
    rw [hz] at hrest
    refine ⟨rest, ?_, .inl ⟨o, l, hrun⟩⟩
    have hdone : log l = done.toList ++ effects := hlog
    have hall := hrest.trans hplanned
    rw [hdone, List.append_assoc] at hall
    exact (List.append_cancel_left hall).symm
  · rw [hz] at hrun
    rw [hrun, stateAfter_ended] at hlog
    refine ⟨[], ?_, .inr ⟨rfl, hrun⟩⟩
    rw [List.append_nil]
    exact List.append_cancel_left (hplanned.symm.trans hlog)

/-- What is done on any sink is the beginning of what is planned, and all of it after a success. -/
theorem log_of_follows (hx : Enacts Live.Tells x y)
    (hy : Follows Live.IsSession Live.IsSession Live.IsSession full y z) (s : Session) (sink : σ) :
    (∃ done, log (stateAfter (x ⟨s, sink⟩)) = log s ++ done ∧ log s ++ done <+: log (z.run s).2) ∧
      ∀ a l, x ⟨s, sink⟩ = .ok a l → z.run s = (.ok a, l.state) := by
  obtain ⟨effects, hlog, -, hend⟩ := hx s sink
  have hquiet : log s ++ effects <+: log (z.run s).2 := by
    rw [← hlog]
    rcases ended_of_follows hy s with ⟨o, l, hrun, hgrows⟩ | hrun
    · rw [hrun]
      exact hgrows
    · rw [hrun, stateAfter_ended]
      exact List.prefix_rfl
  simp only [Enacted] at hend
  split at hend
  · rw [hend]
    refine ⟨⟨effects, ?_, hquiet⟩, fun a l hok => ?_⟩
    · rw [← hlog]
      cases y ⟨s, {}⟩ <;> rfl
    · rcases ended_of_follows hy s with ⟨o, l', hrun, -⟩ | hrun
      · rw [hrun] at hok
        cases hok
      · rw [hrun, onSink_ended] at hok
        obtain ⟨hresult, rfl⟩ := ended_eq_ok hok
        exact Prod.ext hresult rfl
  · obtain ⟨e, s', -, hrun, hdone⟩ := hend
    rw [hrun]
    refine ⟨⟨_, hdone, List.IsPrefix.trans ?_ hquiet⟩, fun a l hok => by cases hok⟩
    exact (List.prefix_append_right_inj _).mpr
      (Delivery.foldl_perform_isPrefix effects ({ sink } : Delivery σ))

/-- With these effects left to carry out, an attempt overflows or it ends as they do. -/
theorem carried_of_follows (hx : Enacts Live.Tells x y)
    (hy : Follows Live.IsSession Live.IsSession Live.IsSession full y z) (hz : Session.Appends z)
    (hs : s.journal = #[]) (hd : d.failure? = none) :
    (∃ o l, x (d.live s) = .error (.overflow o) l) ∨
      let d' := d.performAll (z.run s).2.journal
      match d'.failure? with
      | none => x (d.live s) = ended (z.run s).1 (d'.live (z.run s).2)
      | some failure => ∃ s', x (d.live s) = .error (.error (.sink failure)) (d'.live s') := by
  have hlive : d.live s = ⟨s.after d.performed, d.sink⟩ := by
    simp [Delivery.live, Session.after, hs]
  rw [hlive]
  obtain ⟨effects, hlog, -, hend⟩ := hx (s.after d.performed) d.sink
  obtain ⟨rest, hrest, hquiet⟩ := planned_of_follows hy hz hs hlog
  dsimp only
  rw [Delivery.performAll, ← Array.foldl_toList, hrest, List.foldl_append]
  have hsink := Delivery.foldl_perform_of_sink effects hd
  cases hfailure : (effects.foldl Delivery.perform ({ sink := d.sink } : Delivery σ)).failure? with
  | some failure =>
    simp only [Enacted, hfailure] at hend
    obtain ⟨_, s', rfl, hrun, hlog'⟩ := hend
    have hstops : (effects.foldl Delivery.perform d).failure? = some failure := by
      rw [hsink]
      exact hfailure
    rw [Delivery.foldl_perform_failed (by rw [hstops]; rfl), hstops]
    refine .inr ⟨s', ?_⟩
    have hnothing : log s = [] := by simp [log, hs]
    rw [Session.log_after, hnothing, List.append_nil] at hlog'
    have hjournal : s'.journal = (effects.foldl Delivery.perform d).performed := by
      rw [hsink]
      exact Array.toList_inj.mp (hlog'.trans Array.toList_append.symm)
    rw [hrun, Delivery.live, ← hjournal, hsink]
  | none =>
    have hgoes : (effects.foldl Delivery.perform d).failure? = none := by
      rw [hsink]
      exact hfailure
    simp only [Enacted, hfailure] at hend
    rcases hquiet with ⟨o, l, hoverflow⟩ | ⟨rfl, hends⟩
    · exact .inl ⟨o, ⟨l.state, _⟩, by rw [hend, hoverflow]; rfl⟩
    · right
      rw [List.append_nil] at hrest
      rw [List.foldl_nil, hgoes]
      have hperformed : d.performed ++ (z.run s).2.journal =
          (effects.foldl Delivery.perform d).performed := by
        refine Array.toList_inj.mp ?_
        rw [Delivery.foldl_perform_performed hgoes, Array.toList_append, hrest]
      have hstate : (z.run s).2.after d.performed =
          { (z.run s).2 with journal := (effects.foldl Delivery.perform d).performed } :=
        congrArg (fun journal => { (z.run s).2 with journal }) hperformed
      rw [hend, hends, hstate]
      cases (z.run s).1 <;> simp only [ended, onSink, Delivery.live, hsink]

end

/-- Carrying out these stages, a run overflows or it ends as they do: with this result and session,
or with the failure of the sink and the purpose for which it was used. -/
def Staged (d : Delivery σ) (stages : List Stage) (planned : α × Session)
    (result : EStateM.Result (Fault ProjectError) (Live Session σ) α) : Prop :=
  (∃ o l, result = .error (.overflow o) l) ∨
    match Delivery.performStages stages d with
    | (none, d') => result = .ok planned.1 (d'.live planned.2)
    | (some (purpose, failure), d') =>
      ∃ s, result = .error (.error (.sink purpose failure)) (d'.live s)

namespace Staged

variable {d : Delivery σ} {stages stages' : List Stage} {s : Session}

theorem nil (a : α) : Staged d [] (a, s) (.ok a (d.live s)) := .inr rfl

theorem single {purpose : Purpose} {effects : Journal} {planned : α × Session}
    {result : EStateM.Result (Fault ProjectError) (Live Session σ) α}
    (h : (∃ o l, result = .error (.overflow o) l) ∨
      let d' := d.performAll effects
      match d'.failure? with
      | none => result = .ok planned.1 (d'.live planned.2)
      | some failure => ∃ s, result = .error (.error (.sink purpose failure)) (d'.live s)) :
    Staged d [⟨purpose, effects⟩] planned result := by
  refine h.imp_right fun h => ?_
  dsimp only at h
  cases hfailure : (d.performAll effects).failure?
  all_goals
    rw [hfailure] at h
    simp only [Delivery.performStages, hfailure]
    exact h

/-- One part of a run after another. -/
theorem bind {a : α} {planned : β × Session} {l : Live Session σ}
    {x : Attempt (Live Session σ) ProjectError α}
    {f : α → Attempt (Live Session σ) ProjectError β} (hx : Staged d stages (a, s) (x l))
    (hd : d.failure? = none)
    (hf : ∀ d' : Delivery σ, d'.failure? = none → Staged d' stages' planned (f a (d'.live s))) :
    Staged d (stages ++ stages') planned ((x >>= f) l) := by
  rcases hx with ⟨o, l', hoverflow⟩ | hx
  · exact .inl ⟨o, l', bind_of_error hoverflow⟩
  have hsame := (Delivery.performStages_eq stages hd).2
  cases hperform : Delivery.performStages stages d with
  | mk failed d' =>
    rw [hperform] at hx hsame
    cases failed with
    | none =>
      rw [bind_of_ok hx, Staged, Delivery.performStages_append, hperform]
      exact hf d' hsame.symm
    | some failed =>
      obtain ⟨s', hrun⟩ := hx
      rw [bind_of_error hrun, Staged, Delivery.performStages_append, hperform]
      exact .inr ⟨s', rfl⟩

end Staged

namespace Session

theorem emit_appends (type : EntryType) (element : Element) : Appends (emit type element) :=
  appends_of_inStep fun done => emit_inStep (Collaborators.none.corresponds_after done) type element

theorem emitLinks_appends : Appends emitLinks :=
  appends_of_inStep fun done => emitLinks_inStep (Collaborators.none.corresponds_after done)

end Session

namespace Project

variable {p : Project} {d : Delivery σ} {s : Session}

theorem inContext_staged (purpose : Purpose) {x : Attempt (Live Session σ) IndexError α}
    {y : Attempt (Live Session Quiet) IndexError α} {z : StateM Session α}
    (hx : Enacts Live.Tells x y)
    (hy : Agrees Live.IsSession Live.IsSession Session.Full y z) (hz : Session.Appends z)
    (hs : s.journal = #[]) (hd : d.failure? = none) :
    Staged d [⟨purpose, (z.run s).2.journal⟩] ((z.run s).1, (Session.takeJournal.run (z.run s).2).2)
      (inContext purpose x (d.live s)) := by
  have happends : Session.Appends (Except.ok (ε := IndexError) <$> z) := by
    intro s done
    exact congrArg (fun r : α × Session => (Except.ok r.1, r.2)) (hz s done)
  refine .single ?_
  rcases carried_of_follows hx hy.follows happends hs hd with ⟨o, l, hoverflow⟩ | hcarried
  · exact .inl ⟨o, l, Attempt.mapError_of_overflow _ hoverflow⟩
  refine .inr ?_
  dsimp only at hcarried ⊢
  have hjournal : ((Except.ok (ε := IndexError) <$> z).run s).2.journal = (z.run s).2.journal := rfl
  rw [hjournal] at hcarried
  cases hfailure : (d.performAll (z.run s).2.journal).failure? with
  | none =>
    rw [hfailure] at hcarried
    exact Attempt.mapError_of_ok _ hcarried
  | some failure =>
    rw [hfailure] at hcarried
    obtain ⟨s', hrun⟩ := hcarried
    exact ⟨s', Attempt.mapError_of_error _ hrun⟩

/-- A file's document and then its index, as they are planned. -/
def planFile (p : Project) (fileId : Nat) (file : SourceFile) :
    StateM Session (Except IndexError FileSummary) := do
  let document ← Session.vertex
    (.document (Path.fileUri (Path.joinText p.options.projectRoot file.name))
      file.scriptKind.isJavaScript)
  (p.context fileId file).index document

theorem writeFile_follows (fileId : Nat) (file : SourceFile) :
    Follows Live.IsSession Live.IsSession Live.IsSession (fun _ _ => True)
      (p.writeFile fileId file) (p.planFile fileId file) := by
  have hdocument := Live.emit_agrees .vertex
    (.document (Path.fileUri (Path.joinText p.options.projectRoot file.name))
      file.scriptKind.isJavaScript)
  refine Agrees.then (Follows.weaken hdocument fun _ _ _ => trivial) fun document => ?_
  exact Live.index_follows document

theorem planFile_appends (fileId : Nat) (file : SourceFile) :
    Session.Appends (p.planFile fileId file) := by
  refine Session.appends_of_inStep fun done => ?_
  have hcorresponds := p.collaborators.corresponds_after done
  refine (Session.emit_inStep hcorresponds .vertex _).bind_eq fun document => ?_
  exact FileContext.index_inStep (c := p.context fileId file) hcorresponds document

theorem indexFile_run_eq (fileId : Nat) (file : SourceFile) (s : Session) :
    (p.indexFile fileId file).run s =
      (((p.planFile fileId file).run s).1.isOk, ((p.planFile fileId file).run s).2) := by
  simp only [indexFile, planFile, run_bind]
  split
  all_goals
    next h =>
      rw [h]
      rfl

theorem planFile_ne_sink (fileId : Nat) (file : SourceFile) (s : Session) (failure : SinkError) :
    ((p.planFile fileId file).run s).1 ≠ .error (.sink failure) := by
  intro hsink
  have hfault := (FileContext.index_error_iff _ _ _).mp hsink
  unfold SourceFile.fault? at hfault
  split at hfault
  · split at hfault <;> simp at hfault
  · simp at hfault

/-- One more file, with its outcome as it is planned. -/
theorem writeNext_staged (counts : Nat × Nat) (next : SourceFile × Nat) (hs : s.journal = #[])
    (hd : d.failure? = none) :
    let planned := (p.indexFile next.2 next.1).run s
    Staged d [⟨.file next.1.name, planned.2.journal⟩]
      (if planned.1 then (counts.1 + 1, counts.2) else (counts.1, counts.2 + 1),
        (Session.takeJournal.run planned.2).2)
      (p.writeNext counts next (d.live s)) := by
  dsimp only
  rw [indexFile_run_eq]
  refine .single ?_
  rw [writeNext_run]
  rcases carried_of_follows (writeFile_enacts next.2 next.1) (writeFile_follows next.2 next.1)
    (planFile_appends next.2 next.1) hs hd with ⟨o, l, hoverflow⟩ | hcarried
  · exact .inl ⟨o, l, by rw [hoverflow]⟩
  refine .inr ?_
  dsimp only at hcarried ⊢
  cases hfailure : (d.performAll ((p.planFile next.2 next.1).run s).2.journal).failure? with
  | some failure =>
    rw [hfailure] at hcarried
    obtain ⟨s', hrun⟩ := hcarried
    exact ⟨s', by rw [hrun]⟩
  | none =>
    rw [hfailure] at hcarried
    rw [hcarried]
    have hsink := planFile_ne_sink (p := p) next.2 next.1 s
    cases hresult : ((p.planFile next.2 next.1).run s).1 with
    | ok summary => rfl
    | error e =>
      cases e with
      | sink failure => exact absurd hresult (hsink failure)
      | tooDeep file => rfl
      | notASourceFile node file => rfl

theorem indexFiles_journal (files : List (SourceFile × Nat)) (hs : s.journal = #[]) :
    ((p.indexFiles files).run s).2.journal = #[] := by
  induction files generalizing s with
  | nil => exact hs
  | cons next files ih =>
    rw [indexFiles_cons]
    exact ih rfl

/-- File after file, by induction on the files that are left. -/
theorem writeFiles_staged (files : List (SourceFile × Nat)) (counts : Nat × Nat)
    (hs : s.journal = #[]) (hd : d.failure? = none) :
    let planned := (p.indexFiles files).run s
    Staged d (planned.1.map (·.2))
      ((counts.1 + planned.1.countP (·.1), counts.2 + planned.1.countP (!·.1)), planned.2)
      (files.foldlM p.writeNext counts (d.live s)) := by
  induction files generalizing s d counts with
  | nil => exact .nil counts
  | cons next files ih =>
    set planned := (p.indexFile next.2 next.1).run s
    rw [indexFiles_cons, List.foldlM_cons]
    refine Staged.bind (writeNext_staged counts next hs hd) hd fun d' hd' => ?_
    have hcounts : ∀ (indexed : Bool) (rest : List (Bool × Stage)),
        (counts.1 + ((indexed, (⟨.file next.1.name, planned.2.journal⟩ : Stage)) ::
            rest).countP (·.1),
          counts.2 + ((indexed, (⟨.file next.1.name, planned.2.journal⟩ : Stage)) ::
            rest).countP (!·.1)) =
        ((if indexed then (counts.1 + 1, counts.2) else (counts.1, counts.2 + 1)).1 +
            rest.countP (·.1),
          (if indexed then (counts.1 + 1, counts.2) else (counts.1, counts.2 + 1)).2 +
            rest.countP (!·.1)) := by
      intro indexed rest
      cases indexed <;> simp [Nat.add_assoc, Nat.add_comm]
    rw [hcounts]
    exact ih _ rfl hd'

/-- All but the flush at the end. -/
theorem writeAll_staged (p : Project) (sink : σ) :
    ∃ (stages : List Stage) (s : Session), p.plan.stages = stages ++ [⟨.flush, #[.flush]⟩] ∧
      Staged ({ sink } : Delivery σ) stages (p.plan.summary, s) (p.writeAll ⟨{}, sink⟩) := by
  have hvertex : ∀ (purpose : Purpose) (element : Element) (s : Session) (d : Delivery σ),
      s.journal = #[] → d.failure? = none →
      Staged d [⟨purpose, ((Session.vertex element).run s).2.journal⟩]
        (((Session.vertex element).run s).1,
          (Session.takeJournal.run ((Session.vertex element).run s).2).2)
        (inContext purpose (Live.vertex element) (d.live s)) := fun purpose element s d hs hd =>
    inContext_staged purpose (Live.emit_enacts .vertex element) (Live.emit_agrees .vertex element)
      (Session.emit_appends .vertex element) hs hd
  have hrecorded : p.recorded.journal = #[] := indexFiles_journal _ rfl
  have hstages : p.plan.stages =
      ([⟨.metadata, #[.write ⟨1, .vertex, .metaData (Path.fileUri p.options.projectRoot)⟩]⟩] ++
        ([⟨.project, #[.write ⟨2, .vertex, .project "typescript"⟩]⟩] ++
          (((p.indexFiles p.program.files.toList.zipIdx).run begun).1.map (·.2) ++
            ([⟨.links, (Session.emitLinks.run p.recorded).2.journal⟩] ++ [])))) ++
        [⟨.flush, #[.flush]⟩] := by
    rw [plan_stages]
    simp
  refine ⟨_, (Session.takeJournal.run (Session.emitLinks.run p.recorded).2).2, hstages, ?_⟩
  refine Staged.bind (hvertex .metadata _ {} _ rfl rfl) rfl fun d hd => ?_
  refine Staged.bind (hvertex .project (.project "typescript") _ d rfl hd) hd fun d hd => ?_
  refine Staged.bind (writeFiles_staged (s := begun) _ (0, 0) rfl hd) hd fun d hd => ?_
  have hlinks := inContext_staged .links Live.emitLinks_enacts Live.emitLinks_agrees
    Session.emitLinks_appends hrecorded hd
  refine Staged.bind (f := fun linked => pure
    (⟨0 + _, 0 + _, p.recorded.definitions.size, linked⟩ : Summary)) hlinks hd fun d hd => ?_
  have hsummary : p.plan.summary =
      ⟨0 + ((p.indexFiles p.program.files.toList.zipIdx).run begun).1.countP (·.1),
        0 + ((p.indexFiles p.program.files.toList.zipIdx).run begun).1.countP (!·.1),
        p.recorded.definitions.size, (Session.emitLinks.run p.recorded).1⟩ := by
    rw [Nat.zero_add, Nat.zero_add]
    rfl
  rw [hsummary]
  exact .nil _

theorem flush_staged (a : α) (hd : d.failure? = none) :
    Staged d [⟨.flush, #[.flush]⟩] (a, s)
      ((do
        inContext .flush Live.flush
        pure a : Attempt (Live Session σ) ProjectError α) (d.live s)) := by
  have hperform : d.performAll #[.flush] = d.perform .flush := rfl
  refine .single (.inr ?_)
  dsimp only
  rw [hperform]
  cases hflush : Sink.flush d.sink with
  | mk result sink' =>
    cases result with
    | ok _ =>
      have hrun : Live.flush (d.live s) = .ok () ((d.perform .flush).live s) := by
        simp [Live.flush, Delivery.live, hflush, Delivery.perform, hd, Live.note]
      have hnone : (d.perform .flush).failure? = none := by simp [Delivery.perform, hd, hflush]
      rw [inContext, bind_of_ok (Attempt.mapError_of_ok _ hrun), hnone]
      rfl
    | error failure =>
      have hrun : Live.flush (d.live s) =
          .error (.error (.sink failure)) ((d.perform .flush).live s) := by
        simp [Live.flush, Delivery.live, hflush, Delivery.perform, hd]
      have hfailed : (d.perform .flush).failure? = some failure := by
        simp [Delivery.perform, hd, hflush]
      rw [inContext, bind_of_error (Attempt.mapError_of_error _ hrun), hfailed]
      exact ⟨s, rfl⟩

/-- A run does what was planned, unless a number overflows. -/
theorem run_eq_index (p : Project) (sink : σ) :
    (∃ o l, p.run ⟨{}, sink⟩ = .error (.overflow o) l) ∨
      ∃ s, p.run ⟨{}, sink⟩ = ended (p.index sink).1 ((p.index sink).2.live s) := by
  by_cases hsize : p.program.size = 0
  · exact .inr ⟨{}, by simp [run, index, hsize]; rfl⟩
  obtain ⟨stages, s, hstages, hwritten⟩ := writeAll_staged p sink
  have hrun : Staged ({ sink } : Delivery σ) p.plan.stages (p.plan.summary, s)
      (p.run ⟨{}, sink⟩) := by
    rw [run_of_files hsize, hstages]
    exact hwritten.bind rfl fun d hd => flush_staged p.plan.summary hd
  refine hrun.imp_right fun hrun => ?_
  simp only [index, hsize, if_false]
  cases hperform : Delivery.performStages p.plan.stages ({ sink } : Delivery σ) with
  | mk failed d =>
    rw [hperform] at hrun
    cases failed with
    | none => exact ⟨s, hrun⟩
    | some failed => exact hrun

/-- Indexes the file with this number, if there is one; if that fails, the session goes on. -/
def visitFile (p : Project) (fileId : Nat) : Attempt (Live Session σ) Empty Unit := do
  match p.program.file? fileId with
  | some file => do let _ ← (p.writeFile fileId file).caught
  | none => pure ()

def visitAll (p : Project) (order : List Nat) : Attempt (Live Session σ) Empty Unit :=
  order.forM p.visitFile

theorem visitFile_run {ready : σ → Prop} (hs : Sink.Reliable ready) (fileId : Nat) (s : Session)
    {sink : σ} (hsink : ready sink) :
    (∃ o l, p.visitFile fileId ⟨s, sink⟩ = .error (.overflow o) l) ∨
      ∃ sink', ready sink' ∧ p.visitFile fileId ⟨s, sink⟩ = .ok () ⟨p.visit s fileId, sink'⟩ := by
  unfold visitFile visit
  cases p.program.file? fileId with
  | none => exact .inr ⟨sink, hsink, rfl⟩
  | some file =>
    obtain ⟨sink', hsink', hrun⟩ := (writeFile_enacts (p := p) fileId file).of_reliable hs s hsink
    dsimp only
    rw [indexFile_run_eq]
    rcases ended_of_follows (writeFile_follows (p := p) fileId file) s with
      ⟨o, l, hquiet, -⟩ | hquiet
    · rw [hquiet] at hrun
      exact .inl ⟨o, _, bind_of_error (Attempt.caught_of_overflow hrun)⟩
    · rw [hquiet, onSink_ended] at hrun
      refine .inr ⟨sink', hsink', ?_⟩
      cases hresult : ((p.planFile fileId file).run s).1 with
      | ok summary =>
        rw [hresult] at hrun
        exact bind_of_ok (Attempt.caught_of_ok hrun)
      | error e =>
        rw [hresult] at hrun
        exact bind_of_ok (Attempt.caught_of_error hrun)

/-- Files that are visited on a reliable sink leave the session that is planned. -/
theorem visitAll_run {ready : σ → Prop} (hs : Sink.Reliable ready) (p : Project)
    (order : List Nat) {sink : σ} (hsink : ready sink) :
    (∃ o l, p.visitAll order ⟨{}, sink⟩ = .error (.overflow o) l) ∨
      ∃ sink', ready sink' ∧ p.visitAll order ⟨{}, sink⟩ = .ok () ⟨p.visits order, sink'⟩ := by
  have hfold : ∀ (order : List Nat) (s : Session) (sink : σ), ready sink →
      (∃ o l, p.visitAll order ⟨s, sink⟩ = .error (.overflow o) l) ∨
      ∃ sink', ready sink' ∧
        p.visitAll order ⟨s, sink⟩ = .ok () ⟨order.foldl p.visit s, sink'⟩ := by
    intro order
    induction order with
    | nil => exact fun s sink hsink => .inr ⟨sink, hsink, rfl⟩
    | cons fileId order ih =>
      intro s sink hsink
      have hcons : ∀ l : Live Session σ, p.visitAll (fileId :: order) l =
          (p.visitFile fileId >>= fun _ => p.visitAll order) l := fun _ => rfl
      rw [hcons]
      rcases visitFile_run hs fileId s hsink with ⟨o, l, hoverflow⟩ | ⟨sink', hsink', hrun⟩
      · exact .inl ⟨o, l, bind_of_error hoverflow⟩
      · rw [bind_of_ok hrun]
        exact ih _ _ hsink'
  exact hfold order {} sink hsink

end Project

end SourceIndex
