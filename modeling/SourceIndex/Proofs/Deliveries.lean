import SourceIndex.Proofs.Journals
import SourceIndex.Proofs.Linkage

/-! What becomes of effects that are carried out one after the other. After a failure nothing is
done; without one everything is. So a run with a reliable sink does all that was planned. -/

namespace SourceIndex

/-- The sink after it has taken all of these entries. -/
def Sink.taking? {σ : Type} [Sink σ] (sink : σ) : List Entry → Option σ
  | [] => some sink
  | e :: es =>
    match Sink.write e sink with
    | (.ok _, sink) => taking? sink es
    | (.error _, _) => none

namespace Delivery

variable {σ : Type} [Sink σ] {d : Delivery σ}

theorem foldl_perform_failed (h : d.failure?.isSome) (effects : List Effect) :
    effects.foldl perform d = d := by
  induction effects with
  | nil => rfl
  | cons e effects ih => rw [List.foldl_cons, perform_failed h, ih]

theorem perform_performed {e : Effect} (h : (d.perform e).failure? = none) :
    (d.perform e).performed = d.performed.push e := by
  cases hfailure : d.failure? with
  | some failure => simp [perform, hfailure] at h
  | none =>
    cases e with
    | write entry =>
      cases hwrite : Sink.write entry d.sink with
      | mk result sink => cases result <;> simp_all [perform]
    | flush =>
      cases hflush : Sink.flush d.sink with
      | mk result sink => cases result <;> simp_all [perform]
    | ask query => simp [perform, hfailure]
    | report error => simp [perform, hfailure]

theorem perform_of_failure {e : Effect} (h : (d.perform e).failure? ≠ none) :
    (d.perform e).performed = d.performed := by
  cases hfailure : d.failure? with
  | some failure => simp [perform, hfailure]
  | none =>
    cases e with
    | write entry =>
      cases hwrite : Sink.write entry d.sink with
      | mk result sink => cases result <;> simp_all [perform]
    | flush =>
      cases hflush : Sink.flush d.sink with
      | mk result sink => cases result <;> simp_all [perform]
    | ask query => simp [perform, hfailure] at h
    | report error => simp [perform, hfailure] at h

/-- What is done is the beginning of what is to be done. -/
theorem foldl_perform_isPrefix (effects : List Effect) (d : Delivery σ) :
    (effects.foldl perform d).performed.toList <+: d.performed.toList ++ effects := by
  induction effects generalizing d with
  | nil => simp
  | cons e effects ih =>
    rw [List.foldl_cons]
    by_cases hfailure : (d.perform e).failure? = none
    · have hrest := ih (d.perform e)
      rw [perform_performed hfailure, Array.toList_push, List.append_assoc] at hrest
      exact hrest
    · rw [foldl_perform_failed (Option.isSome_iff_ne_none.mpr hfailure),
        perform_of_failure hfailure]
      exact List.prefix_append _ _

/-- Without a failure everything is done. -/
theorem foldl_perform_performed {effects : List Effect}
    (h : (effects.foldl perform d).failure? = none) :
    (effects.foldl perform d).performed.toList = d.performed.toList ++ effects := by
  induction effects generalizing d with
  | nil => simp
  | cons e effects ih =>
    rw [List.foldl_cons] at h ⊢
    have hnone : (d.perform e).failure? = none := by
      by_contra hfailed
      rw [foldl_perform_failed (Option.isSome_iff_ne_none.mpr hfailed)] at h
      exact hfailed h
    rw [ih h, perform_performed hnone, Array.toList_push, List.append_assoc]
    rfl

theorem perform_after (done : Array Effect) (d : Delivery σ) (e : Effect) :
    perform { d with performed := done ++ d.performed } e =
      { d.perform e with performed := done ++ (d.perform e).performed } := by
  cases hfailure : d.failure? with
  | some failure => simp [perform, hfailure]
  | none =>
    cases e with
    | write entry =>
      cases hwrite : Sink.write entry d.sink with
      | mk result sink => cases result <;> simp [perform, hfailure, hwrite]
    | flush =>
      cases hflush : Sink.flush d.sink with
      | mk result sink => cases result <;> simp [perform, hfailure, hflush]
    | ask query => simp [perform, hfailure]
    | report error => simp [perform, hfailure]

/-- What was done before makes no difference. -/
theorem foldl_perform_after (effects : List Effect) (done : Array Effect) (d : Delivery σ) :
    effects.foldl perform { d with performed := done ++ d.performed } =
      { effects.foldl perform d with
        performed := done ++ (effects.foldl perform d).performed } := by
  induction effects generalizing d with
  | nil => rfl
  | cons e effects ih => rw [List.foldl_cons, perform_after, ih, List.foldl_cons]

theorem foldl_perform_of_sink (effects : List Effect) (h : d.failure? = none) :
    effects.foldl perform d =
      { effects.foldl perform ({ sink := d.sink } : Delivery σ) with
        performed := d.performed ++
          (effects.foldl perform ({ sink := d.sink } : Delivery σ)).performed } := by
  have hd : d = { ({ sink := d.sink } : Delivery σ) with performed := d.performed ++ #[] } := by
    cases d
    simp_all
  conv_lhs => rw [hd]
  exact foldl_perform_after effects d.performed { sink := d.sink }

theorem performStages_append (stages stages' : List Stage) (d : Delivery σ) :
    performStages (stages ++ stages') d =
      match performStages stages d with
      | (none, d') => performStages stages' d'
      | (some failed, d') => (some failed, d') := by
  induction stages generalizing d with
  | nil => rfl
  | cons stage stages ih =>
    cases hfailure : (d.performAll stage.effects).failure? with
    | none => simp only [List.cons_append, performStages, hfailure, ih]
    | some failure => simp only [List.cons_append, performStages, hfailure]

/-- Stages are carried out as one list of effects. -/
theorem performStages_eq (stages : List Stage) (h : d.failure? = none) :
    (performStages stages d).2 = (stages.flatMap (·.effects.toList)).foldl perform d ∧
      (performStages stages d).1.map (·.2) = (performStages stages d).2.failure? := by
  induction stages generalizing d with
  | nil => exact ⟨rfl, h.symm⟩
  | cons stage stages ih =>
    have hstage : d.performAll stage.effects = stage.effects.toList.foldl perform d := by
      rw [performAll, Array.foldl_toList]
    rw [List.flatMap_cons, List.foldl_append, ← hstage]
    cases hfailure : (d.performAll stage.effects).failure? with
    | some failure =>
      simp only [performStages, hfailure, Option.map_some]
      exact ⟨(foldl_perform_failed (by rw [hfailure]; rfl) _).symm, trivial⟩
    | none =>
      simp only [performStages, hfailure]
      exact ih hfailure

theorem foldl_perform_taking {effects : List Effect} {sink : σ} (hflush : .flush ∉ effects)
    (hfailure : d.failure? = none)
    (h : Sink.taking? d.sink (effects.filterMap Effect.entry?) = some sink) :
    effects.foldl perform d = ⟨sink, d.performed ++ effects.toArray, none⟩ := by
  induction effects generalizing d with
  | nil =>
    obtain ⟨sink', performed, failure?⟩ := d
    obtain rfl : sink' = sink := Option.some.inj h
    obtain rfl : failure? = none := hfailure
    simp
  | cons e effects ih =>
    have hrest : .flush ∉ effects := fun hmem => hflush (List.mem_cons_of_mem _ hmem)
    have hpush : ∀ d' : Delivery σ, d'.performed = d.performed.push e → d'.failure? = none →
        Sink.taking? d'.sink (effects.filterMap Effect.entry?) = some sink →
        effects.foldl perform d' = ⟨sink, d.performed ++ (e :: effects).toArray, none⟩ := by
      intro d' hperformed hnone htaking
      rw [ih hrest hnone htaking, hperformed]
      simp
    rw [List.foldl_cons]
    cases e with
    | write entry =>
      simp only [List.filterMap_cons, Effect.entry?, Sink.taking?] at h
      cases hwrite : Sink.write entry d.sink with
      | mk result sink' =>
        rw [hwrite] at h
        cases result with
        | error failure => simp at h
        | ok _ =>
          have hperform : d.perform (.write entry) =
              { d with sink := sink', performed := d.performed.push (.write entry) } := by
            simp [perform, hfailure, hwrite]
          rw [hperform]
          exact hpush _ rfl hfailure h
    | flush => exact absurd List.mem_cons_self hflush
    | ask query =>
      have hperform : d.perform (.ask query) =
          { d with performed := d.performed.push (.ask query) } := by
        simp [perform, hfailure]
      rw [hperform]
      exact hpush _ rfl hfailure h
    | report error =>
      have hperform : d.perform (.report error) =
          { d with performed := d.performed.push (.report error) } := by
        simp [perform, hfailure]
      rw [hperform]
      exact hpush _ rfl hfailure h

theorem perform_refused {entry : Entry} {sink : σ} {failure : SinkError}
    (hfailure : d.failure? = none) (h : Sink.write entry d.sink = (.error failure, sink)) :
    d.perform (.write entry) = { d with sink, failure? := some failure } := by
  simp [perform, hfailure, h]

theorem Sound.foldl {ready : σ → Prop} (hs : Sink.Reliable ready) (h : d.Sound ready)
    (effects : List Effect) :
    (effects.foldl Delivery.perform d).Sound ready ∧
      (effects.foldl Delivery.perform d).performed = d.performed ++ effects.toArray := by
  induction effects generalizing d with
  | nil => exact ⟨h, by simp⟩
  | cons e effects ih =>
    obtain ⟨sink, hready, hperform⟩ := perform_eq hs h e
    rw [List.foldl_cons, hperform]
    obtain ⟨hsound, hperformed⟩ := ih (d := ⟨sink, d.performed.push e, none⟩) ⟨rfl, hready⟩
    exact ⟨hsound, by rw [hperformed]; simp⟩

end Delivery

namespace Project

/-- All that a run does if nothing fails. -/
def effects (p : Project) : List Effect :=
  if p.program.size = 0 then [] else p.plan.stages.flatMap (·.effects.toList)

variable {p : Project} {σ : Type} [Sink σ] {sink : σ}

theorem index_delivery (p : Project) (sink : σ) :
    (p.index sink).2 = p.effects.foldl Delivery.perform { sink } := by
  by_cases hsize : p.program.size = 0
  · simp [index, effects, hsize]
  · have hperformed :=
      (Delivery.performStages_eq (d := ({ sink } : Delivery σ)) p.plan.stages rfl).1
    simp only [index, effects, hsize, if_false, ← hperformed]
    split <;> simp_all

/-- A run with a reliable sink does everything and succeeds. -/
theorem index_of_reliable {ready : σ → Prop} (hs : Sink.Reliable ready) (p : Project)
    (hsink : ready sink) :
    (p.index sink).2.performed = p.effects.toArray ∧
      (p.program.size ≠ 0 → (p.index sink).1 = .ok p.plan.summary) := by
  have hstart : Delivery.Sound ready ({ sink } : Delivery σ) := ⟨rfl, hsink⟩
  obtain ⟨hsound, hperformed⟩ := hstart.foldl hs p.effects
  rw [← index_delivery] at hsound hperformed
  refine ⟨by simpa using hperformed, fun hsize => ?_⟩
  have hnone := (hstart.performStages hs p.plan.stages).1
  simp only [index, hsize, if_false]
  cases hrun : Delivery.performStages p.plan.stages ({ sink } : Delivery σ) with
  | mk failed d =>
    rw [hrun] at hnone
    obtain rfl : failed = none := hnone
    rfl

end Project

end SourceIndex
