import SourceIndex.Proofs.Deliveries

/-! Answers that are errors. To whoever asks, an error is as good as no answer, so a run goes on as
if nothing had been found. The only trace of an error is a report, right after the question, and
only if it is a defect. -/

namespace SourceIndex

def Effect.error? : Effect → Option OracleError
  | report e => some e
  | _ => none

def Journal.reports (j : Journal) : List OracleError := j.toList.filterMap Effect.error?

namespace Collaborators

variable {c : Collaborators}

/-- Finds nothing where `c` answers with an error. -/
def lenient (c : Collaborators) : Collaborators where
  references file offset := .ok ((c.references file offset).toOption.getD [])
  propsType element := .ok ((c.propsType element).toOption.getD .none)
  properties type name := .ok ((c.properties type name).toOption.getD [])
  aliases node := .ok ((c.aliases node).toOption.getD [])
  package := c.package

theorem lenient_answer (c : Collaborators) (q : Query) :
    c.lenient.answer q = .ok ((c.answer q).toOption.getD q.nothing) := by
  cases q <;> rfl

/-- The defect with which a question is answered. -/
def defect? (c : Collaborators) (q : Query) : Option OracleError :=
  match c.answer q with
  | .ok _ => .none
  | .error e => if e.isDefect then some e else .none

/-- An effect and the report that it entails. -/
def withReport (c : Collaborators) : Effect → List Effect
  | .ask q => .ask q :: (c.defect? q).toList.map .report
  | e => [e]

/-- The second journal has no reports; with those that its questions entail it is the first. -/
def Reports (c : Collaborators) (j j' : Journal) : Prop :=
  j.toList = j'.toList.flatMap c.withReport ∧ Journal.reports j' = []

theorem corresponds_lenient (c : Collaborators) : c.Corresponds c.lenient c.Reports where
  package := rfl
  write := by
    rintro j j' ⟨hj, hj'⟩ e
    refine ⟨by simp [hj, withReport], ?_⟩
    rw [Journal.reports] at hj' ⊢
    simp [hj', Effect.error?]
  consult := by
    rintro j j' ⟨hj, hj'⟩ q
    have hreports : Journal.reports (j'.push (.ask q)) = [] := by
      rw [Journal.reports] at hj' ⊢
      simp [hj', Effect.error?]
    rw [lenient_answer]
    cases hanswer : c.answer q with
    | ok a => exact ⟨rfl, by simp [Journal.consult, hj, withReport, defect?, hanswer], hreports⟩
    | error e =>
      refine ⟨rfl, ?_, hreports⟩
      cases he : e.isDefect <;>
        simp [Journal.consult, hj, withReport, defect?, hanswer, he]

theorem filterMap_withReport {α : Type} {f : Effect → Option α}
    (hreport : ∀ e, f (.report e) = .none) (effects : List Effect) :
    (effects.flatMap c.withReport).filterMap f = effects.filterMap f := by
  have hstep : ∀ e, (c.withReport e).filterMap f = (f e).toList := by
    intro e
    cases e with
    | ask q =>
      cases hq : c.defect? q <;> cases hv : f (.ask q) <;>
        simp [withReport, hq, hreport, hv]
    | write e => cases hv : f (.write e) <;> simp [withReport, hv]
    | report e => simp [withReport, hreport]
    | flush => cases hv : f .flush <;> simp [withReport, hv]
  rw [List.filterMap_flatMap, funext hstep, List.filterMap_eq_flatMap_toList]

theorem reports_withReport {effects : List Effect} (h : effects.filterMap Effect.error? = []) :
    (effects.flatMap c.withReport).filterMap Effect.error? =
      (effects.filterMap Effect.query?).filterMap c.defect? := by
  have hstep : ∀ e ∈ effects, (c.withReport e).filterMap Effect.error? =
      (e.query?.bind c.defect?).toList := by
    intro e he
    cases e with
    | ask q =>
      cases hq : c.defect? q <;>
        simp [withReport, hq, Effect.error?, Effect.query?, List.filterMap_cons]
    | write e => rfl
    | report e => simpa [Effect.error?] using List.filterMap_eq_nil_iff.mp h _ he
    | flush => rfl
  rw [List.filterMap_flatMap, List.filterMap_filterMap, List.filterMap_eq_flatMap_toList]
  exact List.flatMap_congr hstep

end Collaborators

namespace Project

def lenient (p : Project) : Project := p.withCollaborators p.collaborators.lenient

def lastSession (p : Project) : Session := (p.planAll.run {}).2

theorem lenient_alike (p : Project) :
    Plan.Alike p.collaborators.Reports p.plan p.lenient.plan ∧
      Session.Alike p.collaborators.Reports p.lastSession p.lenient.lastSession :=
  planAll_inStep ⟨rfl, rfl⟩ p.collaborators.corresponds_lenient {} {} ⟨#[], rfl, rfl, rfl⟩

theorem lenient_effects (p : Project) :
    p.effects = p.lenient.effects.flatMap p.collaborators.withReport ∧
      p.lenient.effects.filterMap Effect.error? = [] := by
  by_cases hsize : p.program.size = 0
  · simp [effects, lenient, withCollaborators, hsize]
  · obtain ⟨stages, stages', hstages, hstages', halike⟩ := p.lenient_alike.1.stages
    have hsize' : p.lenient.program.size ≠ 0 := hsize
    have hall : stages.flatMap (·.effects.toList) =
          (stages'.flatMap (·.effects.toList)).flatMap p.collaborators.withReport ∧
        (stages'.flatMap (·.effects.toList)).filterMap Effect.error? = [] := by
      clear hstages hstages'
      induction halike with
      | nil => exact ⟨rfl, rfl⟩
      | cons hstage _ ih =>
        obtain ⟨-, heffects, hreports⟩ := hstage
        rw [Journal.reports] at hreports
        simp only [List.flatMap_cons, List.flatMap_append, List.filterMap_append]
        rw [heffects, ih.1, ih.2, hreports]
        exact ⟨rfl, rfl⟩
    simp only [effects, hsize, hsize', if_false, hstages, hstages', List.flatMap_append,
      List.filterMap_append, hall.1, hall.2]
    exact ⟨rfl, rfl⟩

/-- An answer that is an error counts as nothing. If all such answers are replaced by empty ones, a
run asks the same questions, writes the same entries and ends with the same result and the same
tables. The defects among the errors are reported, once for each question, in the order in which the
questions are put, and nothing else is. -/
theorem errors_count_as_nothing {σ : Type} [Sink σ] {ready : σ → Prop} (hs : Sink.Reliable ready)
    (p : Project) {sink : σ} (hsink : ready sink) :
    (p.lenient.index sink).1 = (p.index sink).1 ∧
      (p.lenient.index sink).2.written = (p.index sink).2.written ∧
      Journal.queries (p.lenient.index sink).2.performed =
        Journal.queries (p.index sink).2.performed ∧
      p.lenient.lastSession.symbols = p.lastSession.symbols ∧
      p.lenient.lastSession.definitions = p.lastSession.definitions ∧
      p.lenient.lastSession.references = p.lastSession.references ∧
      Journal.reports (p.index sink).2.performed =
        (Journal.queries (p.index sink).2.performed).filterMap p.collaborators.defect? ∧
      Journal.reports (p.lenient.index sink).2.performed = [] := by
  obtain ⟨hplan, j, hsession, -⟩ := p.lenient_alike
  obtain ⟨heffects, hnone⟩ := p.lenient_effects
  obtain ⟨hperformed, hresult⟩ := index_of_reliable hs p hsink
  obtain ⟨hperformed', hresult'⟩ := index_of_reliable hs p.lenient hsink
  refine ⟨?_, ?_, ?_, by rw [hsession], by rw [hsession], by rw [hsession], ?_, ?_⟩
  · by_cases hsize : p.program.size = 0
    · simp [index, hsize, lenient, withCollaborators]
    · rw [hresult hsize, hresult' hsize, hplan.summary]
  · simp only [Delivery.written, Journal.entries, hperformed, hperformed', heffects]
    exact (Collaborators.filterMap_withReport (fun _ => rfl) _).symm
  · simp only [Journal.queries, hperformed, hperformed', heffects]
    exact (Collaborators.filterMap_withReport (fun _ => rfl) _).symm
  · simp only [Journal.queries, Journal.reports, hperformed, heffects]
    rw [Collaborators.filterMap_withReport (f := Effect.query?) fun _ => rfl]
    exact Collaborators.reports_withReport hnone
  · simp only [Journal.reports, hperformed', hnone]

/-- A function that is set as a property of a tag, and answers that are all errors. -/
def functionInTag : Project where
  program := ⟨#[
    { name := "a.tsx"
      text := "f()".toList
      arena := (((((Arena.empty.add .identifier 0 1 (.identifier "f")).add .arrowFunction 1 3
        .bare).add .jsxAttribute 0 3 (.jsx (.property (some 0) (some 1)))).add .jsxAttributes 0 3
        (.expression (.elements [some 2]))).add .jsxSelfClosingElement 0 3
        (.jsx (.opening none none (some 3)))).add .sourceFile 0 3
        (.sourceFile [some 4] "a.tsx" .tsx false)
      root := some 5 }]⟩
  options := {}
  collaborators := {
    references := fun _ _ => .error (.defect "no index")
    propsType := fun _ => .error (.other "no types")
    properties := fun _ _ => .error .stackOverflow
    aliases := fun _ => .error (.missingFile "b.ts")
    package := fun _ => pure none }

/-- Two questions are answered with errors, and one of these is a defect. -/
theorem functionInTag_errors :
    (Journal.queries (functionInTag.index ({} : MemorySink)).2.performed).length = 2 ∧
      (Journal.reports (functionInTag.index ({} : MemorySink)).2.performed).map (·.message) =
        ["oracle defect: no index"] ∧
      (functionInTag.lenient.index ({} : MemorySink)).2.written =
        (functionInTag.index ({} : MemorySink)).2.written := by
  obtain ⟨-, hwritten, -⟩ := errors_count_as_nothing memory_reliable functionInTag trivial
  exact ⟨by decide +kernel, by decide +kernel, hwritten⟩

end Project

end SourceIndex
