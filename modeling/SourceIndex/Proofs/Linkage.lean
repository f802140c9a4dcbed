import SourceIndex.Proofs.Scopes

/-! The links as they are written. Each definition that is referred to from elsewhere is given four
records, after all others, and nothing else is a record of a link. A run whose sink fails writes the
beginning of this and no more. -/

namespace SourceIndex

def linkRecords (last id : Nat) (referrers : List Nat) : List Entry :=
  [⟨last + 1, .vertex, .referenceResult⟩, ⟨last + 2, .edge, .references (last + 1)⟩,
    ⟨last + 3, .edge, .item (last + 1) [id] .definitions⟩,
    ⟨last + 4, .edge, .item (last + 1) referrers .references⟩]

/-- The records of a graph, with ids after the last one given out. -/
def linkage : Nat → List (Nat × List Nat) → List Entry
  | _, [] => []
  | last, (id, referrers) :: rest => linkRecords last id referrers ++ linkage (last + 4) rest

namespace Session

theorem writes_emitLink (s : Session) (id : Nat) (referrers : List Nat) :
    s.Writes (linkRecords s.lastId id referrers) ((emitLink id referrers).run s).2 := by
  let result := s.lastId + 1
  let s₁ := ((emit .vertex .referenceResult).run s).2
  let s₂ := ((emit .edge (.references result)).run s₁).2
  let s₃ := ((emit .edge (.item result [id] .definitions)).run s₂).2
  exact (((writes_emit s .vertex .referenceResult).trans
    (writes_emit s₁ .edge (.references result))).trans
    (writes_emit s₂ .edge (.item result [id] .definitions))).trans
    (writes_emit s₃ .edge (.item result referrers .references))

theorem writes_emitLinks (s : Session) :
    s.Writes (linkage s.lastId (link s.definitions s.references).entries)
      ((emitLinks).run s).2 := by
  have hloop : ∀ (graph : List (Nat × List Nat)) (s : Session), s.Writes (linkage s.lastId graph)
      ((graph.forM fun e => emitLink e.1 e.2).run s).2 := by
    intro graph
    induction graph with
    | nil => exact Writes.refl
    | cons x graph ih =>
      intro s
      exact (writes_emitLink s x.1 x.2).trans (ih ((emitLink x.1 x.2).run s).2)
  exact hloop _ s

end Session

namespace Delivery

variable {σ : Type} [Sink σ]

/-- An effect is carried out and taken down, or nothing is written any more. -/
theorem perform_cases (d : Delivery σ) (e : Effect) :
    (d.perform e).written = d.written ++ e.entry?.toList ∨
      ((d.perform e).failure?.isSome ∧ (d.perform e).written = d.written) := by
  obtain ⟨sink, performed, failure?⟩ := d
  cases failure? with
  | some failure => exact .inr ⟨rfl, rfl⟩
  | none =>
    cases e with
    | write entry =>
      cases hrun : Sink.write entry sink with
      | mk result sink' =>
        cases result with
        | ok _ => exact .inl (by simp [perform, hrun, written, Journal.entries_push])
        | error failure => exact .inr (by simp [perform, hrun, written])
    | flush =>
      cases hrun : Sink.flush sink with
      | mk result sink' =>
        cases result with
        | ok _ => exact .inl (by simp [perform, hrun, written, Journal.entries_push])
        | error failure => exact .inr (by simp [perform, hrun, written])
    | ask query => exact .inl (by simp [perform, written, Journal.entries_push])
    | report error => exact .inl (by simp [perform, written, Journal.entries_push])

theorem perform_failed {d : Delivery σ} (h : d.failure?.isSome) (e : Effect) : d.perform e = d := by
  obtain ⟨failure, hf⟩ := Option.isSome_iff_exists.mp h
  simp [perform, hf]

/-- What is written is the beginning of what is to be written, and all of it unless the sink
fails. -/
def WritesOf (d : Delivery σ) (entries : List Entry) : Prop :=
  d.written <+: entries ∧ (d.failure? = none → d.written = entries)

theorem foldl_perform_writesOf (effects : List Effect) (d : Delivery σ) :
    (effects.foldl perform d).WritesOf (d.written ++ effects.filterMap Effect.entry?) := by
  induction effects generalizing d with
  | nil => exact ⟨by simp, fun _ => by simp⟩
  | cons e effects ih =>
    have hentries : (e :: effects).filterMap Effect.entry? =
        e.entry?.toList ++ effects.filterMap Effect.entry? := by
      cases he : e.entry? <;> simp [he]
    rw [List.foldl_cons, hentries, ← List.append_assoc]
    rcases perform_cases d e with hdone | ⟨hfailed, hwritten⟩
    · rw [← hdone]
      exact ih _
    · have hstays : effects.foldl perform (d.perform e) = d.perform e := by
        clear ih hentries
        induction effects with
        | nil => rfl
        | cons e' effects ih' => rw [List.foldl_cons, perform_failed hfailed, ih']
      rw [hstays]
      refine ⟨?_, fun hnone => by simp [hnone] at hfailed⟩
      rw [hwritten, List.append_assoc]
      exact List.prefix_append _ _

theorem performAll_writesOf (j : Journal) (d : Delivery σ) :
    (d.performAll j).WritesOf (d.written ++ j.entries) := by
  rw [performAll, ← Array.foldl_toList]
  exact foldl_perform_writesOf j.toList d

theorem performStages_writesOf (stages : List Stage) (d : Delivery σ) :
    (performStages stages d).2.written <+: d.written ++ stages.flatMap (·.effects.entries) ∧
      ((performStages stages d).1 = none →
        (performStages stages d).2.written = d.written ++ stages.flatMap (·.effects.entries)) := by
  induction stages generalizing d with
  | nil => exact ⟨by simp [performStages], fun _ => by simp [performStages]⟩
  | cons stage stages ih =>
    obtain ⟨hbeginning, hall⟩ := performAll_writesOf stage.effects d
    rw [List.flatMap_cons, ← List.append_assoc]
    cases hfailure : (d.performAll stage.effects).failure? with
    | some failure =>
      simp only [performStages, hfailure]
      exact ⟨hbeginning.trans (List.prefix_append _ _), fun h => by simp at h⟩
    | none =>
      simp only [performStages, hfailure]
      rw [← hall hfailure]
      exact ih _

end Delivery

namespace Project

variable {p : Project}

/-- The run writes this graph: all records of links that it writes are those of the graph, and they
come last. -/
def WritesLinks (p : Project) (graph : Table Nat (List Nat)) : Prop :=
  ∃ front last, (∀ e ∈ front, Entry.isLink e = false) ∧
    ∀ (σ : Type) [Sink σ] (sink : σ),
      (p.index sink).2.written <+: front ++ linkage last graph.entries ∧
      ((∀ purpose failure, (p.index sink).1 ≠ .error (.sink purpose failure)) →
        (p.index sink).2.written = front ++ linkage last graph.entries)

theorem indexFiles_plain (files : List (SourceFile × Nat)) {s : Session} {scopes : List Scope}
    (h : s.Registers scopes) :
    ∀ result ∈ ((p.indexFiles files).run s).1, ∀ e ∈ result.2.effects.entries,
      e.isLink = false := by
  induction files generalizing s scopes with
  | nil =>
    intro result hresult
    rw [indexFiles, List.mapM_nil] at hresult
    exact absurd hresult List.not_mem_nil
  | cons f files ih =>
    obtain ⟨file, fileId⟩ := f
    have hfirst := indexFile_registers (p := p) fileId file h
    intro result hresult
    rw [indexFiles, List.mapM_cons] at hresult
    rcases List.mem_cons.mp hresult with rfl | hresult
    · exact hfirst.plain
    · exact ih (stage_registers (.file file.name) hfirst) result hresult

def front (p : Project) : List Entry :=
  [⟨1, .vertex, .metaData (Path.fileUri p.options.projectRoot)⟩,
    ⟨2, .vertex, .project "typescript"⟩] ++
  ((p.indexFiles p.program.files.toList.zipIdx).run begun).1.flatMap (·.2.effects.entries) ++
  p.recorded.journal.entries

theorem front_plain (p : Project) : ∀ e ∈ p.front, e.isLink = false := by
  have hbegun : begun.Registers [] := begun_registers
  intro e he
  rcases List.mem_append.mp he with he | he
  · rcases List.mem_append.mp he with he | he
    · simp only [List.mem_cons, List.not_mem_nil, or_false] at he
      rcases he with rfl | rfl <;> rfl
    · obtain ⟨result, hresult, he⟩ := List.mem_flatMap.mp he
      exact indexFiles_plain _ hbegun result hresult e he
  · exact (recorded_registers p).plain e he

/-- The links of the definitions and references that the files have left. -/
def graph (p : Project) : Table Nat (List Nat) := link p.recorded.definitions p.recorded.references

theorem plan_stages (p : Project) :
    p.plan.stages =
      [⟨.metadata, #[.write ⟨1, .vertex, .metaData (Path.fileUri p.options.projectRoot)⟩]⟩,
        ⟨.project, #[.write ⟨2, .vertex, .project "typescript"⟩]⟩] ++
      ((p.indexFiles p.program.files.toList.zipIdx).run begun).1.map (·.2) ++
      [⟨.links, ((Session.emitLinks).run p.recorded).2.journal⟩, ⟨.flush, #[.flush]⟩] := rfl

theorem plan_entries (p : Project) :
    p.plan.stages.flatMap (·.effects.entries) =
      p.front ++ linkage p.recorded.lastId p.graph.entries := by
  have hlinks := (Session.writes_emitLinks p.recorded).entries
  have hwrite : ∀ e : Entry, Journal.entries #[.write e] = [e] := fun _ => rfl
  have hflush : Journal.entries #[.flush] = [] := rfl
  rw [plan_stages, front, graph]
  simp only [List.flatMap_append, List.flatMap_cons, List.flatMap_nil, List.flatMap_map, hlinks,
    hwrite, hflush, List.append_nil, List.append_assoc, List.cons_append, List.nil_append]

theorem scopes_eq_nil (h : p.program.size = 0) : p.scopes = [] := by
  have hfiles : p.program.files.toList = [] := by
    simpa [Program.size] using h
  rw [scopes, hfiles]
  rfl

theorem graph_eq_nil (h : p.scopes = []) : p.graph.entries = [] := by
  have hrefs := (recorded_registers p).references
  rw [graph, link_entries, hrefs, h]
  rfl

theorem sortedByKey_scopes (p : Project) (f : Scope → Location) :
    sortedByKey (p.scopes.map fun o => (o.id, f o)) = p.scopes.map fun o => (o.id, f o) := by
  have hincreasing := (recorded_registers p).increasing
  rw [sortedByKey, sortBy_eq]
  refine List.Pairwise.insertionSort_eq ?_
  rw [List.pairwise_map] at hincreasing ⊢
  refine hincreasing.imp fun hlt => ?_
  simp only [decide_eq_true_eq]
  omega

theorem winner?_recorded (p : Project) (l : Location) :
    winner? p.recorded.definitions l = innermost? (p.scopes.map fun o => (o.id, o.place)) l := by
  rw [winner?, (recorded_registers p).definitions, sortedByKey_scopes]

/-- Whatever the sink, the links that are written are those of what the files have left. -/
theorem writesLinks (p : Project) : p.WritesLinks p.graph := by
  by_cases hsize : p.program.size = 0
  · refine ⟨[], 0, by simp, fun σ _ sink => ?_⟩
    have hwritten : (p.index sink).2.written = [] := by
      rw [index, if_pos hsize]
      rfl
    rw [hwritten, graph_eq_nil (scopes_eq_nil hsize)]
    exact ⟨List.nil_prefix, fun _ => rfl⟩
  · refine ⟨p.front, p.recorded.lastId, front_plain p, fun σ _ sink => ?_⟩
    obtain ⟨hbeginning, hall⟩ :=
      Delivery.performStages_writesOf p.plan.stages ({ sink } : Delivery σ)
    have hnothing : ({ sink } : Delivery σ).written = [] := rfl
    rw [hnothing, List.nil_append, plan_entries] at hbeginning hall
    cases hrun : Delivery.performStages p.plan.stages ({ sink } : Delivery σ) with
    | mk failure d =>
      rw [hrun] at hbeginning hall
      cases failure with
      | none =>
        have hindex : p.index sink = (.ok p.plan.summary, d) := by
          simp only [index, hsize, if_false, hrun]
        rw [hindex]
        exact ⟨hbeginning, fun _ => hall rfl⟩
      | some failure =>
        have hindex : p.index sink = (.error (.sink failure.1 failure.2), d) := by
          simp only [index, hsize, if_false, hrun]
        rw [hindex]
        exact ⟨hbeginning, fun hnone => absurd rfl (hnone failure.1 failure.2)⟩

end Project

end SourceIndex
