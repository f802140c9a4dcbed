import SourceIndex.Project
import SourceIndex.Proofs.Coherence

/-! The stream of a run is closed, whatever the program, the options and the answers, and also where
files fail: a file that is cut off leaves a coherent session behind. -/

namespace SourceIndex

namespace FileContext

open Recorder

variable {past before : List Entry} {documents : List (String × Bool)} {c : FileContext}

theorem outline_grounded {earlier : List Entry} {document : Entry}
    (hdocument : document.document?.isSome = true) {r : Recorder}
    (h : r.Coherent past (earlier ++ [document]) documents) {tree : Outline}
    (htree : ∀ id ∈ tree.ids, Names Entry.isRange (r.block past (earlier ++ [document])) id) :
    Element.GroundedIn (r.session.stream past) (.outline tree) := by
  refine ⟨earlier, document, r.block past (earlier ++ [document]), ?_, hdocument, h.noDocument,
    htree⟩
  have hs := List.prefix_iff_eq_append.mp h.starts
  rw [← List.singleton_append, ← List.append_assoc]
  exact hs.symm

theorem outlines_coherent {earlier : List Entry} {document : Entry}
    (hdocument : document.document?.isSome = true) (trees : List Outline) :
    Ensures
      (fun r : Recorder => r.Coherent past (earlier ++ [document]) documents ∧
        ∀ tree ∈ trees, ∀ id ∈ tree.ids,
          Names Entry.isRange (r.block past (earlier ++ [document])) id)
      (trees.forM fun tree => do let _ ← inSession (Session.vertex (.outline tree)))
      fun _ r => r.Coherent past (earlier ++ [document]) documents := by
  refine Ensures.mono (Ensures.forM fun tree htree r h => ?_) (fun _ h => h) fun _ _ h => h.1
  refine ⟨h.1.vertex (outline_grounded hdocument h.1 (h.2 tree htree)) fun _ => rfl, ?_⟩
  intro tree' htree' id hid
  have hn : Names Entry.isRange
      (((inSession (Session.vertex (.outline tree))).run r).2.block past (earlier ++ [document]))
      id := by
    rw [block_vertex h.1.starts]
    exact (h.2 tree' htree' id hid).mono (List.subset_append_left _ _)
  exact hn

theorem recordAll_coherent {earlier : List Entry} {document : Entry}
    (hdocument : document.document?.isSome = true) :
    Ensures (Recorder.Coherent past (earlier ++ [document]) documents)
      (c.recordAll document.id)
      fun _ => Recorder.Coherent past (earlier ++ [document]) documents := by
  let Inv := Recorder.Coherent past (earlier ++ [document]) documents
  have hscope : ∀ r, Inv r → Names Entry.isScope (r.session.stream past) document.id :=
    fun r h => ⟨document, h.starts.subset (by simp), rfl, by simp [Entry.isScope, hdocument]⟩
  unfold recordAll
  refine Ensures.bind (Q := fun _ => Inv) (fun r h => ?_) fun _ => ?_
  · exact ⟨h.session.define _ (hscope r h), h.starts, h.noDocument, h.outline, h.components⟩
  refine Ensures.bind (Q := fun _ => Inv) (fun r h => ?_) fun _ => ?_
  · refine ⟨h.session, h.starts, h.noDocument, h.outline, fun d hd => ?_⟩
    rcases List.mem_cons.mp hd with rfl | hd
    · exact hscope r h
    · exact h.components d hd
  refine (Ensures.forM fun e _ => record_coherent e).bind fun _ => ?_
  split
  · exact .pure fun _ h => h
  refine closeComponent_coherent.bind fun _ r h => ?_
  have htrees : ∀ tree ∈ r.outline.finish, ∀ id ∈ tree.ids,
      Names Entry.isRange (r.block past (earlier ++ [document])) id :=
    fun tree ht id hid => h.outline id (Outline.Builder.mem_ids_of_finish ht hid)
  have houtlines := outlines_coherent hdocument r.outline.finish r ⟨h, htrees⟩
  simp only [run_bind, StateT.run_get]
  cases c.options.emitOutline with
  | false => exact h
  | true => exact houtlines

theorem index_coherent {earlier : List Entry} {document : Entry}
    (hdocument : document.document?.isSome = true) {s : Session} (h : s.Coherent past documents)
    (hs : s.stream past = earlier ++ [document]) :
    ((c.index document.id).run s).2.Coherent past documents := by
  unfold index
  split
  · have hr : Recorder.Coherent past (earlier ++ [document]) documents { session := s } := by
      have hb : Recorder.block past (earlier ++ [document]) { session := s } = [] := by
        simp [Recorder.block, hs]
      refine ⟨h, hs ▸ List.prefix_refl _, by simp [hb], ?_, by simp⟩
      simp [Outline.Builder.ids, Outline.forestIds]
    exact (recordAll_coherent (c := c) hdocument _ hr).session
  · exact h

end FileContext

namespace Project

variable {past : List Entry} {documents : List (String × Bool)} {p : Project}

/-- The address of a file's document, and whether the file is a script without types. -/
def documentOf (p : Project) (file : SourceFile) : String × Bool :=
  (Path.fileUri (Path.joinText p.options.projectRoot file.name), file.scriptKind.isJavaScript)

theorem indexFile_run (fileId : Nat) (file : SourceFile) (s : Session) :
    ((p.indexFile fileId file).run s).2 =
      (((p.context fileId file).index (s.lastId + 1)).run
        ((Session.vertex (.document (p.documentOf file).1 (p.documentOf file).2)).run s).2).2 := by
  simp only [indexFile, run_bind]
  split <;> rfl

theorem indexFile_coherent (fileId : Nat) (file : SourceFile) :
    Ensures (Session.Coherent past documents) (p.indexFile fileId file)
      fun _ => Session.Coherent past (documents ++ [p.documentOf file]) := by
  intro s h
  let element : Element := .document (p.documentOf file).1 (p.documentOf file).2
  let s₁ := ((Session.vertex element).run s).2
  have hg : element.GroundedIn (s.stream past) := trivial
  have h₁ : s₁.Coherent past (documents ++ [p.documentOf file]) := h.emit .vertex hg
  have hs₁ : s₁.stream past = s.stream past ++ [⟨s.lastId + 1, .vertex, element⟩] :=
    Session.stream_emit .vertex element
  have hi := FileContext.index_coherent (c := p.context fileId file) rfl h₁ hs₁
  rw [indexFile_run]
  exact hi

theorem stage_coherent {α : Type} {documents' : List (String × Bool)} {x : StateM Session α}
    (purpose : Purpose) (hx : Ensures (Session.Coherent past documents) x
      fun _ => Session.Coherent past documents') :
    Ensures (Session.Coherent past documents) (stage purpose x)
      fun result => Session.Coherent (past ++ result.2.effects.entries) documents' :=
  fun s h => (hx s h).takeJournal

theorem stage_closed {α : Type} {documents' : List (String × Bool)} {x : StateM Session α}
    (purpose : Purpose) (hx : Ensures (Session.Coherent past documents) x
      fun _ => Session.Coherent past documents') :
    Ensures (Session.Coherent past documents) (stage purpose x)
      fun result _ => Closed (past ++ result.2.effects.entries) ∧
        (past ++ result.2.effects.entries).filterMap Entry.document? = documents' :=
  fun s h => ⟨(hx s h).closed, (hx s h).documents⟩

theorem files_coherent (files : List (SourceFile × Nat)) :
    Ensures (Session.Coherent past documents)
      (files.mapM fun (file, fileId) => stage (.file file.name) (p.indexFile fileId file))
      fun results => Session.Coherent (past ++ results.flatMap (·.2.effects.entries))
        (documents ++ files.map fun f => p.documentOf f.1) := by
  induction files generalizing past documents with
  | nil =>
    rw [List.mapM_nil]
    exact .pure fun s h => by simpa using h
  | cons f files ih =>
    rw [List.mapM_cons]
    refine (stage_coherent (.file f.1.name) (indexFile_coherent f.2 f.1)).bind fun result => ?_
    refine ih.bind fun results => .pure fun s h => ?_
    simpa using h

theorem vertex_coherent (element : Element) (hg : ∀ earlier, element.GroundedIn earlier)
    (hd : ∀ id, Entry.document? ⟨id, .vertex, element⟩ = none) :
    Ensures (Session.Coherent past documents) (Session.vertex element)
      fun _ => Session.Coherent past documents :=
  fun s h => h.emit_other .vertex (hg (s.stream past)) hd

theorem planAll_closed :
    Ensures (Session.Coherent [] []) p.planAll
      fun plan _ => Closed (plan.stages.flatMap (·.effects.entries)) ∧
        (plan.stages.flatMap (·.effects.entries)).filterMap Entry.document? =
          p.program.files.toList.map p.documentOf := by
  unfold planAll
  refine (stage_coherent .metadata
    (vertex_coherent (.metaData _) (fun _ => trivial) fun _ => rfl)).bind fun metadata => ?_
  refine (stage_coherent .project
    (vertex_coherent (.project _) (fun _ => trivial) fun _ => rfl)).bind fun project => ?_
  refine (files_coherent _).bind fun files => ?_
  refine Ensures.bind (Q := fun _ => _) (fun s h => h) fun _ => ?_
  refine (stage_closed .links Session.emitLinks_coherent).bind fun links => .pure fun s h => ?_
  have hfiles : (p.program.files.toList.zipIdx.map fun f => p.documentOf f.1) =
      p.program.files.toList.map p.documentOf := by
    conv_rhs => rw [← List.zipIdx_map_fst 0 p.program.files.toList, List.map_map]
    rfl
  have hflush : Journal.entries #[.flush] = [] := rfl
  simpa [List.flatMap_map, hfiles, hflush] using h

end Project

/-- A sink in a ready state does not fail, and stays ready. -/
structure Sink.Reliable {σ : Type} [Sink σ] (ready : σ → Prop) : Prop where
  write : ∀ e sink, ready sink → (Sink.write e sink).1 = .ok () ∧ ready (Sink.write e sink).2
  flush : ∀ sink, ready sink → (Sink.flush sink).1 = .ok () ∧ ready (Sink.flush sink).2

namespace Delivery

variable {σ : Type} [Sink σ] {ready : σ → Prop} {d : Delivery σ}

def written (d : Delivery σ) : List Entry := Journal.entries d.performed

structure Sound (ready : σ → Prop) (d : Delivery σ) : Prop where
  failure? : d.failure? = none
  ready : ready d.sink

theorem perform_eq (hs : Sink.Reliable ready) (h : d.Sound ready) (e : Effect) :
    ∃ sink, ready sink ∧ d.perform e = ⟨sink, d.performed.push e, none⟩ := by
  have hnone := h.failure?
  cases e with
  | write entry =>
    obtain ⟨hok, hready⟩ := hs.write entry d.sink h.ready
    cases hrun : Sink.write entry d.sink with
    | mk result sink =>
      rw [hrun] at hok hready
      exact ⟨sink, hready, by simp_all [perform]⟩
  | flush =>
    obtain ⟨hok, hready⟩ := hs.flush d.sink h.ready
    cases hrun : Sink.flush d.sink with
    | mk result sink =>
      rw [hrun] at hok hready
      exact ⟨sink, hready, by simp_all [perform]⟩
  | ask query => exact ⟨d.sink, h.ready, by simp [perform, hnone]⟩
  | report error => exact ⟨d.sink, h.ready, by simp [perform, hnone]⟩

theorem Sound.perform (hs : Sink.Reliable ready) (h : d.Sound ready) (e : Effect) :
    (d.perform e).Sound ready ∧ (d.perform e).written = d.written ++ e.entry?.toList := by
  obtain ⟨sink, hready, hd⟩ := perform_eq hs h e
  rw [hd]
  exact ⟨⟨rfl, hready⟩, Journal.entries_push d.performed e⟩

theorem Sound.performAll (hs : Sink.Reliable ready) (h : d.Sound ready) (j : Journal) :
    (d.performAll j).Sound ready ∧ (d.performAll j).written = d.written ++ j.entries := by
  obtain ⟨effects⟩ := j
  simp only [Delivery.performAll, List.foldl_toArray]
  induction effects generalizing d with
  | nil => exact ⟨h, by simp [Journal.entries]⟩
  | cons e effects ih =>
    obtain ⟨he, hw⟩ := h.perform hs e
    obtain ⟨hsound, hwritten⟩ := ih he
    refine ⟨hsound, ?_⟩
    rw [List.foldl_cons, hwritten, hw, List.append_assoc]
    cases hentry : e.entry? <;> simp [Journal.entries, hentry]

theorem Sound.performStages (hs : Sink.Reliable ready) (h : d.Sound ready) (stages : List Stage) :
    (performStages stages d).1 = none ∧
      (performStages stages d).2.written =
        d.written ++ stages.flatMap fun stage => stage.effects.entries := by
  induction stages generalizing d with
  | nil => exact ⟨rfl, by simp [Delivery.performStages]⟩
  | cons stage stages ih =>
    obtain ⟨hstage, hw⟩ := h.performAll hs stage.effects
    obtain ⟨hnone, hwritten⟩ := ih hstage
    simp only [Delivery.performStages, hstage.failure?]
    refine ⟨hnone, ?_⟩
    rw [hwritten, hw, List.flatMap_cons, List.append_assoc]

end Delivery

namespace Project

variable {σ : Type} [Sink σ] {ready : σ → Prop}

theorem session_coherent : Session.Coherent [] [] {} :=
  ⟨closed_nil, rfl, rfl, by simp [Table.keys], by simp [Table.keys]⟩

/-- Whatever the program, the options and the answers, what is written is closed: the ids count from
one, and each id that is mentioned is that of an earlier entry of the right kind. There is one
document for each file, in the order of the files, also for those that fail. -/
theorem index_closed (hs : Sink.Reliable ready) (p : Project) {sink : σ} (hsink : ready sink) :
    Closed (p.index sink).2.written ∧
      (p.index sink).2.written.filterMap Entry.document? =
        p.program.files.toList.map p.documentOf := by
  by_cases hsize : p.program.size = 0
  · have hfiles : p.program.files.toList = [] := by
      simpa [Program.size] using hsize
    have hwritten : (p.index sink).2.written = [] := by
      rw [index, if_pos hsize]
      rfl
    rw [hwritten, hfiles]
    exact ⟨closed_nil, rfl⟩
  · have hstart : Delivery.Sound ready { sink } := ⟨rfl, hsink⟩
    obtain ⟨hnone, hwritten⟩ := hstart.performStages hs p.plan.stages
    have hindex : (p.index sink).2 = (Delivery.performStages p.plan.stages { sink }).2 := by
      simp only [index, hsize, if_false]
      split <;> simp_all
    have hplan := planAll_closed (p := p) {} session_coherent
    rw [hindex, hwritten]
    exact hplan

def rootlessFile (name : String) : SourceFile where
  name
  text := []
  arena := .empty
  root := none

/-- A class that the rest of its file refers to, and a file whose root is missing. -/
def classAndBroken : Project where
  program := ⟨#[
    { name := "a.ts"
      text := "class A{}\nA".toList
      arena := ((Arena.empty.add .identifier 6 7 (.identifier "A")).add .classDeclaration 0 9
        (.declaration (.classLike none (some 0) none none []))).add .sourceFile 0 11
        (.sourceFile [some 1] "a.ts" .ts false)
      root := some 2 },
    rootlessFile "b.ts"]⟩
  options := {}
  collaborators := { Collaborators.none with references := fun _ _ => .ok [⟨"a.ts", 10, 1⟩] }

theorem memory_reliable : Sink.Reliable fun _ : MemorySink => True :=
  ⟨fun _ _ _ => ⟨rfl, trivial⟩, fun _ _ => ⟨rfl, trivial⟩⟩

theorem classAndBroken_closed :
    (classAndBroken.index ({} : MemorySink)).2.written.map (·.id) = List.range' 1 13 ∧
      Closed (classAndBroken.index ({} : MemorySink)).2.written := by
  refine ⟨?_, (index_closed memory_reliable classAndBroken trivial).1⟩
  decide +kernel

end Project

end SourceIndex
