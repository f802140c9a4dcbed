import SourceIndex.Proofs.Linkage
import SourceIndex.Proofs.Shift
import SourceIndex.Proofs.Visits

/-! Files do not depend on each other. A run writes one block of entries for each file, from its
document on. When a file begins, nothing is known about it yet, whatever the files before it were;
so its block is the same in every run that has the file, up to the ids. -/

namespace SourceIndex

open Memory World Recorder

/-- Nothing is known about the files ahead, and packages were found by asking. -/
structure Untouched (c : Collaborators) (ahead : Nat → Prop) (t : SymbolTable)
    (packages : Package.Cache) : Prop where
  table : ∀ fileId, ahead fileId → ∀ r, t.get? ⟨fileId, r⟩ = none
  packages : c.Remembers packages

variable {w : World} {ahead : Nat → Prop}

namespace Untouched

theorem heard {m m₁ : Memory} (h : Untouched w.collaborators ahead m.table m.packages)
    (hheard : Heard m m₁) : Untouched w.collaborators ahead m₁.table m₁.packages :=
  ⟨hheard.table ▸ h.table, hheard.packages ▸ h.packages⟩

theorem packageOf {m : Memory} (h : Untouched w.collaborators ahead m.table m.packages)
    (file : String) :
    Untouched w.collaborators ahead ((packageOf w.collaborators file).run m).2.table
      ((packageOf w.collaborators file).run m).2.packages :=
  ⟨h.table, h.packages.package file⟩

theorem remember {m : Memory} {key : NodeKey}
    (h : Untouched w.collaborators ahead m.table m.packages) (hkey : ¬ ahead key.file)
    (s : Symbol) :
    Untouched w.collaborators ahead ((remember key s).run m).2.table
      ((remember key s).run m).2.packages := by
  refine ⟨fun fileId hfile r => ?_, h.packages⟩
  have hne : (⟨fileId, r⟩ : NodeKey) ≠ key := by
    rintro rfl
    exact hkey hfile
  have hget : ((Memory.remember key s).run m).2.table.get? ⟨fileId, r⟩ =
      m.table.get? ⟨fileId, r⟩ := Table.get?_insert_of_ne _ hne _
  rw [hget]
  exact h.table fileId hfile r

end Untouched

/-- Resolving a node touches its own file only. -/
theorem Resolves.untouched {mayCut : Prop} {links : Nat} {key : NodeKey} {m m' : Memory}
    {s : Symbol} (h : Resolves w mayCut links key m s m') (hno : w.collaborators.AnswersNoNode)
    (hkey : ¬ ahead key.file)
    (hm : Untouched w.collaborators ahead m.table m.packages) :
    Untouched w.collaborators ahead m'.table m'.packages := by
  induction h with
  | known => exact hm
  | cut => exact hm
  | missing => exact hm
  | block => exact hm
  | file _ _ _ hpackage =>
    obtain ⟨-, rfl⟩ := Prod.mk.inj hpackage
    exact (hm.packageOf _).remember hkey _
  | counted _ _ _ hnumber _ ih =>
    obtain ⟨-, rfl⟩ := Prod.mk.inj hnumber
    exact (ih hkey hm).remember hkey _
  -- a property or an import would lead into another file, but nobody names one
  | property _ _ _ htarget =>
    have hnone := (setTarget?_spec htarget).1
    rw [declaredProperty?_eq_none hno] at hnone
    cases hnone
  | orphan hasks _ =>
    have hasked := hm.heard hasks.heard
    exact hasked
  | unowned hasks _ _ _ ih => exact ih hkey (hm.heard hasks.heard)
  | container hasks _ _ _ ih =>
    exact (ih hkey (hm.heard hasks.heard)).remember hkey _
  | imported _ _ _ _ himport =>
    have hnone := (importTarget?_spec himport).1
    rw [declaredImport?_eq_none hno] at hnone
    cases hnone
  | declared hasks _ _ _ himport _ ih =>
    exact ((ih hkey (hm.heard hasks.heard)).heard
      (importTarget?_spec himport).2).remember hkey _
  | undeclared hasks _ _ _ himport _ ih =>
    have hasked := ih hkey (hm.heard hasks.heard)
    have hasked' := hasked.heard (importTarget?_spec himport).2
    exact hasked'

namespace FileContext

variable {c : FileContext} (hno : c.world.collaborators.AnswersNoNode) (hfile : ¬ ahead c.fileId)

include hno hfile

theorem resolve_untouched (index : Nat) :
    Ensures (Holds fun t _ packages => Untouched c.world.collaborators ahead t packages)
      (c.resolve index)
      fun _ => Holds fun t _ packages => Untouched c.world.collaborators ahead t packages :=
  fun r h => (World.resolves_run (w := c.world) (c.options.maxSymbolDepth.toNat + 1)
    ⟨c.fileId, some index⟩ r.memory).untouched hno hfile h

theorem index_untouched (document : Nat) {s : Session}
    (h : Untouched c.world.collaborators ahead s.symbols s.packages) :
    Untouched c.world.collaborators ahead ((c.index document).run s).2.symbols
      ((c.index document).run s).2.packages := by
  unfold index
  split
  · exact recordAll_holds (resolve_untouched hno hfile) document { session := s } h
  · exact h

end FileContext

/-- The blocks of a stream: each begins with a document and ends before the next one or before the
links. -/
def blocks : List Entry → List (List Entry)
  | [] => []
  | e :: es =>
    if e.document?.isSome then (e :: es.takeWhile Entry.isInner) :: blocks es else blocks es

def IsBlock (document : String × Bool) (es : List Entry) : Prop :=
  ∃ e rest, es = e :: rest ∧ e.document? = some document ∧ ∀ e' ∈ rest, e'.isInner = true

theorem Entry.document?_of_isLink {e : Entry} (h : e.isLink = true) : e.document? = none := by
  obtain ⟨id, type, element⟩ := e
  cases element <;> simp [isLink] at h <;> cases type <;> rfl

theorem blocks_append {es : List Entry} (h : ∀ e ∈ es, e.document? = none) (rest : List Entry) :
    blocks (es ++ rest) = blocks rest := by
  induction es with
  | nil => rfl
  | cons e es ih =>
    rw [List.cons_append, blocks, h e List.mem_cons_self]
    exact ih fun e' he' => h e' (List.mem_cons_of_mem _ he')

/-- The blocks are found again in a stream that is made of them and of links. -/
theorem blocks_flatten {bs : List (List Entry)} (hbs : ∀ b ∈ bs, ∃ document, IsBlock document b)
    {links : List Entry} (hlinks : ∀ e ∈ links, e.isLink = true) :
    blocks (bs.flatten ++ links) = bs := by
  induction bs with
  | nil =>
    have hnone := blocks_append (fun e he => Entry.document?_of_isLink (hlinks e he)) []
    rwa [List.append_nil] at hnone
  | cons b bs ih =>
    have hbs' : ∀ b ∈ bs, ∃ document, IsBlock document b :=
      fun b hb => hbs b (List.mem_cons_of_mem _ hb)
    obtain ⟨document, e, rest, rfl, hdocument, hinner⟩ := hbs b List.mem_cons_self
    -- what follows the block does not begin inside of it
    have hnext : (bs.flatten ++ links).takeWhile Entry.isInner = [] := by
      cases bs with
      | nil =>
        cases links with
        | nil => rfl
        | cons e' links =>
          have hlink := hlinks e' List.mem_cons_self
          simp [Entry.isInner, hlink]
      | cons b' bs =>
        obtain ⟨document', e', rest', rfl, hdocument', -⟩ := hbs' b' List.mem_cons_self
        simp [Entry.isInner, hdocument']
    have hrest : ∀ e' ∈ rest, e'.document? = none := by
      intro e' he'
      have hinside := hinner e' he'
      simp only [Entry.isInner, Bool.and_eq_true, Option.isNone_iff_eq_none] at hinside
      exact hinside.1
    rw [List.flatten_cons, List.append_assoc, List.cons_append, blocks, hdocument,
      blocks_append hrest, ih hbs', List.takeWhile_append_of_pos hinner, hnext, List.append_nil]
    rfl

namespace Project

/-- Whether each file could be indexed, in the order of the files. -/
def outcomes (p : Project) : List Bool :=
  ((p.indexFiles p.program.files.toList.zipIdx).run begun).1.map (·.1)

def before (p : Project) (fileId : Nat) : Session :=
  ((p.indexFiles (p.program.files.toList.take fileId).zipIdx).run begun).2

variable {p : Project}

/-- The files from a number on are still to come. -/
structure Awaits (p : Project) (fileId : Nat) (s : Session) : Prop where
  untouched : Untouched p.collaborators (fileId ≤ ·) s.symbols s.packages
  journal : s.journal = #[]

theorem stage_awaits (hno : p.collaborators.AnswersNoNode) (purpose : Purpose) {fileId : Nat}
    (file : SourceFile) {s : Session} (h : p.Awaits fileId s) :
    p.Awaits (fileId + 1) ((stage purpose (p.indexFile fileId file)).run s).2 := by
  have hnext : Untouched p.collaborators (fileId + 1 ≤ ·) s.symbols s.packages :=
    ⟨fun id hid => h.untouched.table id (Nat.le_of_succ_le hid), h.untouched.packages⟩
  have hindex := FileContext.index_untouched (c := p.context fileId file) hno
    (Nat.not_succ_le_self fileId) (s.lastId + 1)
    (s := ((Session.vertex (.document (p.documentOf file).1 (p.documentOf file).2)).run s).2) hnext
  rw [← indexFile_run] at hindex
  exact ⟨hindex, rfl⟩

theorem indexFiles_awaits (hno : p.collaborators.AnswersNoNode) (files : List SourceFile)
    {fileId : Nat} {s : Session} (h : p.Awaits fileId s) :
    p.Awaits (fileId + files.length) ((p.indexFiles (files.zipIdx fileId)).run s).2 := by
  induction files generalizing fileId s with
  | nil => exact h
  | cons file files ih =>
    have hrest := ih (stage_awaits hno (.file file.name) file h)
    rw [List.length_cons, Nat.add_comm files.length, ← Nat.add_assoc]
    rw [List.zipIdx_cons, indexFiles, List.mapM_cons]
    exact hrest

theorem begun_awaits (p : Project) : p.Awaits 0 begun :=
  ⟨⟨fun _ _ _ => rfl, [], rfl⟩, rfl⟩

theorem before_awaits (hno : p.collaborators.AnswersNoNode) {fileId : Nat} {file : SourceFile}
    (hfile : p.program.file? fileId = some file) : p.Awaits fileId (p.before fileId) := by
  have h := indexFiles_awaits hno (p.program.files.toList.take fileId) (begun_awaits p)
  have hlength : (p.program.files.toList.take fileId).length = fileId := by
    obtain ⟨hlt, -⟩ := Array.getElem?_eq_some_iff.mp hfile
    rw [List.length_take, Array.length_toList]
    exact Nat.min_eq_left hlt.le
  rw [hlength, Nat.zero_add] at h
  exact h

theorem indexFiles_length (files : List (SourceFile × Nat)) (s : Session) :
    ((p.indexFiles files).run s).1.length = files.length := by
  induction files generalizing s with
  | nil => rfl
  | cons f files ih =>
    rw [indexFiles, List.mapM_cons]
    exact congrArg (· + 1) (ih _)

theorem indexFiles_getElem? {files : List SourceFile} {i : Nat} {file : SourceFile}
    (hfile : files[i]? = some file) (fileId : Nat) (s : Session) :
    ((p.indexFiles (files.zipIdx fileId)).run s).1[i]? =
      some ((stage (.file file.name) (p.indexFile (fileId + i) file)).run
        ((p.indexFiles ((files.take i).zipIdx fileId)).run s).2).1 := by
  induction files generalizing i fileId s with
  | nil => simp at hfile
  | cons file' files ih =>
    rw [List.zipIdx_cons, indexFiles, List.mapM_cons]
    cases i with
    | zero =>
      obtain rfl : file' = file := Option.some.inj hfile
      rfl
    | succ i =>
      have hrest := ih hfile (fileId + 1)
        ((stage (.file file'.name) (p.indexFile fileId file')).run s).2
      rw [List.take_succ_cons, List.zipIdx_cons, indexFiles, List.mapM_cons]
      have hnext : fileId + 1 + i = fileId + (i + 1) := by omega
      rw [hnext] at hrest
      exact hrest

theorem indexFile_fst (fileId : Nat) (file : SourceFile) (s : Session) :
    ((p.indexFile fileId file).run s).1 = file.fault?.isNone := by
  let s₁ := ((Session.vertex (p.documentElement file)).run s).2
  have herror := FileContext.index_error_iff (c := p.context fileId file) (s.lastId + 1) s₁
  have hrun : ((p.indexFile fileId file).run s).1 =
      (((p.context fileId file).index (s.lastId + 1)).run s₁).1.toBool := by
    simp only [indexFile, run_bind]
    split
    · next h => exact congrArg Except.toBool h.symm
    · next h => exact congrArg Except.toBool h.symm
  rw [hrun]
  cases hresult : (((p.context fileId file).index (s.lastId + 1)).run s₁).1 with
  | error e =>
    have hfault : file.fault? = some e := (herror e).mp hresult
    rw [hfault]
    rfl
  | ok summary =>
    cases hfault : file.fault? with
    | none => rfl
    | some e =>
      have hfailed := (herror e).mpr hfault
      rw [hresult] at hfailed
      cases hfailed

variable {p' : Project} {fileId fileId' k : Nat} {file : SourceFile} {s s' : Session}

theorem Awaits.entries_document (hs : p.Awaits fileId s) :
    ((Session.vertex (p.documentElement file)).run s).2.journal.entries =
      [⟨s.lastId + 1, .vertex, p.documentElement file⟩] := by
  have hentries := Session.entries_emit s .vertex (p.documentElement file)
  rw [hs.journal] at hentries
  exact hentries

theorem indexFile_shifted (hbeside : (p.context fileId file).Beside (p'.context fileId' file))
    (hs : p.Awaits fileId s) (hs' : p'.Awaits fileId' s') (hlast : s'.lastId = s.lastId + k) :
    IsBlock (p.documentOf file) ((p.indexFile fileId file).run s).2.journal.entries ∧
      ((p'.indexFile fileId' file).run s').2.journal.entries =
        ((p.indexFile fileId file).run s).2.journal.entries.map (·.shift k) := by
  let s₁ := ((Session.vertex (p.documentElement file)).run s).2
  let s₁' := ((Session.vertex (p'.documentElement file)).run s').2
  have hdocument : p'.documentElement file = p.documentElement file := by
    have hoptions : p'.options = p.options := hbeside.options
    simp only [documentElement, documentOf, hoptions]
  have hid : s'.lastId + 1 = s.lastId + 1 + k := by omega
  have hmatches : Memory.Matches p.collaborators p'.collaborators fileId fileId'
      ⟨s₁.symbols, {}, s₁.packages, s₁.journal⟩ ⟨s₁'.symbols, {}, s₁'.packages, s₁'.journal⟩ := by
    refine ⟨fun r => ?_, fun _ => rfl, rfl, rfl, hs.untouched.packages, hs'.untouched.packages⟩
    exact (hs'.untouched.table fileId' le_rfl r).trans (hs.untouched.table fileId le_rfl r).symm
  obtain ⟨written, hinner, hwritten, hwritten'⟩ :=
    hbeside.index_shifted (s.lastId + 1) hmatches hid
  have hindex : ((p.indexFile fileId file).run s).2.journal.entries =
      ⟨s.lastId + 1, .vertex, p.documentElement file⟩ :: written := by
    rw [indexFile_run]
    refine hwritten.trans ?_
    rw [hs.entries_document]
    rfl
  rw [hindex]
  refine ⟨⟨_, written, rfl, rfl, hinner⟩, ?_⟩
  rw [indexFile_run, hid]
  refine hwritten'.trans ?_
  rw [hs'.entries_document, hdocument, hid]
  rfl

theorem beside (hoptions : p'.options = p.options)
    (hpackages : p.collaborators.SamePackages p'.collaborators)
    (hno : p.collaborators.AnswersNoNode) (hno' : p'.collaborators.AnswersNoNode)
    (hfile : p.program.file? fileId = some file)
    (hfile' : p'.program.file? fileId' = some file) :
    (p.context fileId file).Beside (p'.context fileId' file) :=
  ⟨rfl, hoptions, hfile, hfile', hpackages, hno, hno'⟩

theorem result_of_file (hfile : p.program.file? fileId = some file) :
    ((p.indexFiles p.program.files.toList.zipIdx).run begun).1[fileId]? =
      some ((stage (.file file.name) (p.indexFile fileId file)).run (p.before fileId)).1 := by
  have hget : p.program.files.toList[fileId]? = some file := by
    rw [Array.getElem?_toList]
    exact hfile
  have hresult := indexFiles_getElem? (p := p) hget 0 begun
  rw [Nat.zero_add] at hresult
  exact hresult

theorem results_isBlock (hpackages : p.collaborators.SamePackages p.collaborators)
    (hno : p.collaborators.AnswersNoNode) :
    ∀ x ∈ ((p.indexFiles p.program.files.toList.zipIdx).run begun).1,
      ∃ document, IsBlock document x.2.effects.entries := by
  intro x hx
  obtain ⟨fileId, hget⟩ := List.mem_iff_getElem?.mp hx
  obtain ⟨file, hfile⟩ : ∃ file, p.program.file? fileId = some file := by
    have hlt := (List.getElem?_eq_some_iff.mp hget).1
    rw [indexFiles_length, List.length_zipIdx, Array.length_toList] at hlt
    exact ⟨_, Array.getElem?_eq_getElem hlt⟩
  rw [result_of_file hfile] at hget
  obtain rfl := Option.some.inj hget
  have hawaits := before_awaits hno hfile
  have hbeside := beside rfl hpackages hno hno hfile hfile
  exact ⟨_, (indexFile_shifted (k := 0) hbeside hawaits hawaits rfl).1⟩

end Project

theorem isLink_linkage (last : Nat) (graph : List (Nat × List Nat)) :
    ∀ e ∈ linkage last graph, e.isLink = true := by
  induction graph generalizing last with
  | nil => simp [linkage]
  | cons x graph ih =>
    intro e he
    rcases List.mem_append.mp he with he | he
    · simp only [linkRecords, List.mem_cons, List.not_mem_nil, or_false] at he
      rcases he with rfl | rfl | rfl | rfl <;> rfl
    · exact ih _ e he

namespace Project

variable {p p' : Project} {fileId fileId' : Nat} {file : SourceFile} {σ σ' : Type} [Sink σ]
  [Sink σ'] {ready : σ → Prop} {ready' : σ' → Prop} {sink : σ} {sink' : σ'}

theorem written_of_reliable (hs : Sink.Reliable ready) (hsink : ready sink)
    (hsize : p.program.size ≠ 0) :
    (p.index sink).2.written = p.front ++ linkage p.recorded.lastId p.graph.entries := by
  have hstart : Delivery.Sound ready { sink } := ⟨rfl, hsink⟩
  obtain ⟨hnone, hwritten⟩ := hstart.performStages hs p.plan.stages
  have hindex : (p.index sink).2 = (Delivery.performStages p.plan.stages { sink }).2 := by
    simp only [index, hsize, if_false]
    split <;> simp_all
  rw [hindex, hwritten, plan_entries]
  rfl

theorem blocks_written (hs : Sink.Reliable ready) (hsink : ready sink)
    (hpackages : p.collaborators.SamePackages p.collaborators)
    (hno : p.collaborators.AnswersNoNode) (hfile : p.program.file? fileId = some file) :
    (blocks (p.index sink).2.written)[fileId]? =
      some ((p.indexFile fileId file).run (p.before fileId)).2.journal.entries := by
  have hsize : p.program.size ≠ 0 := by
    obtain ⟨hlt, -⟩ := Array.getElem?_eq_some_iff.mp hfile
    exact Nat.ne_of_gt (Nat.lt_of_le_of_lt (Nat.zero_le fileId) hlt)
  have hrecorded : p.recorded.journal = #[] :=
    (indexFiles_awaits hno p.program.files.toList (begun_awaits p)).journal
  have hblocks : blocks (p.index sink).2.written =
      ((p.indexFiles p.program.files.toList.zipIdx).run begun).1.map (·.2.effects.entries) := by
    rw [written_of_reliable hs hsink hsize, front, hrecorded, List.append_assoc, List.append_assoc,
      blocks_append (by simp [Entry.document?])]
    refine Eq.trans ?_ (blocks_flatten (fun b hb => ?_)
      (isLink_linkage p.recorded.lastId p.graph.entries))
    · rw [List.flatMap_def]
      rfl
    · obtain ⟨x, hx, rfl⟩ := List.mem_map.mp hb
      exact results_isBlock hpackages hno x hx
  rw [hblocks, List.getElem?_map, result_of_file hfile]
  rfl

theorem outcome_of_file (hfile : p.program.file? fileId = some file) :
    p.outcomes[fileId]? = some file.fault?.isNone := by
  rw [outcomes, List.getElem?_map, result_of_file hfile]
  exact congrArg some (indexFile_fst fileId file _)

/-- A file's block does not depend on the other files. Two runs with the same options and packages,
in which no question about types is answered with a node, write the same block for a file that both
programs have, wherever it stands, up to a number that is added to all ids; and the file can be
indexed in both or in none. -/
theorem block_independent (hs : Sink.Reliable ready) (hs' : Sink.Reliable ready')
    (p p' : Project) (hsink : ready sink) (hsink' : ready' sink')
    (hoptions : p'.options = p.options)
    (hpackages : p.collaborators.SamePackages p'.collaborators)
    (hno : p.collaborators.AnswersNoNode) (hno' : p'.collaborators.AnswersNoNode)
    (hfile : p.program.file? fileId = some file)
    (hfile' : p'.program.file? fileId' = some file) :
    (∃ block block' k, (blocks (p.index sink).2.written)[fileId]? = some block ∧
      (blocks (p'.index sink').2.written)[fileId']? = some block' ∧
      block.head?.bind Entry.document? = some (p.documentOf file) ∧
      (block' = block.map (·.shift k) ∨ block = block'.map (·.shift k))) ∧
    ∃ success, p.outcomes[fileId]? = some success ∧ p'.outcomes[fileId']? = some success := by
  have hself := hpackages.refl_left
  have hself' := hpackages.symm.refl_left
  have hawaits := before_awaits hno hfile
  have hawaits' := before_awaits hno' hfile'
  have hbeside := beside hoptions hpackages hno hno' hfile hfile'
  have hbeside' := beside hoptions.symm hpackages.symm hno' hno hfile' hfile
  have hblock := (indexFile_shifted (k := 0) (beside rfl hself hno hno hfile hfile) hawaits hawaits
    rfl).1
  refine ⟨?_, _, outcome_of_file hfile, outcome_of_file hfile'⟩
  have hhead : (((p.indexFile fileId file).run (p.before fileId)).2.journal.entries).head?.bind
      Entry.document? = some (p.documentOf file) := by
    obtain ⟨e, rest, hentries, hdocument, -⟩ := hblock
    rw [hentries]
    exact hdocument
  -- ids are moved upwards, so it matters in which run more of them were given out before
  rcases Nat.le_total (p.before fileId).lastId (p'.before fileId').lastId with hle | hle
  · obtain ⟨k, hk⟩ := Nat.exists_eq_add_of_le hle
    exact ⟨_, _, k, blocks_written hs hsink hself hno hfile,
      blocks_written hs' hsink' hself' hno' hfile', hhead,
      .inl (indexFile_shifted hbeside hawaits hawaits' hk).2⟩
  · obtain ⟨k, hk⟩ := Nat.exists_eq_add_of_le hle
    exact ⟨_, _, k, blocks_written hs hsink hself hno hfile,
      blocks_written hs' hsink' hself' hno' hfile', hhead,
      .inr (indexFile_shifted hbeside' hawaits' hawaits hk).2⟩

def classFile (name : String) : SourceFile where
  name
  text := "class A{}".toList
  arena := ((Arena.empty.add .identifier 6 7 (.identifier "A")).add .classDeclaration 0 9
    (.declaration (.classLike none (some 0) none none []))).add .sourceFile 0 9
    (.sourceFile [some 1] name .ts false)
  root := some 2

def classFirst : Project where
  program := ⟨#[classFile "a.ts"]⟩
  options := {}
  collaborators := { Collaborators.none with package := fun _ => pure (some (.package "p" "1.0")) }

/-- The class after a file whose root is missing and one that looks like it, and with references. -/
def classLast : Project where
  program := ⟨#[rootlessFile "b.ts", classFile "c.ts", classFile "a.ts"]⟩
  options := {}
  collaborators := { Collaborators.none with
    references := fun _ _ => .ok [⟨"a.ts", 6, 1⟩]
    package := fun _ => pure (some (.package "p" "1.0")) }

theorem classFirst_independent :
    ((blocks (classFirst.index ({} : MemorySink)).2.written)[0]?).map (·.map (·.id)) =
        some [3, 4, 5, 6, 7, 8] ∧
      ((blocks (classLast.index ({} : MemorySink)).2.written)[2]?).map (·.map (·.id)) =
        some [10, 11, 12, 13, 14, 15] ∧
      ∃ block block' k, (blocks (classFirst.index ({} : MemorySink)).2.written)[0]? = some block ∧
        (blocks (classLast.index ({} : MemorySink)).2.written)[2]? = some block' ∧
        (block' = block.map (·.shift k) ∨ block = block'.map (·.shift k)) := by
  refine ⟨by decide +kernel, by decide +kernel, ?_⟩
  have hfile : classFirst.program.file? 0 = some (classFile "a.ts") := rfl
  have hfile' : classLast.program.file? 2 = some (classFile "a.ts") := rfl
  have hsink : (fun _ : MemorySink => True) {} := trivial
  obtain ⟨⟨block, block', k, hblock, hblock', -, hshift⟩, -⟩ :=
    block_independent memory_reliable memory_reliable classFirst classLast hsink hsink rfl
      (fun _ _ _ => rfl) ⟨fun _ _ => rfl, fun _ => rfl⟩ ⟨fun _ _ => rfl, fun _ => rfl⟩ hfile
      hfile'
  exact ⟨block, block', k, hblock, hblock', hshift⟩

end Project

end SourceIndex
