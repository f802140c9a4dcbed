import SourceIndex.Proofs.Accounts
import SourceIndex.Proofs.RecordKinds

/-! The summary of a run and what was written. Files are counted as they come, definitions in their
table, and links in the graph. The stream has the same numbers: each definition that is put into the
table is a document or a range, whether the file is cut off or not, and each link of the graph is
written as four records, from which the graph can be read back. -/

namespace SourceIndex

def SourceFile.isRooted (f : SourceFile) : Bool := f.arena.kind? f.root = some .sourceFile

/-- The parts of a link: the result, the edge to it, and its items. -/
inductive LinkPart where
  | result
  | references
  | item (property : ItemProperty)

namespace Entry

def isPart (part : LinkPart) (e : Entry) : Bool :=
  match part, e.type, e.element with
  | .result, .vertex, .referenceResult => true
  | .references, .edge, .references _ => true
  | .item property, .edge, .item _ _ property' => property' = property
  | _, _, _ => false

variable {e : Entry}

theorem isLink_of_isPart {part : LinkPart} (h : e.isPart part = true) : e.isLink = true := by
  obtain ⟨id, type, element⟩ := e
  cases part <;> cases type <;> cases element <;> first | rfl | cases h

theorem isLink_of_isRange (h : e.isRange = true) : e.isLink = false := by
  obtain ⟨id, type, element⟩ := e
  cases type <;> cases element <;> first | rfl | cases h

end Entry

/-- Reads links back, each from four records: a result, the edge to it, the item with its definition
and the item with what refers to that. A group with another shape, or of several results, is
refused. -/
def decodeLinks : List Entry → Option (List (Nat × List Nat))
  | [] => some []
  | ⟨result, .vertex, .referenceResult⟩ :: ⟨_, .edge, .references result₁⟩ ::
      ⟨_, .edge, .item result₂ [id] .definitions⟩ ::
      ⟨_, .edge, .item result₃ referrers .references⟩ :: rest =>
    if result₁ = result ∧ result₂ = result ∧ result₃ = result then
      (decodeLinks rest).map ((id, referrers) :: ·)
    else none
  | _ => none

theorem decodeLinks_linkage (last : Nat) (graph : List (Nat × List Nat)) :
    decodeLinks (linkage last graph) = some graph := by
  induction graph generalizing last with
  | nil => rfl
  | cons x graph ih =>
    simp only [linkage, linkRecords, List.cons_append, List.nil_append, decodeLinks, ih, and_self,
      if_true, Option.map_some]

theorem countP_linkRecords (part : LinkPart) (last id : Nat) (referrers : List Nat) :
    (linkRecords last id referrers).countP (Entry.isPart part) = 1 := by
  cases part with
  | result => rfl
  | references => rfl
  | item property => cases property <;> rfl

theorem countP_linkage (part : LinkPart) (last : Nat) (graph : List (Nat × List Nat)) :
    (linkage last graph).countP (Entry.isPart part) = graph.length := by
  induction graph generalizing last with
  | nil => rfl
  | cons x graph ih =>
    rw [linkage, List.countP_append, countP_linkRecords, ih, List.length_cons, Nat.add_comm]

theorem countP_eq_zero_of_isLink {kind : Entry → Bool} {es : List Entry} {isLink : Bool}
    (hkind : ∀ e, kind e = true → e.isLink = !isLink) (h : ∀ e ∈ es, e.isLink = isLink) :
    es.countP kind = 0 := by
  rw [List.countP_eq_zero]
  intro e he hk
  have hlink := h e he
  rw [hkind e hk] at hlink
  cases isLink <;> cases hlink

theorem Table.length_keys {κ α : Type} (t : Table κ α) : t.keys.length = t.size := List.length_map _

namespace FileContext

variable {c : FileContext} {document : Nat} {s : Session} {scopes : List Scope}

theorem record_leave_definitions (r : Recorder) :
    ((c.record .leave).run r).2.session.definitions = r.session.definitions := by
  rcases record_cases (c := c) .leave r with ⟨-, hpass⟩ | ⟨o, hopening, -⟩
  · exact hpass.session.definitions
  · simp [opening?] at hopening

theorem after_leave_definitions (r : Recorder) (k : Nat) :
    (c.after r (List.replicate k .leave)).session.definitions = r.session.definitions := by
  induction k generalizing r with
  | zero => rfl
  | succ k ih => exact (ih _).trans (record_leave_definitions r)

/-- The definitions of a file are the document and the declarations, also if its tour is cut off:
nothing is defined any more after the last node was entered. -/
theorem index_definitions (document : Nat) (s : Session)
    (hroot : c.file.arena.kind? c.file.root = some .sourceFile) :
    ((c.index document).run s).2.definitions =
      (c.declarations s).foldl (fun t d => t.insert d.note.id (c.location d))
        (s.definitions.insert document ⟨c.file.name, c.file.nodeRange c.file.root⟩) := by
  have htour : ((c.index document).run s).2.definitions =
      (c.after (c.start document s) c.file.tour.events).session.definitions := by
    rw [index_rooted hroot]
    cases hcut : c.file.tour.isCut with
    | true => rw [recordAll_cut hcut]
    | false =>
      obtain ⟨session, hrun, hwrites⟩ := recordAll_outlines document s hcut
      rw [hrun]
      exact hwrites.definitions.trans (closeComponent_passes _).session.definitions
  obtain ⟨k, hevents, -⟩ := c.file.tour_follows
  have hleave := after_leave_definitions (c := c)
    (c.after (c.start document s) c.file.tour.events) k
  rw [← after_append, ← hevents] at hleave
  rw [htour, ← hleave, declarations_rooted hroot]
  exact (c.recorded_walk document s).definitions

/-- No definition replaces another one. -/
theorem index_keys (h : s.Registers scopes) (hfresh : ∀ o ∈ scopes, o.id < document)
    (hdocument : document ≤ s.lastId)
    (hroot : c.file.arena.kind? c.file.root = some .sourceFile) :
    ((c.index document).run s).2.definitions.keys =
      s.definitions.keys ++ [document] ++ (c.declarations s).map (·.note.id) := by
  have hold : ∀ id ∈ s.definitions.keys, id < document := by
    intro id hid
    rw [Table.keys, h.definitions, List.map_map] at hid
    obtain ⟨o, ho, rfl⟩ := List.mem_map.mp hid
    exact hfresh o ho
  have hnew : document ∉ s.definitions.keys := fun hmem => absurd (hold _ hmem) (lt_irrefl _)
  -- the ids of the declarations grow from that of the document on
  obtain ⟨hlater, hids⟩ := List.pairwise_cons.mp (c.components_increasing hdocument)
  rw [index_definitions document s hroot, declarations_rooted hroot,
    Table.keys_foldl_insert (hids.imp Nat.ne_of_lt), Table.keys_insert_of_not_mem hnew]
  intro d hd hmem
  have hd' : document < d.note.id := hlater _ (List.mem_map_of_mem hd)
  rw [Table.keys_insert_of_not_mem hnew, List.mem_append, List.mem_singleton] at hmem
  rcases hmem with hmem | hmem
  · have hlt := hold _ hmem
    omega
  · omega

/-- A definition is added for each declaration, and one more for the document if the file has a
proper root. -/
theorem index_size (h : s.Registers scopes) (hfresh : ∀ o ∈ scopes, o.id < document)
    (hdocument : document ≤ s.lastId) :
    ((c.index document).run s).2.definitions.size =
      s.definitions.size + (c.declarations s).length + if c.file.isRooted then 1 else 0 := by
  by_cases hroot : c.file.arena.kind? c.file.root = some .sourceFile
  · rw [← Table.length_keys, index_keys h hfresh hdocument hroot, List.length_append,
      List.length_append, List.length_map, Table.length_keys]
    simp [SourceFile.isRooted, hroot, Nat.add_right_comm]
  · rw [index_unrooted hroot, declarations_unrooted hroot]
    simp [SourceFile.isRooted, hroot]

end FileContext

namespace Project

variable {p : Project} {scopes : List Scope} {s : Session}

theorem indexFile_size (fileId : Nat) (file : SourceFile) (h : s.Registers scopes)
    (hjournal : s.journal = #[]) :
    ((p.indexFile fileId file).run s).2.definitions.size = s.definitions.size +
      ((p.indexFile fileId file).run s).2.journal.entries.countP Entry.isRange +
        if file.isRooted then 1 else 0 := by
  let c := p.context fileId file
  let s₁ := ((Session.vertex (p.documentElement file)).run s).2
  have h₁ : s₁.Registers scopes := h.keeps (Session.keeps_vertex s fun _ => rfl)
  have hfresh : ∀ o ∈ scopes, o.id < s.lastId + 1 := fun o ho => Nat.lt_succ_of_le (h.bounded o ho)
  have hsize := FileContext.index_size (c := c) h₁ hfresh le_rfl
  -- so far the document is written, and no range
  have hnone : s₁.journal.ranges = [] := by
    have hentries := Session.entries_emit s .vertex (p.documentElement file)
    rw [hjournal] at hentries
    exact congrArg (List.filter Entry.isRange) hentries
  have hranges : ((c.index (s.lastId + 1)).run s₁).2.journal.ranges.length =
      (c.declarations s₁).length := by
    rw [FileContext.index_ranges, hnone, List.nil_append, List.length_map]
  rw [Journal.ranges, ← List.countP_eq_length_filter] at hranges
  rw [← hranges] at hsize
  rw [indexFile_run]
  exact hsize

theorem indexFiles_size (files : List (SourceFile × Nat)) (h : s.Registers scopes)
    (hjournal : s.journal = #[]) :
    ((p.indexFiles files).run s).2.definitions.size = s.definitions.size +
        (p.filesWritten files s).countP Entry.isRange + files.countP (·.1.isRooted) ∧
      ((p.indexFiles files).run s).2.journal = #[] := by
  induction files generalizing s scopes with
  | nil => exact ⟨rfl, hjournal⟩
  | cons f files ih =>
    have hfirst := indexFile_size (p := p) f.2 f.1 h hjournal
    let s₁ := ((Session.takeJournal).run ((p.indexFile f.2 f.1).run s).2).2
    have h₁ : s₁.Registers _ :=
      stage_registers (.file f.1.name) (indexFile_registers (p := p) f.2 f.1 h)
    have hkept : s₁.definitions.size = ((p.indexFile f.2 f.1).run s).2.definitions.size := rfl
    have hwritten : p.filesWritten (f :: files) s =
        ((p.indexFile f.2 f.1).run s).2.journal.entries ++ p.filesWritten files s₁ := by
      rw [filesWritten, indexFiles_cons, List.flatMap_cons]
      rfl
    obtain ⟨hrest, hempty⟩ := ih h₁ rfl
    rw [indexFiles_cons, hwritten, List.countP_append, List.countP_cons]
    refine ⟨hrest.trans ?_, hempty⟩
    rw [hkept, hfirst]
    omega

theorem countP_isRange_front (p : Project) :
    p.front.countP Entry.isRange =
      (p.filesWritten p.program.files.toList.zipIdx begun).countP Entry.isRange := by
  have hempty := (indexFiles_size (p := p) p.program.files.toList.zipIdx begun_registers rfl).2
  have hnone : p.recorded.journal.entries = [] := congrArg Journal.entries hempty
  rw [front, hnone, List.append_nil, List.countP_append]
  exact Nat.zero_add _

/-- Each definition of a run is one of its ranges, or the document of a file with a proper root. -/
theorem recorded_size (p : Project) :
    p.recorded.definitions.size =
      p.front.countP Entry.isRange + p.program.files.toList.countP SourceFile.isRooted := by
  have hsize := (indexFiles_size (p := p) p.program.files.toList.zipIdx begun_registers rfl).1
  have hfiles : p.program.files.toList.zipIdx.countP (·.1.isRooted) =
      p.program.files.toList.countP SourceFile.isRooted := by
    conv_rhs => rw [← List.zipIdx_map_fst 0 p.program.files.toList, List.countP_map]
    rfl
  rw [countP_isRange_front, ← hfiles]
  exact hsize.trans (congrArg (· + _) (Nat.zero_add _))

theorem plan_filesCounted (p : Project) :
    p.plan.summary.filesIndexed + p.plan.summary.filesFailed = p.program.size := by
  let results := ((p.indexFiles p.program.files.toList.zipIdx).run begun).1
  have hlength : results.length = p.program.size := by
    rw [indexFiles_length, List.length_zipIdx, Array.length_toList]
    rfl
  have hcount : results.countP (fun x => x.1) + results.countP (fun x => !x.1) =
      results.length := by
    simpa using (List.length_eq_countP_add_countP (l := results) fun x => x.1).symm
  exact hcount.trans hlength

theorem documents_counted (p : Project) :
    (p.plan.stages.flatMap (·.effects.entries)).countP (·.document?.isSome) = p.program.size := by
  have hdocuments := (planAll_closed (p := p) {} session_coherent).2
  have hlength := congrArg List.length hdocuments
  rw [List.length_filterMap_eq_countP, List.length_map, Array.length_toList] at hlength
  exact hlength

variable {σ : Type} [Sink σ] {ready : σ → Prop}

/-- The summary of a run agrees with what was written. The files that were indexed and those that
failed are all files, and each has a document. The definitions are the ranges and, for each file
with a proper root, its document. The linked definitions are the results, the edges to them, and
their items of either kind; and from these records the graph of the links can be read back. -/
theorem summary_agrees_with_stream (hs : Sink.Reliable ready) {p : Project} {sink : σ}
    (hsink : ready sink) {summary : Summary} (h : (p.index sink).1 = .ok summary) :
    let written := (p.index sink).2.written
    (summary.filesIndexed + summary.filesFailed = p.program.size ∧
      written.countP (·.document?.isSome) = p.program.size) ∧
    summary.definitions =
      written.countP Entry.isRange + p.program.files.toList.countP SourceFile.isRooted ∧
    (∀ part, written.countP (Entry.isPart part) = summary.linkedDefinitions) ∧
    decodeLinks (written.filter Entry.isLink) =
      some (link p.recorded.definitions p.recorded.references).entries := by
  intro written
  have hsize : p.program.size ≠ 0 := by
    intro hsize
    rw [index, if_pos hsize] at h
    cases h
  have hwritten : written = p.front ++ linkage p.recorded.lastId p.graph.entries :=
    written_of_reliable hs hsink hsize
  obtain rfl : p.plan.summary = summary :=
    Except.ok.inj (((index_of_reliable hs p hsink).2 hsize).symm.trans h)
  have hranges : written.countP Entry.isRange = p.front.countP Entry.isRange := by
    rw [hwritten, List.countP_append,
      countP_eq_zero_of_isLink (fun _ => Entry.isLink_of_isRange) (isLink_linkage _ _),
      Nat.add_zero]
  have hlinks : written.filter Entry.isLink = linkage p.recorded.lastId p.graph.entries := by
    rw [hwritten, List.filter_append, List.filter_eq_nil_iff.mpr (by simpa using front_plain p),
      List.filter_eq_self.mpr (isLink_linkage _ _), List.nil_append]
  refine ⟨⟨p.plan_filesCounted, ?_⟩, ?_, fun part => ?_, ?_⟩
  · rw [hwritten, ← plan_entries]
    exact p.documents_counted
  · rw [hranges]
    exact p.recorded_size
  · rw [hwritten, List.countP_append, countP_linkage,
      countP_eq_zero_of_isLink (fun _ => Entry.isLink_of_isPart) (front_plain p), Nat.zero_add]
    rfl
  · rw [hlinks]
    exact decodeLinks_linkage _ _

/-- A file with two classes and a method, and one that fails. All three are referred to from the
end of the file, so they are linked to its document. -/
theorem unmeasured_summary :
    let summary := unmeasured.plan.summary
    let written := (unmeasured.index ({} : MemorySink)).2.written
    (unmeasured.index ({} : MemorySink)).1 = .ok summary ∧
      (summary.filesIndexed = 1 ∧ summary.filesFailed = 1 ∧ summary.definitions = 4 ∧
        summary.linkedDefinitions = 3) ∧
      written.countP (·.document?.isSome) = 2 ∧ written.countP Entry.isRange = 3 ∧
      (∀ part, written.countP (Entry.isPart part) = 3) ∧
      decodeLinks (written.filter Entry.isLink) = some [(6, [3]), (9, [3]), (12, [3])] := by
  intro summary written
  have hok : (unmeasured.index ({} : MemorySink)).1 = .ok summary :=
    (index_of_reliable memory_reliable unmeasured trivial).2 (by decide)
  have hcounts : summary.filesIndexed = 1 ∧ summary.filesFailed = 1 ∧ summary.definitions = 4 ∧
      summary.linkedDefinitions = 3 := by decide +kernel
  have hrooted : unmeasured.program.files.toList.countP SourceFile.isRooted = 1 := by
    decide +kernel
  have hgraph : (link unmeasured.recorded.definitions unmeasured.recorded.references).entries =
      [(6, [3]), (9, [3]), (12, [3])] := by decide +kernel
  obtain ⟨⟨-, hdocuments⟩, hdefinitions, hparts, hlinks⟩ :=
    summary_agrees_with_stream memory_reliable trivial hok
  rw [hrooted, hcounts.2.2.1] at hdefinitions
  have hranges : written.countP Entry.isRange = 3 := Nat.succ.inj hdefinitions.symm
  refine ⟨hok, hcounts, hdocuments, hranges, fun part => ?_, hgraph ▸ hlinks⟩
  exact (hparts part).trans hcounts.2.2.2

end Project

end SourceIndex
