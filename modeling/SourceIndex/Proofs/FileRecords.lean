import SourceIndex.Proofs.Sorting
import SourceIndex.Proofs.Survey

/-! The records of one file: what a file that was indexed leaves behind is read off the walk through
it. -/

namespace SourceIndex

/-- Sorting brings a list into the one order in which the keys increase. -/
theorem sortBy_of_perm {α : Type} {key : α → Nat} {as bs : List α} (hperm : as.Perm bs)
    (hkeys : (bs.map key).Pairwise (· < ·)) : sortBy (fun a b => key a ≤ key b) as = bs := by
  have : Std.Total (fun a b : α => decide (key a ≤ key b) = true) :=
    ⟨fun a b => by simpa using Nat.le_total (key a) (key b)⟩
  have : IsTrans α (fun a b => decide (key a ≤ key b) = true) :=
    ⟨fun a b c => by simpa using Nat.le_trans⟩
  have hsorted : (sortBy (fun a b => decide (key a ≤ key b)) as).Pairwise
      fun a b => key a ≤ key b := by
    rw [sortBy_eq]
    simpa using List.pairwise_insertionSort (fun a b : α => decide (key a ≤ key b) = true) as
  have hbs : bs.Pairwise fun a b => key a < key b := List.pairwise_map.mp hkeys
  have hnodup : (bs.map key).Nodup := hkeys.imp fun h => Nat.ne_of_lt h
  have hall := (sortBy_perm (fun a b => decide (key a ≤ key b)) as).trans hperm
  refine hall.eq_of_pairwise ?_ hsorted (hbs.imp fun h => Nat.le_of_lt h)
  intro a b ha hb hab hba
  exact List.inj_on_of_nodup_map hnodup (hall.mem_iff.mp ha) hb (Nat.le_antisymm hab hba)

/-- The ids increase, from behind the first bound up to the second. -/
structure IncreasesWithin (lo hi : Nat) (ids : List Nat) : Prop where
  le : lo ≤ hi
  increasing : ids.Pairwise (· < ·)
  bounds : ∀ id ∈ ids, lo < id ∧ id ≤ hi

namespace IncreasesWithin

variable {lo mid mid' hi hi' : Nat} {ids ids' : List Nat}

theorem nil (h : lo ≤ hi) : IncreasesWithin lo hi [] := ⟨h, .nil, by simp⟩

theorem singleton (h : lo < hi) : IncreasesWithin lo hi [hi] :=
  ⟨h.le, List.pairwise_singleton _ _, by simpa using h⟩

theorem mono (h : IncreasesWithin lo hi ids) (hle : hi ≤ hi') : IncreasesWithin lo hi' ids :=
  ⟨h.le.trans hle, h.increasing, fun id hid => ⟨(h.bounds id hid).1, (h.bounds id hid).2.trans hle⟩⟩

theorem append (h : IncreasesWithin lo mid ids) (h' : IncreasesWithin mid' hi ids')
    (hmid : mid ≤ mid') : IncreasesWithin lo hi (ids ++ ids') := by
  have hle := h.le
  have hle' := h'.le
  refine ⟨by omega, List.pairwise_append.mpr ⟨h.increasing, h'.increasing, fun a ha b hb => ?_⟩,
    fun id hid => ?_⟩
  · have hbound := h.bounds a ha
    have hbound' := h'.bounds b hb
    omega
  · rcases List.mem_append.mp hid with hid | hid
    · have hbound := h.bounds id hid
      omega
    · have hbound := h'.bounds id hid
      omega

end IncreasesWithin

namespace Walk

/-- The components in the order in which they are opened. -/
def components (w : Walk Opened) : List Component :=
  w.spans.map fun x => ⟨x.1.note.id, x.2.tokens⟩

def ids (w : Walk Opened) : List Nat := w.noted.map (·.note.id)

theorem noted_symbols_length (w : Walk Opened) : w.symbols.noted.length = w.ids.length := by
  simp [symbols, noted_mapNotes, ids]

theorem ids_node (index : Nat) (n : Node) (note : Option Opened) (inside rest : Walk Opened) :
    (node index n note inside rest).ids = note.toList.map (·.id) ++ (inside.ids ++ rest.ids) := by
  simp [ids, noted_node, Function.comp_def]

theorem components_node (index : Nat) (n : Node) (note : Option Opened)
    (inside rest : Walk Opened) :
    (node index n note inside rest).components =
      note.toList.map (fun o => ⟨o.id, inside.tokens⟩) ++
        (inside.components ++ rest.components) := by
  simp [components, spans, Function.comp_def]

theorem components_ids (w : Walk Opened) : w.components.map (·.id) = w.ids := by
  simp [components, ids, noted, Function.comp_def]

theorem closings_perm (w : Walk Opened) : w.closings.Perm w.components := by
  induction w with
  | done => exact .nil
  | operator token rest ih => exact ih
  | operand token rest ih => exact ih
  | node index n note inside rest ih ih' =>
    rw [closings, components_node, ← List.append_assoc, ← List.append_assoc]
    exact (List.perm_append_comm.trans (ih.append_left _)).append ih'

/-- Ids are given out in the order in which the components are opened. -/
theorem ids_number (closing last : Nat) (w : Walk Symbol) :
    IncreasesWithin last (last + (3 + closing) * w.noted.length) (w.number closing last).ids := by
  induction w generalizing last with
  | done => exact .nil (Nat.le_add_right _ _)
  | operator token rest ih => exact ih last
  | operand token rest ih => exact ih last
  | node index n note inside rest ih ih' =>
    cases note with
    | none =>
      have hrest := ih' (last + (3 + closing) * inside.noted.length)
      simp only [number, ids_node, noted_node, Option.toList_none, List.map_nil, List.nil_append,
        List.length_append, Nat.mul_add]
      exact ((ih last).append hrest (Nat.le_refl _)).mono (by omega)
    | some s =>
      have hinside := ih (last + 3)
      have hrest := ih' (last + 3 + (3 + closing) * inside.noted.length + closing)
      have hself : IncreasesWithin last (last + 3) [last + 3] := .singleton (by omega)
      simp only [number, ids_node, noted_node, Option.toList_some, List.map_cons, List.map_nil,
        List.length_append, List.length_cons, List.length_nil, Nat.mul_add, Nat.mul_one]
      exact (hself.append (hinside.append hrest (by omega)) (Nat.le_refl _)).mono (by omega)

end Walk

namespace FileContext

open Recorder

/-- The way through the file, with the components that are opened in a session. -/
def walk (c : FileContext) (s : Session) : Walk Opened :=
  let surveyed := ((c.survey c.file.walk).run ⟨s.symbols, {}, s.packages, s.journal⟩).1
  (surveyed.mapNotes c.kept?).number c.closing s.lastId

def outlineEntries (c : FileContext) (last : Nat) (trees : List Outline) : List Entry :=
  if c.options.emitOutline then
    (trees.zipIdx (last + 1)).map fun (tree, id) => ⟨id, .vertex, .outline tree⟩
  else []

/-- What a file that was indexed leaves behind. -/
structure Indexes (c : FileContext) (document : Nat) (s : Session) (summary : FileSummary)
    (s' : Session) : Prop where
  components : summary.components =
    ⟨document, (c.walk s).tokens⟩ :: (c.walk s).components
  outline : summary.outline = (c.walk s).forest.filter Outline.hasChildren
  definitions : s'.definitions =
    (c.walk s).noted.foldl (fun t d => t.insert d.note.id (c.location d))
      (s.definitions.insert document ⟨c.file.name, c.file.nodeRange c.file.root⟩)
  references : s'.references =
    (c.walk s).noted.foldl (fun t d => t.insert d.note.id (c.found d)) s.references
  entries : s'.journal.entries = s.journal.entries ++ (c.entries (c.walk s) ++
    (c.closingEntries (s.lastId + (3 + c.closing) * (c.walk s).noted.length + 1)
      ⟨document, (c.walk s).tokens⟩ ++
      c.outlineEntries (s.lastId + (3 + c.closing) * (c.walk s).noted.length + c.closing)
        summary.outline))
  questions : s'.journal.referenceQueries =
    s.journal.referenceQueries ++ (c.walk s).noted.map c.question

variable {c : FileContext} {document : Nat} {s : Session}

theorem recorded_walk (c : FileContext) (document : Nat) (s : Session) :
    Recorded c (c.start document s) (c.walk s)
      (c.after (c.start document s) c.file.walk.events) :=
  (after_walk c.file.walk (m := ⟨s.symbols, {}, s.packages, s.journal⟩)
    (r := c.start document s) ⟨s.journal, rfl, rfl⟩).1

/-- The recorder when the tour is over and the file itself is closed. -/
def closed (c : FileContext) (document : Nat) (s : Session) : Recorder :=
  (c.closeComponent.run (c.after (c.start document s) c.file.tour.events)).2

theorem recordAll_cut (hcut : c.file.tour.isCut = true) :
    (c.recordAll document).run { session := s } =
      (.error (.tooDeep c.file.name), c.after (c.start document s) c.file.tour.events) := by
  simp only [recordAll, hcut]
  rfl

theorem recordAll_run (hcut : c.file.tour.isCut = false) :
    (c.recordAll document).run { session := s } =
      let r := if c.options.emitOutline then
          ((((c.closed document s).outline.finish.forM fun tree => do
            let _ ← inSession (Session.vertex (.outline tree)) : StateM Recorder Unit)).run
            (c.closed document s)).2
        else c.closed document s
      (.ok ⟨document, sortBy (fun a b => a.id ≤ b.id) r.closed,
        (c.closed document s).outline.finish⟩, r) := by
  simp only [recordAll, hcut]
  cases c.options.emitOutline <;> rfl

theorem outlines_writes (trees : List Outline) (r : Recorder) :
    ∃ session, ((trees.forM fun tree => do
        let _ ← inSession (Session.vertex (.outline tree)) : StateM Recorder Unit).run r).2 =
        { r with session } ∧
      r.session.Writes ((trees.zipIdx (r.session.lastId + 1)).map fun (tree, id) =>
        ⟨id, .vertex, .outline tree⟩) session := by
  induction trees generalizing r with
  | nil => exact ⟨r.session, rfl, .refl _⟩
  | cons tree trees ih =>
    let r₁ := ((inSession (Session.vertex (.outline tree))).run r).2
    obtain ⟨session, hrun, hwrites⟩ := ih r₁
    exact ⟨session, hrun, (r.session.writes_emit .vertex (.outline tree)).trans hwrites⟩

/-- At the end of a file that was not cut off, the outline is written and nothing else is done. -/
theorem recordAll_outlines (document : Nat) (s : Session) (hcut : c.file.tour.isCut = false) :
    ∃ session, ((c.recordAll document).run { session := s }).2 =
        { c.closed document s with session } ∧
      (c.closed document s).session.Writes
        (c.outlineEntries (c.closed document s).session.lastId (c.closed document s).outline.finish)
        session := by
  rw [recordAll_run hcut, outlineEntries]
  cases c.options.emitOutline with
  | false => exact ⟨_, rfl, .refl _⟩
  | true => exact outlines_writes _ _

theorem ids_walk (c : FileContext) (s : Session) :
    (c.walk s).ids.Pairwise (· < ·) ∧ ∀ id ∈ (c.walk s).ids, s.lastId < id := by
  obtain ⟨-, hincreasing, hbounds⟩ := Walk.ids_number c.closing s.lastId
    ((((c.survey c.file.walk).run ⟨s.symbols, {}, s.packages, s.journal⟩).1).mapNotes c.kept?)
  exact ⟨hincreasing, fun id hid => (hbounds id hid).1⟩

theorem components_increasing (c : FileContext) (hdocument : document ≤ s.lastId) :
    (document :: (c.walk s).ids).Pairwise (· < ·) := by
  obtain ⟨hincreasing, hbounds⟩ := c.ids_walk s
  exact List.pairwise_cons.mpr
    ⟨fun id hid => Nat.lt_of_le_of_lt hdocument (hbounds id hid), hincreasing⟩

theorem closed_spec (document : Nat) (s : Session) (hcut : c.file.tour.isCut = false) :
    ∃ session, c.closed document s =
        { c.after (c.start document s) c.file.tour.events with
          session
          components := []
          closed := ⟨document, (c.walk s).tokens⟩ :: (c.walk s).closings.reverse } ∧
      (c.closed document s).outline.finish = (c.walk s).forest.filter Outline.hasChildren ∧
      session.lastId = s.lastId + (3 + c.closing) * (c.walk s).noted.length + c.closing ∧
      session.definitions =
        (c.walk s).noted.foldl (fun t d => t.insert d.note.id (c.location d))
          (s.definitions.insert document ⟨c.file.name, c.file.nodeRange c.file.root⟩) ∧
      session.references =
        (c.walk s).noted.foldl (fun t d => t.insert d.note.id (c.found d)) s.references ∧
      session.journal.entries = s.journal.entries ++ (c.entries (c.walk s) ++
        c.closingEntries (s.lastId + (3 + c.closing) * (c.walk s).noted.length + 1)
          ⟨document, (c.walk s).tokens⟩) ∧
      session.journal.referenceQueries =
        s.journal.referenceQueries ++ (c.walk s).noted.map c.question := by
  have hrec := c.recorded_walk document s
  rw [SourceFile.walk_events hcut] at hrec
  have hcomponents : (c.after (c.start document s) c.file.tour.events).components =
      [⟨document, (c.walk s).tokens⟩] := by
    rw [hrec.components]
    exact congrArg (· :: []) (Component.collect_entered document (c.walk s))
  obtain ⟨session, hclose, -, -, hlast, hdefs, hrefs, hentries, hqueries⟩ :=
    closeComponent_session (c := c) hcomponents
  have hclosed : c.closed document s =
      { c.after (c.start document s) c.file.tour.events with
        session
        components := []
        closed := ⟨document, (c.walk s).tokens⟩ :: (c.walk s).closings.reverse } := by
    rw [closed, hclose, hrec.closed]
    simp [start]
  refine ⟨session, hclosed, ?_, ?_, ?_, ?_, ?_, ?_⟩
  · simp only [hclosed, hrec.outline]
    simp [start, Outline.Builder.hang, Outline.Builder.finish]
  · rw [hlast, hrec.lastId]
    rfl
  · rw [hdefs, hrec.definitions]
    rfl
  · rw [hrefs, hrec.references]
    rfl
  · rw [hentries, hrec.entries, hrec.lastId, List.append_assoc]
    rfl
  · rw [Journal.referenceQueries, hqueries]
    exact hrec.questions

theorem index_rooted (hroot : c.file.arena.kind? c.file.root = some .sourceFile) :
    (c.index document).run s = (((c.recordAll document).run { session := s }).1,
      ((c.recordAll document).run { session := s }).2.session) := by
  rw [index, if_pos hroot]
  rfl

theorem index_unrooted (hroot : c.file.arena.kind? c.file.root ≠ some .sourceFile) :
    (c.index document).run s = (.error (.notASourceFile c.file.root c.file.name), s) := by
  rw [index, if_neg hroot]
  rfl

theorem index_run_of_ok {summary : FileSummary} {s' : Session}
    (h : (c.index document).run s = (.ok summary, s')) :
    c.file.tour.isCut = false ∧
      ∃ r, (c.recordAll document).run { session := s } = (.ok summary, r) ∧ r.session = s' := by
  by_cases hroot : c.file.arena.kind? c.file.root = some .sourceFile
  · rw [index_rooted hroot] at h
    obtain ⟨hresult, hsession⟩ := Prod.mk.inj h
    refine ⟨?_, _, Prod.ext hresult rfl, hsession⟩
    cases hcut : c.file.tour.isCut with
    | false => rfl
    | true => rw [recordAll_cut hcut] at hresult; cases hresult
  · rw [index_unrooted hroot] at h
    cases (Prod.mk.inj h).1

theorem index_indexes {summary : FileSummary} {s' : Session} (hdocument : document ≤ s.lastId)
    (h : (c.index document).run s = (.ok summary, s')) : Indexes c document s summary s' := by
  obtain ⟨hcut, r, hrun, hr⟩ := index_run_of_ok h
  obtain ⟨session, hclosed, hfinish, hlast, hdefs, hrefs, hentries, hquestions⟩ :=
    closed_spec document s hcut
  obtain ⟨session', houtlines, hwrites⟩ := recordAll_outlines document s hcut
  have hr' : r = { c.closed document s with session := session' } := by rw [← houtlines, hrun]
  have hsession : (c.closed document s).session = session := by rw [hclosed]
  rw [hfinish, hsession] at hwrites
  rw [recordAll_run hcut, hfinish] at hrun
  obtain ⟨hsummary, hafter⟩ := Prod.mk.inj hrun
  have hclosings : r.closed = ⟨document, (c.walk s).tokens⟩ :: (c.walk s).closings.reverse := by
    rw [hr', hclosed]
  have hs' : s' = session' := by rw [← hr, hr']
  have hsorted : sortBy (fun a b : Component => a.id ≤ b.id) r.closed =
      ⟨document, (c.walk s).tokens⟩ :: (c.walk s).components := by
    rw [hclosings]
    refine sortBy_of_perm (((List.reverse_perm _).trans (c.walk s).closings_perm).cons _) ?_
    rw [List.map_cons, Walk.components_ids]
    exact c.components_increasing hdocument
  obtain rfl : summary = ⟨document, ⟨document, (c.walk s).tokens⟩ :: (c.walk s).components,
      (c.walk s).forest.filter Outline.hasChildren⟩ := by
    rw [← hsorted, ← hafter]
    exact (Except.ok.inj hsummary).symm
  refine ⟨rfl, rfl, ?_, ?_, ?_, ?_⟩
  · rw [hs', hwrites.definitions, hdefs]
  · rw [hs', hwrites.references, hrefs]
  · rw [hs', hwrites.entries, hentries, hlast, List.append_assoc, List.append_assoc]
  · rw [hs', Journal.referenceQueries, hwrites.queries]
    exact hquestions

end FileContext

def Entry.measures? (e : Entry) : Option (Nat × Metrics) :=
  match e.type, e.element with
  | .vertex, .complexity component metrics => some (component, metrics)
  | _, _ => none

namespace FileContext

variable {c : FileContext}

def rangeEntry (c : FileContext) (d : Noted Opened) : Entry :=
  let range := c.file.nodeRange (some d.index)
  ⟨d.note.id, .vertex, .range range d.note.symbol.render (.ofKind d.node.kind) range⟩

theorem closingEntries_ranges (id : Nat) (d : Component) :
    (c.closingEntries id d).filter Entry.isRange = [] := by
  unfold closingEntries
  split <;> rfl

theorem closingEntries_measures (id : Nat) (d : Component) :
    (c.closingEntries id d).filterMap Entry.measures? =
      if c.options.emitComplexity then [(d.id, d.tokens.metrics)] else [] := by
  unfold closingEntries
  split <;> rfl

theorem outlineEntries_ranges (last : Nat) (trees : List Outline) :
    (c.outlineEntries last trees).filter Entry.isRange = [] := by
  unfold outlineEntries
  split
  · simp [List.filter_map, Function.comp_def, Entry.isRange]
  · rfl

theorem outlineEntries_measures (last : Nat) (trees : List Outline) :
    (c.outlineEntries last trees).filterMap Entry.measures? = [] := by
  unfold outlineEntries
  split
  · rw [List.filterMap_map]
    exact List.filterMap_eq_nil_iff.mpr fun _ _ => rfl
  · rfl

theorem entries_ranges (c : FileContext) (w : Walk Opened) :
    (c.entries w).filter Entry.isRange = w.noted.map c.rangeEntry := by
  induction w with
  | done => rfl
  | operator token rest ih => exact ih
  | operand token rest ih => exact ih
  | node index n note inside rest ih ih' =>
    cases note with
    | none => simp [entries, Walk.noted_node, ih, ih']
    | some o =>
      have hopening : ∀ d, (c.openingEntries d).filter Entry.isRange = [c.rangeEntry d] :=
        fun _ => rfl
      simp only [entries, List.filter_append, hopening, ih, closingEntries_ranges, ih',
        Walk.noted_node, List.map_append]
      rfl

theorem entries_measures (c : FileContext) (w : Walk Opened) :
    (c.entries w).filterMap Entry.measures? =
      if c.options.emitComplexity then w.closings.map fun d => (d.id, d.tokens.metrics)
      else [] := by
  induction w with
  | done => simp [entries, Walk.closings]
  | operator token rest ih => exact ih
  | operand token rest ih => exact ih
  | node index n note inside rest ih ih' =>
    cases note with
    | none =>
      rw [entries, List.filterMap_append, ih, ih', Walk.closings]
      cases c.options.emitComplexity <;> simp
    | some o =>
      have hopening : ∀ d, (c.openingEntries d).filterMap Entry.measures? = [] := fun _ => rfl
      simp only [entries, List.filterMap_append, hopening, ih, closingEntries_measures, ih',
        Walk.closings]
      cases c.options.emitComplexity <;> simp

end FileContext

end SourceIndex
