import SourceIndex.Proofs.FileRecords

/-! The declarations of a file are those for which a range is written. They are read off the walk
through the file, whether its tour comes to its end or is cut off: after the last node was entered,
no range is written any more and nothing is asked. -/

namespace SourceIndex

namespace Journal

def ranges (j : Journal) : List Entry := j.entries.filter Entry.isRange

/-- No range is written and nothing is asked from one journal to the other. -/
structure Quiet (j j' : Journal) : Prop where
  ranges : j'.ranges = j.ranges
  queries : j'.queries = j.queries

variable {j j' j'' : Journal}

theorem Quiet.refl (j : Journal) : j.Quiet j := ⟨rfl, rfl⟩

theorem Quiet.trans (h : j.Quiet j') (h' : j'.Quiet j'') : j.Quiet j'' :=
  ⟨h'.ranges.trans h.ranges, h'.queries.trans h.queries⟩

theorem Quiet.write (j : Journal) {e : Entry} (he : e.isRange = false) :
    j.Quiet (j.push (.write e)) := by
  refine ⟨?_, queries_push_write j e⟩
  rw [Journal.ranges, entries_push, List.filter_append]
  simp [Effect.entry?, he, Journal.ranges]

end Journal

def SourceFile.fault? (f : SourceFile) : Option IndexError :=
  if f.arena.kind? f.root = some .sourceFile then
    if f.tour.isCut then some (.tooDeep f.name) else none
  else some (.notASourceFile f.root f.name)

namespace FileContext

open Recorder

variable {c : FileContext}

theorem closeComponent_quiet (r : Recorder) :
    r.session.journal.Quiet (c.closeComponent.run r).2.session.journal := by
  cases hcomponents : r.components with
  | nil =>
    rw [closeComponent_nil hcomponents]
    exact .refl _
  | cons d ds =>
    rw [closeComponent_cons hcomponents]
    cases c.options.emitComplexity with
    | false => exact .refl _
    | true => exact .write _ rfl

theorem record_leave_quiet (r : Recorder) :
    r.session.journal.Quiet ((c.record .leave).run r).2.session.journal := by
  obtain ⟨session, resolver, components, outline, closed, opened⟩ := r
  match opened with
  | [] => exact .refl _
  | false :: rest => exact .refl _
  | true :: rest => exact closeComponent_quiet (c := c) _

theorem after_leave_quiet (r : Recorder) (k : Nat) :
    r.session.journal.Quiet (c.after r (List.replicate k .leave)).session.journal := by
  induction k generalizing r with
  | zero => exact .refl _
  | succ k ih => exact (record_leave_quiet r).trans (ih _)

theorem outlines_quiet (trees : List Outline) (r : Recorder) :
    r.session.journal.Quiet ((trees.forM fun tree => do
      let _ ← inSession (Session.vertex (.outline tree)) : StateM Recorder Unit).run
        r).2.session.journal := by
  induction trees generalizing r with
  | nil => exact .refl _
  | cons tree trees ih =>
    have hwrite : r.session.journal.Quiet
        ((inSession (Session.vertex (.outline tree))).run r).2.session.journal := .write _ rfl
    exact hwrite.trans (ih _)

/-- After the tour, nothing more is asked and no more ranges are written. -/
theorem index_quiet (document : Nat) (s : Session)
    (hroot : c.file.arena.kind? c.file.root = some .sourceFile) :
    (c.after (c.start document s) c.file.tour.events).session.journal.Quiet
      ((c.index document).run s).2.journal := by
  rw [index_rooted hroot]
  cases hcut : c.file.tour.isCut with
  | true =>
    rw [recordAll_cut hcut]
    exact .refl _
  | false =>
    rw [recordAll_run hcut]
    have hclose : (c.after (c.start document s) c.file.tour.events).session.journal.Quiet
        (c.closed document s).session.journal := closeComponent_quiet _
    refine hclose.trans ?_
    cases c.options.emitOutline with
    | false => exact .refl _
    | true => exact outlines_quiet _ _

theorem index_walk (document : Nat) (s : Session)
    (hroot : c.file.arena.kind? c.file.root = some .sourceFile) :
    ((c.index document).run s).2.journal.Quiet
      (c.after (c.start document s) c.file.walk.events).session.journal := by
  have hquiet := c.index_quiet document s hroot
  obtain ⟨k, hevents, -⟩ := c.file.tour_follows
  have hleave := after_leave_quiet (c := c) (c.after (c.start document s) c.file.tour.events) k
  rw [← after_append, ← hevents] at hleave
  exact ⟨hleave.ranges.trans hquiet.ranges.symm, hleave.queries.trans hquiet.queries.symm⟩

/-- Whether a file can be indexed depends on nothing but the file. -/
theorem index_error_iff (document : Nat) (s : Session) (e : IndexError) :
    ((c.index document).run s).1 = .error e ↔ c.file.fault? = some e := by
  by_cases hroot : c.file.arena.kind? c.file.root = some .sourceFile
  · rw [index_rooted hroot, SourceFile.fault?, if_pos hroot]
    cases hcut : c.file.tour.isCut with
    | true =>
      rw [recordAll_cut hcut]
      exact ⟨fun h => congrArg some (Except.error.inj h),
        fun h => congrArg Except.error (Option.some.inj h)⟩
    | false =>
      rw [recordAll_run hcut]
      simp
  · rw [index_unrooted hroot, SourceFile.fault?, if_neg hroot]
    exact ⟨fun h => congrArg some (Except.error.inj h),
      fun h => congrArg Except.error (Option.some.inj h)⟩

/-- The symbols of the file, and what is remembered when all are looked up. -/
def surveyed (c : FileContext) (s : Session) : Walk Symbol × Memory :=
  (c.survey c.file.walk).run ⟨s.symbols, {}, s.packages, s.journal⟩

/-- The declarations for which a component is opened; without a proper root there are none. -/
def declarations (c : FileContext) (s : Session) : List (Noted Opened) :=
  if c.file.arena.kind? c.file.root = some .sourceFile then (c.walk s).noted else []

theorem declarations_rooted {s : Session}
    (hroot : c.file.arena.kind? c.file.root = some .sourceFile) :
    c.declarations s = (c.walk s).noted := if_pos hroot

theorem declarations_unrooted {s : Session}
    (hroot : c.file.arena.kind? c.file.root ≠ some .sourceFile) : c.declarations s = [] :=
  if_neg hroot

theorem index_ranges (c : FileContext) (document : Nat) (s : Session) :
    ((c.index document).run s).2.journal.ranges =
      s.journal.ranges ++ (c.declarations s).map c.rangeEntry := by
  by_cases hroot : c.file.arena.kind? c.file.root = some .sourceFile
  · rw [declarations_rooted hroot, ← (index_walk document s hroot).ranges, Journal.ranges,
      (c.recorded_walk document s).entries, List.filter_append, entries_ranges]
    rfl
  · rw [declarations_unrooted hroot, index_unrooted hroot]
    exact (List.append_nil _).symm

theorem index_questions (c : FileContext) (document : Nat) (s : Session) :
    ((c.index document).run s).2.journal.referenceQueries =
      s.journal.referenceQueries ++ (c.declarations s).map c.question := by
  by_cases hroot : c.file.arena.kind? c.file.root = some .sourceFile
  · rw [declarations_rooted hroot, Journal.referenceQueries,
      ← (index_walk document s hroot).queries]
    exact (c.recorded_walk document s).questions
  · rw [declarations_unrooted hroot, index_unrooted hroot]
    exact (List.append_nil _).symm

theorem index_typeQueries (document : Nat) (s : Session)
    (hroot : c.file.arena.kind? c.file.root = some .sourceFile) :
    ((c.index document).run s).2.journal.typeQueries = (c.surveyed s).2.journal.typeQueries := by
  obtain ⟨j, hmemory, hj⟩ := (after_walk (c := c) c.file.walk
    (m := ⟨s.symbols, {}, s.packages, s.journal⟩) (r := c.start document s)
    ⟨s.journal, rfl, rfl⟩).2
  have hjournal := congrArg Memory.journal hmemory
  rw [Journal.typeQueries, ← (index_walk document s hroot).queries]
  exact (congrArg Journal.typeQueries hjournal).trans hj

end FileContext

end SourceIndex
