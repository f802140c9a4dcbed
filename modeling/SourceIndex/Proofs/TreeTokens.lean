import SourceIndex.Proofs.Declarations
import SourceIndex.Proofs.Enclosure

/-! Tokens and the tree. Which tokens are met inside a node is settled by the tour, and the tour
depends on the file alone. Options, collaborators and what was recorded before only decide at which
nodes a component is opened, and under which id. -/

namespace SourceIndex

namespace Tour

variable {visit visit' : NodeRef → Tour}

theorem isCut_append (t : Tour) (rest : Unit → Tour) :
    (t.append rest).isCut = false ↔ t.isCut = false ∧ (rest ()).isCut = false := by
  cases h : t.isCut <;> simp [append, h]

theorem events_append {t : Tour} (h : t.isCut = false) (rest : Unit → Tour) :
    (t.append rest).events = t.events ++ (rest ()).events := by
  simp [append, h]

/-- Steps that were not cut off are the same for all visits that agree where they are not. -/
theorem steps_congr (hvisit : ∀ r, (visit r).isCut = false → visit' r = visit r) {ss : List Step}
    (hcut : (steps visit ss).isCut = false) : steps visit' ss = steps visit ss := by
  induction ss with
  | nil => rfl
  | cons s ss ih =>
    obtain ⟨hfirst, hrest⟩ := (isCut_append _ _).mp hcut
    have hstep : step visit' s = step visit s := by
      cases s with
      | operator token => rfl
      | operand token => rfl
      | visit r => exact hvisit r hfirst
    rw [steps, steps, hstep, ih hrest]

end Tour

def Event.tokens (es : List Event) : Tokens :=
  ⟨(es.filterMap Event.operand?).toArray, (es.filterMap Event.operator?).toArray⟩

namespace Walk

variable {α β : Type}

theorem tokens_eq (w : Walk α) : w.tokens = Event.tokens w.events := by
  rw [tokens, Event.tokens, operators_eq, operands_eq]

/-- The nodes on the way, each before those inside it, with the tokens that are met inside. -/
def met : Walk α → List (Nat × Tokens)
  | done => []
  | operator _ rest => rest.met
  | operand _ rest => rest.met
  | node index _ _ inside rest => (index, inside.tokens) :: (inside.met ++ rest.met)

theorem met_append (w w' : Walk α) : (w.append w').met = w.met ++ w'.met := by
  induction w with
  | done => rfl
  | operator token rest ih => exact ih
  | operand token rest ih => exact ih
  | node index n note inside rest _ ih => simp [append, met, ih]

theorem met_mapNotes (f : α → Option β) (w : Walk α) : (w.mapNotes f).met = w.met := by
  induction w with
  | done => rfl
  | operator token rest ih => exact ih
  | operand token rest ih => exact ih
  | node index n note inside rest ih ih' =>
    have htokens : (inside.mapNotes f).tokens = inside.tokens := by
      rw [tokens_eq, tokens_eq, events_mapNotes]
    rw [mapNotes, met, met, htokens, ih, ih']

/-- The events tell what is met. -/
theorem met_eq_of_events {w : Walk α} {w' : Walk Empty} (h : w.events = w'.events) :
    w.met = w'.met := by
  have hbare : ofEvents w'.events = w.mapNotes fun _ => (none : Option Empty) := by
    refine ofEvents_eq (k := 0) ?_
    rw [events_mapNotes, h, List.replicate_zero, List.append_nil]
  have hself : ofEvents w'.events = w' := ofEvents_eq (k := 0) (by simp)
  rw [← hself, hbare, met_mapNotes]

/-- For each node that is met, the id of the component that is opened there. -/
def openings : Walk Opened → List (Option Nat)
  | done => []
  | operator _ rest => rest.openings
  | operand _ rest => rest.openings
  | node _ _ note inside rest => note.map (·.id) :: (inside.openings ++ rest.openings)

theorem length_openings (w : Walk Opened) : w.openings.length = w.met.length := by
  induction w with
  | done => rfl
  | operator token rest ih => exact ih
  | operand token rest ih => exact ih
  | node index n note inside rest ih ih' => simp [openings, met, ih, ih']

end Walk

/-- The components that are opened at some of the nodes that are met. -/
def openedAt (met : List (Nat × Tokens)) (ids : List (Option Nat)) : List (Nat × Component) :=
  (met.zip ids).filterMap fun (x, id?) => id?.map fun id => (x.1, ⟨id, x.2⟩)

theorem Walk.spans_eq_openedAt (w : Walk Opened) :
    w.spans.map (fun x => (x.1.index, Component.mk x.1.note.id x.2.tokens)) =
      openedAt w.met w.openings := by
  induction w with
  | done => rfl
  | operator token rest ih => exact ih
  | operand token rest ih => exact ih
  | node index n note inside rest ih ih' =>
    have hzip : (inside.met ++ rest.met).zip (inside.openings ++ rest.openings) =
        inside.met.zip inside.openings ++ rest.met.zip rest.openings :=
      List.zip_append inside.length_openings.symm
    simp only [spans, List.map_append, ih, ih', met, openings, openedAt, List.zip_cons_cons, hzip,
      List.filterMap_cons, List.filterMap_append]
    cases note <;> simp

namespace SourceFile

variable {f : SourceFile}

/-- The tour of what is below a node, the node itself left out. -/
def inside (f : SourceFile) (levels index : Nat) (n : Node) : Tour :=
  Tour.steps (f.visit levels) (n.steps (f.isInMapped index))

/-- Either there is nothing to visit, or the node is visited if there is a level left for it. -/
theorem visit_cases (f : SourceFile) (r : NodeRef) :
    (∀ levels, f.visit levels r = {}) ∨ ∃ index n, f.arena.get? (some index) = some n ∧
      f.visit 0 r = { isCut := true } ∧ ∀ levels, f.visit (levels + 1) r =
        ⟨.enter index n ::
            ((f.inside levels index n).append fun _ => { events := [.leave] }).events,
          ((f.inside levels index n).append fun _ => { events := [.leave] }).isCut⟩ := by
  cases r with
  | none => exact .inl fun levels => by cases levels <;> rfl
  | some index =>
    cases hn : f.arena.get? (some index) with
    | none => exact .inl fun levels => by cases levels <;> simp [visit, hn]
    | some n =>
      cases herror : n.hasParseError with
      | true => exact .inl fun levels => by cases levels <;> simp [visit, hn, herror]
      | false =>
        refine .inr ⟨index, n, hn, ?_, fun levels => ?_⟩
        · simp [visit, hn, herror]
        · simp [visit, inside, hn, herror]

/-- A tour that is not cut off is the same with more levels. -/
theorem visit_mono {levels levels' : Nat} (h : levels ≤ levels') {r : NodeRef}
    (hcut : (f.visit levels r).isCut = false) : f.visit levels' r = f.visit levels r := by
  induction levels generalizing levels' r with
  | zero =>
    rcases f.visit_cases r with hnothing | ⟨index, n, -, hzero, -⟩
    · rw [hnothing, hnothing]
    · simp [hzero] at hcut
  | succ levels ih =>
    obtain ⟨more, rfl⟩ : ∃ more, levels' = more + 1 := ⟨levels' - 1, by omega⟩
    rcases f.visit_cases r with hnothing | ⟨index, n, -, -, hsucc⟩
    · rw [hnothing, hnothing]
    · rw [hsucc] at hcut
      have hinside := ((Tour.isCut_append _ _).mp hcut).1
      have hsame : f.inside more index n = f.inside levels index n :=
        Tour.steps_congr (fun r hr => ih (by omega) hr) hinside
      rw [hsucc, hsucc, hsame]

theorem inside_eq {levels levels' index : Nat} {n : Node}
    (hcut : (f.inside levels index n).isCut = false)
    (hcut' : (f.inside levels' index n).isCut = false) :
    f.inside levels index n = f.inside levels' index n := by
  rcases Nat.le_total levels levels' with h | h
  · exact (Tour.steps_congr (fun r hr => visit_mono h hr) hcut).symm
  · exact Tour.steps_congr (fun r hr => visit_mono h hr) hcut'

/-- At a node with this number one meets these tokens, when the tour is not cut off there. -/
def Holds (f : SourceFile) (x : Nat × Tokens) : Prop :=
  ∃ levels n, f.arena.get? (some x.1) = some n ∧ (f.inside levels x.1 n).isCut = false ∧
    x.2 = Event.tokens (f.inside levels x.1 n).events

theorem Holds.unique {x y : Nat × Tokens} (hx : f.Holds x) (hy : f.Holds y) (h : x.1 = y.1) :
    x.2 = y.2 := by
  obtain ⟨levels, n, hn, hcut, htokens⟩ := hx
  obtain ⟨levels', n', hn', hcut', htokens'⟩ := hy
  obtain ⟨index, tokens⟩ := x
  obtain ⟨index', tokens'⟩ := y
  obtain rfl : index = index' := h
  obtain rfl : n = n' := Option.some.inj (hn.symm.trans hn')
  rw [htokens, htokens', inside_eq hcut hcut']

theorem steps_holds {visit : NodeRef → Tour} (hvisit : ∀ r, (visit r).isCut = false →
      ∃ w : Walk Empty, w.events = (visit r).events ∧ ∀ x ∈ w.met, f.Holds x) {ss : List Step}
    (hcut : (Tour.steps visit ss).isCut = false) :
    ∃ w : Walk Empty, w.events = (Tour.steps visit ss).events ∧ ∀ x ∈ w.met, f.Holds x := by
  induction ss with
  | nil => exact ⟨.done, rfl, by simp [Walk.met]⟩
  | cons s ss ih =>
    obtain ⟨hfirst, hrest⟩ := (Tour.isCut_append _ _).mp hcut
    have hstep : ∃ w : Walk Empty, w.events = (Tour.step visit s).events ∧
        ∀ x ∈ w.met, f.Holds x := by
      cases s with
      | operator token => exact ⟨.operator token .done, rfl, by simp [Walk.met]⟩
      | operand token => exact ⟨.operand token .done, rfl, by simp [Walk.met]⟩
      | visit r => exact hvisit r hfirst
    obtain ⟨w, hevents, hmet⟩ := hstep
    obtain ⟨w', hevents', hmet'⟩ := ih hrest
    refine ⟨w.append w', ?_, fun x hx => ?_⟩
    · rw [Walk.events_append, hevents, hevents', Tour.steps, Tour.events_append hfirst]
    · rw [Walk.met_append] at hx
      exact (List.mem_append.mp hx).elim (hmet x) (hmet' x)

theorem visit_holds (levels : Nat) (r : NodeRef) (hcut : (f.visit levels r).isCut = false) :
    ∃ w : Walk Empty, w.events = (f.visit levels r).events ∧ ∀ x ∈ w.met, f.Holds x := by
  induction levels generalizing r with
  | zero =>
    rcases f.visit_cases r with hnothing | ⟨index, n, -, hzero, -⟩
    · exact ⟨.done, by rw [hnothing]; rfl, by simp [Walk.met]⟩
    · simp [hzero] at hcut
  | succ levels ih =>
    rcases f.visit_cases r with hnothing | ⟨index, n, hn, -, hsucc⟩
    · exact ⟨.done, by rw [hnothing]; rfl, by simp [Walk.met]⟩
    · rw [hsucc] at hcut ⊢
      have hinside := ((Tour.isCut_append _ _).mp hcut).1
      obtain ⟨w, hevents, hmet⟩ := steps_holds ih hinside
      refine ⟨.node index n none w .done, ?_, fun x hx => ?_⟩
      · rw [Tour.events_append hinside, Walk.events, hevents]
        rfl
      · rcases List.mem_cons.mp hx with rfl | hx
        · exact ⟨levels, n, hn, hinside, by rw [w.tokens_eq, hevents]; rfl⟩
        · rw [Walk.met, List.append_nil] at hx
          exact hmet x hx

theorem walk_holds (hcut : f.tour.isCut = false) : ∀ x ∈ f.walk.met, f.Holds x := by
  obtain ⟨w, hevents, hmet⟩ := visit_holds maxVisitDepth f.root hcut
  have hsame : f.walk.met = w.met := by
    refine Walk.met_eq_of_events ?_
    rw [walk_events hcut, hevents, tour]
  rw [hsame]
  exact hmet

end SourceFile

namespace Recorder

def all (r : Recorder) : List Component := r.components ++ r.closed

end Recorder

namespace FileContext

open Recorder

variable {c c' : FileContext} {document document' : Nat} {s s' : Session}

/-- All components of a file, those included that are still open when its tour is cut off. -/
def counted (c : FileContext) (document : Nat) (s : Session) : List Component :=
  ((c.recordAll document).run { session := s }).2.all

theorem closeComponent_all (r : Recorder) : (c.closeComponent.run r).2.all.Perm r.all := by
  cases hcomponents : r.components with
  | nil => rw [closeComponent_nil hcomponents]
  | cons d ds =>
    obtain ⟨session, hclose, -⟩ := closeComponent_session (c := c) hcomponents
    rw [hclose, Recorder.all, Recorder.all, hcomponents]
    exact List.perm_middle

theorem record_leave_all (r : Recorder) : ((c.record .leave).run r).2.all.Perm r.all := by
  obtain ⟨session, resolver, components, outline, closed, opened⟩ := r
  match opened with
  | [] => exact .refl _
  | false :: rest => exact .refl _
  | true :: rest => exact closeComponent_all (c := c) _

theorem after_leave_all (r : Recorder) (k : Nat) :
    (c.after r (List.replicate k .leave)).all.Perm r.all := by
  induction k generalizing r with
  | zero => exact .refl _
  | succ k ih => exact (ih _).trans (record_leave_all r)

/-- Whether the tour is cut off or not, its components are those of the walk. -/
theorem counted_perm (c : FileContext) (document : Nat) (s : Session) :
    (c.counted document s).Perm (⟨document, (c.walk s).tokens⟩ :: (c.walk s).components) := by
  have hrecorded := c.recorded_walk document s
  have hwalk : (c.after (c.start document s) c.file.walk.events).all.Perm
      (⟨document, (c.walk s).tokens⟩ :: (c.walk s).components) := by
    rw [Recorder.all, hrecorded.components, hrecorded.closed]
    have hfile : (c.start document s).components.map (·.collect (c.walk s)) =
        [⟨document, (c.walk s).tokens⟩] :=
      congrArg (· :: []) (Component.collect_entered document (c.walk s))
    have hclosings := ((List.reverse_perm _).trans (c.walk s).closings_perm).cons
      ⟨document, (c.walk s).tokens⟩
    rw [hfile]
    simpa [start] using hclosings
  have htour : (c.counted document s).Perm
      (c.after (c.start document s) c.file.tour.events).all := by
    rw [counted]
    cases hcut : c.file.tour.isCut with
    | true =>
      rw [recordAll_cut hcut]
    | false =>
      have hclosed : (c.closed document s).all.Perm
          (c.after (c.start document s) c.file.tour.events).all := closeComponent_all _
      obtain ⟨session, hrun, -⟩ := recordAll_outlines document s hcut
      rw [hrun]
      exact hclosed
  obtain ⟨k, hevents, -⟩ := c.file.tour_follows
  have hleave := after_leave_all (c := c) (c.after (c.start document s) c.file.tour.events) k
  rw [← after_append, ← hevents] at hleave
  exact htour.trans (hleave.symm.trans hwalk)

theorem summary_perm {summary : FileSummary} (h : ((c.index document).run s).1 = .ok summary) :
    summary.components.Perm (c.counted document s) := by
  obtain ⟨hcut, r, hrun, -⟩ := index_run_of_ok (Prod.ext h rfl :
    (c.index document).run s = (.ok summary, ((c.index document).run s).2))
  obtain ⟨session, hclosed, -⟩ := closed_spec document s hcut
  have hcounted : c.counted document s = r.all := by rw [counted, hrun]
  have hcomponents : r.components = [] := by
    obtain ⟨session', houtlines, -⟩ := recordAll_outlines document s hcut
    have hr : r = { c.closed document s with session := session' } := by rw [← houtlines, hrun]
    rw [hr, hclosed]
  rw [recordAll_run hcut] at hrun
  obtain ⟨hsummary, hr⟩ := Prod.mk.inj hrun
  rw [hr] at hsummary
  rw [hcounted, Recorder.all, hcomponents, List.nil_append, ← Except.ok.inj hsummary]
  exact sortBy_perm _ _

/-- A component was counted for the file, and one for each node that has got an id. Ranges were
written under these ids. -/
structure Counts (c : FileContext) (document : Nat) (s : Session) (tokens : Tokens)
    (met : List (Nat × Tokens)) (ids : List (Option Nat)) : Prop where
  length : ids.length = met.length
  counted : (c.counted document s).Perm (⟨document, tokens⟩ :: (openedAt met ids).map (·.2))
  declared : (c.declarations s).map (fun d => (d.index, d.note.id)) =
    (openedAt met ids).map fun x => (x.1, x.2.id)
  ranges : ((c.index document).run s).2.journal.ranges =
    s.journal.ranges ++ (c.declarations s).map c.rangeEntry
  distinct : document ≤ s.lastId → ((c.counted document s).map (·.id)).Nodup

theorem counts_walk (document : Nat) (s : Session)
    (hroot : c.file.arena.kind? c.file.root = some .sourceFile) :
    Counts c document s c.file.walk.tokens c.file.walk.met (c.walk s).openings := by
  have hevents := c.walk_events s
  have hmet : (c.walk s).met = c.file.walk.met := Walk.met_eq_of_events hevents
  have htokens : (c.walk s).tokens = c.file.walk.tokens := by
    rw [Walk.tokens_eq, Walk.tokens_eq, hevents]
  have hopened := (c.walk s).spans_eq_openedAt
  rw [hmet] at hopened
  have hcounted := c.counted_perm document s
  refine ⟨?_, ?_, ?_, c.index_ranges document s, fun hdocument => ?_⟩
  · rw [Walk.length_openings, hmet]
  · rw [← hopened, List.map_map, ← htokens]
    exact hcounted
  · rw [declarations_rooted hroot, ← hopened, List.map_map, Walk.noted, List.map_map]
    rfl
  · have hincreasing := c.components_increasing hdocument
    have hids := (hcounted.map (·.id)).nodup_iff
    rw [hids, List.map_cons, Walk.components_ids]
    exact hincreasing.imp fun h => Nat.ne_of_lt h

theorem Counts.mem_of_declared {tokens : Tokens} {met : List (Nat × Tokens)}
    {ids : List (Option Nat)} (h : Counts c document s tokens met ids) {d : Noted Opened}
    (hd : d ∈ c.declarations s) :
    ∃ x ∈ met, x.1 = d.index ∧ ⟨d.note.id, x.2⟩ ∈ c.counted document s := by
  have hpair : (d.index, d.note.id) ∈ (openedAt met ids).map fun x => (x.1, x.2.id) := by
    rw [← h.declared]
    exact List.mem_map_of_mem hd
  obtain ⟨⟨index, component⟩, hmem, heq⟩ := List.mem_map.mp hpair
  obtain ⟨rfl, hid⟩ := Prod.mk.inj heq
  obtain ⟨⟨x, id?⟩, hzip, hx⟩ := List.mem_filterMap.mp hmem
  obtain ⟨id, -, hcomponent⟩ := Option.map_eq_some_iff.mp hx
  obtain ⟨hindex, rfl⟩ := Prod.mk.inj hcomponent
  refine ⟨x, (List.of_mem_zip hzip).1, hindex, ?_⟩
  rw [← hid]
  exact h.counted.mem_iff.mpr (List.mem_cons_of_mem _ (List.mem_map_of_mem hmem))

/-- Two runs over one file, whatever their options, collaborators, programs and sessions: both
fail in the same way or none does; the file has the same tokens in both; and both meet the same
nodes with the same tokens, so a node for which both open a component has the same tokens there. -/
theorem tokens_by_tree (hfile : c'.file = c.file) (document document' : Nat) (s s' : Session) :
    (∀ e, ((c.index document).run s).1 = .error e ↔ ((c'.index document').run s').1 = .error e) ∧
    (c.file.arena.kind? c.file.root = some .sourceFile →
      ∃ tokens met ids ids', Counts c document s tokens met ids ∧
        Counts c' document' s' tokens met ids') ∧
    ∀ summary summary', ((c.index document).run s).1 = .ok summary →
      ((c'.index document').run s').1 = .ok summary' →
      summary.components.Perm (c.counted document s) ∧
      summary'.components.Perm (c'.counted document' s') ∧
      (∃ tokens, ⟨document, tokens⟩ ∈ summary.components ∧
        ⟨document', tokens⟩ ∈ summary'.components) ∧
      ∀ d ∈ c.declarations s, ∀ d' ∈ c'.declarations s', d.index = d'.index →
        ∃ tokens, ⟨d.note.id, tokens⟩ ∈ summary.components ∧
          ⟨d'.note.id, tokens⟩ ∈ summary'.components := by
  have hcounts : c.file.arena.kind? c.file.root = some .sourceFile →
      Counts c document s c.file.walk.tokens c.file.walk.met (c.walk s).openings ∧
        Counts c' document' s' c.file.walk.tokens c.file.walk.met (c'.walk s').openings := by
    intro hroot
    have hroot' : c'.file.arena.kind? c'.file.root = some .sourceFile := by rw [hfile, hroot]
    have hcounts' := counts_walk document' s' hroot'
    rw [hfile] at hcounts'
    exact ⟨counts_walk document s hroot, hcounts'⟩
  refine ⟨fun e => ?_, fun hroot => ?_, fun summary summary' h h' => ?_⟩
  · rw [index_error_iff, index_error_iff, hfile]
  · obtain ⟨hfirst, hsecond⟩ := hcounts hroot
    exact ⟨_, _, _, _, hfirst, hsecond⟩
  · have hperm := summary_perm h
    have hperm' := summary_perm h'
    have hroot : c.file.arena.kind? c.file.root = some .sourceFile := by
      by_contra hroot
      rw [index_unrooted hroot] at h
      cases h
    have hrun : (c.index document).run s = (.ok summary, ((c.index document).run s).2) :=
      Prod.ext h rfl
    have hcut := (index_run_of_ok hrun).1
    obtain ⟨hfirst, hsecond⟩ := hcounts hroot
    refine ⟨hperm, hperm', ⟨c.file.walk.tokens, ?_, ?_⟩, fun d hd d' hd' hindex => ?_⟩
    · exact hperm.mem_iff.mpr (hfirst.counted.mem_iff.mpr List.mem_cons_self)
    · exact hperm'.mem_iff.mpr (hsecond.counted.mem_iff.mpr List.mem_cons_self)
    · obtain ⟨x, hx, hxd, hmem⟩ := hfirst.mem_of_declared hd
      obtain ⟨y, hy, hyd, hmem'⟩ := hsecond.mem_of_declared hd'
      have hsame : x.2 = y.2 := by
        refine SourceFile.Holds.unique (f := c.file) ?_ ?_ ?_
        · exact SourceFile.walk_holds hcut x hx
        · exact SourceFile.walk_holds hcut y hy
        · rw [hxd, hyd, hindex]
      rw [← hsame] at hmem'
      exact ⟨x.2, hperm.mem_iff.mpr hmem, hperm'.mem_iff.mpr hmem'⟩

/-- The same file in a program of two, with nothing written but what has to be. -/
def nestedAndLoneSparse : FileContext where
  world := ⟨⟨#[nestedAndLone.file, nestedAndLone.file]⟩, .none⟩
  options := { emitComplexity := false, emitOutline := false }
  fileId := 1
  file := nestedAndLone.file

/-- The method has the ids 7 and 14. -/
theorem nestedAndLone_tokens_by_tree :
    ∃ summary summary', ((nestedAndLone.index 1).run { lastId := 1 }).1 = .ok summary ∧
      ((nestedAndLoneSparse.index 6).run { lastId := 8 }).1 = .ok summary' ∧
      ∃ tokens, ⟨7, tokens⟩ ∈ summary.components ∧ ⟨14, tokens⟩ ∈ summary'.components := by
  have hfile : FileContext.file nestedAndLoneSparse = FileContext.file nestedAndLone := rfl
  have hruns := tokens_by_tree hfile 1 6 { lastId := 1 } { lastId := 8 }
  have hok : ((nestedAndLone.index 1).run { lastId := 1 }).1.toOption.isSome = true := by
    decide +kernel
  have hmethod : (1, 7) ∈ (nestedAndLone.declarations { lastId := 1 }).map
      fun d => (d.index, d.note.id) := by
    decide +kernel
  have hmethod' : (1, 14) ∈ (nestedAndLoneSparse.declarations { lastId := 8 }).map
      fun d => (d.index, d.note.id) := by
    decide +kernel
  obtain ⟨d, hd, hpair⟩ := List.mem_map.mp hmethod
  obtain ⟨d', hd', hpair'⟩ := List.mem_map.mp hmethod'
  obtain ⟨hindex, hid⟩ := Prod.mk.inj hpair
  obtain ⟨hindex', hid'⟩ := Prod.mk.inj hpair'
  cases hrun : ((nestedAndLone.index 1).run { lastId := 1 }).1 with
  | error e => simp [hrun, Except.toOption] at hok
  | ok summary =>
    cases hrun' : ((nestedAndLoneSparse.index 6).run { lastId := 8 }).1 with
    | error e =>
      have herror := (hruns.1 e).mpr hrun'
      simp [hrun] at herror
    | ok summary' =>
      obtain ⟨-, -, -, htokens⟩ := hruns.2.2 summary summary' hrun hrun'
      obtain ⟨tokens, hmem, hmem'⟩ := htokens d hd d' hd' (hindex.trans hindex'.symm)
      rw [hid] at hmem
      rw [hid'] at hmem'
      exact ⟨summary, summary', rfl, rfl, tokens, hmem, hmem'⟩

end FileContext

end SourceIndex
