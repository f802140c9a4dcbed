import SourceIndex.Proofs.Independence
import SourceIndex.Proofs.Deliveries
import SourceIndex.Proofs.Thinning

/-! Kinds of records that are switched off. A run without measures or outlines writes what the
complete run writes, less these records. The two runs go on in step, file by file and event by
event: they find the same symbols and put the same questions, and nothing but the ids differs. The
new ids are in the order of the old ones, so references are attributed alike. -/

namespace SourceIndex

namespace FileContext

open Recorder

variable {c : FileContext} {r : Recorder}

theorem closeComponent_writes {d : Component} {ds : ComponentStack}
    (h : r.components = d :: ds) :
    ∃ session, (c.closeComponent.run r).2 =
        { r with session, components := ds, closed := d :: r.closed } ∧
      r.session.Writes (c.closingEntries (r.session.lastId + 1) d) session := by
  obtain ⟨session, hclose, hsymbols, hpackages, hlast, hdefs, hrefs, hentries, hqueries⟩ :=
    closeComponent_session (c := c) h
  have hlength : (c.closingEntries (r.session.lastId + 1) d).length = c.closing := by
    unfold closingEntries closing
    split <;> rfl
  exact ⟨session, hclose, hsymbols, hpackages, hdefs, hrefs, hqueries, hentries,
    by rw [hlast, hlength]⟩

theorem closeComponent_grows (r : Recorder) :
    r.session.journal.entries <+: (c.closeComponent.run r).2.session.journal.entries := by
  cases hc : r.components with
  | nil => simp only [closeComponent_nil hc, List.prefix_refl]
  | cons d ds =>
    obtain ⟨session, hrun, hwrites⟩ := closeComponent_writes (c := c) hc
    rw [hrun, hwrites.entries]
    exact List.prefix_append _ _

/-- Recording only adds to what is written. -/
theorem record_grows (e : Event) (r : Recorder) :
    r.session.journal.entries <+: ((c.record e).run r).2.session.journal.entries := by
  cases e with
  | operator token => exact List.prefix_refl _
  | operand token => exact List.prefix_refl _
  | enter index n =>
    have hlooked : r.session.journal.LookedUp _ := look_lookedUp (c := c) index n r.memory
    rw [record_enter, ← hlooked.entries]
    cases ((c.look index n).run r.memory).1.bind c.kept? with
    | none => exact List.prefix_refl _
    | some s =>
      obtain ⟨session, hopen, -, -, -, -, -, hentries, -⟩ :=
        openComponent_session (c := c) index n s
          (r.withMemory ((c.look index n).run r.memory).2)
      simp only [hopen, hentries]
      exact List.prefix_append _ _
  | leave =>
    have hclose := closeComponent_grows (c := c) r
    obtain ⟨session, resolver, components, outline, closed, opened⟩ := r
    match opened with
    | [] => exact List.prefix_refl _
    | false :: rest => exact List.prefix_refl _
    | true :: rest => exact hclose

theorem after_grows (es : List Event) (r : Recorder) :
    r.session.journal.entries <+: (c.after r es).session.journal.entries := by
  induction es generalizing r with
  | nil => exact List.prefix_refl _
  | cons e es ih => exact (record_grows e r).trans (ih ((c.record e).run r).2)

end FileContext

/-- The recorders of the two runs, in the same file. -/
structure Recorder.Thinned (T : Thinning) (past past' : List Entry) (r r' : Recorder) : Prop where
  session : r.session.Thinned T past past' r'.session
  resolver : r'.resolver = r.resolver
  components : r'.components = r.components.map (·.rename T.number)
  outline : r'.outline = r.outline.rename T.number
  opened : r'.opened = r.opened

def Journal.SameQueries (j j' : Journal) : Prop := j'.queries = j.queries

theorem Collaborators.corresponds_sameQueries (c : Collaborators) :
    c.Corresponds c Journal.SameQueries where
  package := rfl
  write := by
    intro j j' hj e
    rw [Journal.SameQueries, Journal.queries_push_write, Journal.queries_push_write, hj]
  consult := by
    intro j j' hj q
    rw [Journal.consult_fst, Journal.consult_fst]
    refine ⟨rfl, ?_⟩
    rw [Journal.SameQueries, Journal.consult_queries, Journal.consult_queries, hj]

namespace FileContext

open Recorder

variable {c : FileContext} {T : Thinning} {past past' : List Entry} {r r' : Recorder}
  {s s' : Session}

theorem keeps_openingEntries (d : Noted Opened) :
    ∀ e ∈ c.complete.openingEntries d, T.options.keeps e = true := by
  intro e he
  simp only [openingEntries, List.mem_cons, List.not_mem_nil, or_false] at he
  rcases he with rfl | rfl | rfl <;> rfl

theorem openingEntries_thin {index last last' : Nat} {n : Node} {symbol : Symbol}
    (hnext : ∀ i ≤ 3, T.number (last + i) = last' + i) :
    c.openingEntries ⟨index, n, ⟨last' + 3, symbol⟩⟩ =
      T.thin (c.complete.openingEntries ⟨index, n, ⟨last + 3, symbol⟩⟩) := by
  have h₁ : T.number (last + 3 - 2) = last' + 3 - 2 := hnext 1 (by omega)
  have h₂ : T.number (last + 3 - 1) = last' + 3 - 1 := hnext 2 (by omega)
  have h₃ := hnext 3 (by omega)
  rw [Thinning.thin_of_kept (keeps_openingEntries _)]
  simp only [openingEntries, List.map_cons, List.map_nil, Entry.rename, h₁, h₂, h₃]
  rfl

theorem openComponent_thinned (hr : r.Thinned T past past' r') (index : Nat) (n : Node)
    (symbol : Symbol)
    (hfull : ((c.complete.openComponent index n symbol).run r).2.session.stream past <+: T.full) :
    ((c.complete.openComponent index n symbol).run r).2.Thinned T past past'
      ((c.openComponent index n symbol).run r').2 := by
  obtain ⟨session, hopen, hsymbols, hpackages, hlast, hdefs, hrefs, hentries, hqueries⟩ :=
    openComponent_session (c := c.complete) index n symbol r
  obtain ⟨session', hopen', hsymbols', hpackages', hlast', hdefs', hrefs', hentries', hqueries'⟩ :=
    openComponent_session (c := c) index n symbol r'
  let opening := c.complete.openingEntries ⟨index, n, ⟨r.session.lastId + 3, symbol⟩⟩
  have hstream : session.stream past = r.session.stream past ++ opening := by
    rw [Session.stream, hentries, ← List.append_assoc]
    rfl
  rw [hopen] at hfull ⊢
  rw [hopen']
  change session.stream past <+: T.full at hfull
  rw [hstream] at hfull
  have hkept : ∀ e ∈ opening, T.options.keeps e = true := keeps_openingEntries _
  have hnext : ∀ i ≤ 3, T.number (r.session.lastId + i) = r'.session.lastId + i :=
    fun i hi => hr.session.number_next hfull hkept hi
  have hopening : c.openingEntries ⟨index, n, ⟨r'.session.lastId + 3, symbol⟩⟩ =
      T.thin opening := openingEntries_thin hnext
  have hthird := hnext 3 (by omega)
  have hlow : r.session.lastId < r.session.lastId + 3 := by omega
  have hlow' : r'.session.lastId < T.number (r.session.lastId + 3) := by omega
  refine ⟨⟨?_, ?_, ?_, ?_, ?_, ?_, ?_, ?_⟩, hr.resolver, ?_, ?_, hr.opened⟩
  · rw [hsymbols, hsymbols', hr.session.symbols]
  · rw [hpackages, hpackages', hr.session.packages]
  · rw [hqueries, hqueries', hr.session.queries]
    rfl
  · rw [hstream, Thinning.thin_append, ← hr.session.stream, ← hopening, Session.stream, hentries',
      ← List.append_assoc]
    rfl
  · rw [hlast, hstream, List.length_append, ← hr.session.lastId]
    rfl
  · rw [hlast', Session.stream, hentries', ← List.append_assoc, List.length_append]
    exact congrArg (· + 3) hr.session.lastId'
  · rw [hdefs, hdefs', hlast, hlast', ← hthird]
    exact hr.session.definitions.insert hlow hlow' _
  · rw [hrefs, hrefs', hlast, hlast', ← hthird]
    exact hr.session.references.insert hlow hlow' _
  · simp only [hr.components, ← hthird]
    rfl
  · simp only [hr.outline, ← hthird]
    rfl

/-- A component is closed in both runs, and measured where measures are switched on. -/
theorem closingEntries_thin (hT : T.options = c.options) (last last' : Nat) (d : Component)
    (hnext : c.options.emitComplexity = true → T.number (last + 1) = last' + 1) :
    c.closingEntries (last' + 1) (d.rename T.number) =
      T.thin (c.complete.closingEntries (last + 1) d) := by
  have hfull : c.complete.closingEntries (last + 1) d =
      [⟨last + 1, .vertex, .complexity d.id d.tokens.metrics⟩] := rfl
  rw [hfull, Thinning.thin, hT, closingEntries]
  cases hemit : c.options.emitComplexity with
  | false => simp [Options.keeps, hemit]
  | true => simp [Options.keeps, hemit, Entry.rename, Element.rename, hnext hemit, Component.rename]

theorem closeComponent_thinned (hT : T.options = c.options) (hr : r.Thinned T past past' r')
    (hfull : (c.complete.closeComponent.run r).2.session.stream past <+: T.full) :
    (c.complete.closeComponent.run r).2.Thinned T past past' (c.closeComponent.run r').2 := by
  have hcomponents := hr.components
  cases hc : r.components with
  | nil =>
    rw [hc] at hcomponents
    rw [closeComponent_nil hc, closeComponent_nil hcomponents]
    exact hr
  | cons d ds =>
    rw [hc] at hcomponents
    obtain ⟨session, hclose, hwrites⟩ := closeComponent_writes (c := c.complete) hc
    obtain ⟨session', hclose', hwrites'⟩ := closeComponent_writes (c := c) hcomponents
    rw [hclose] at hfull ⊢
    rw [hclose']
    change session.stream past <+: T.full at hfull
    rw [hwrites.stream] at hfull
    rw [closingEntries_thin hT r.session.lastId r'.session.lastId d] at hwrites'
    · exact ⟨hr.session.writes hwrites hwrites', hr.resolver, rfl, hr.outline, hr.opened⟩
    · intro hemit
      refine hr.session.number_next hfull (fun e he => ?_) le_rfl
      rw [List.mem_singleton.mp he, hT]
      exact hemit

/-- The same symbol is found in both runs, and nothing is written to find it. -/
theorem look_thinned (hr : r.Thinned T past past' r') (index : Nat) (n : Node) :
    ((c.look index n).run r.memory).1 = ((c.look index n).run r'.memory).1 ∧
      (r.withMemory ((c.look index n).run r.memory).2).Thinned T past past'
        (r'.withMemory ((c.look index n).run r'.memory).2) := by
  have halike : Memory.Alike Journal.SameQueries r.memory r'.memory := by
    refine ⟨r'.session.journal, ?_, hr.session.queries⟩
    simp only [Recorder.memory, hr.session.symbols, hr.session.packages, hr.resolver]
  obtain ⟨hsymbol, j, hm, hj⟩ := look_inStep (c := c)
    c.world.collaborators.corresponds_sameQueries index n _ _ halike
  have hlooked : r.session.journal.LookedUp _ := look_lookedUp (c := c) index n r.memory
  have hlooked' : r'.session.journal.LookedUp _ := look_lookedUp (c := c) index n r'.memory
  have hstream : (r.withMemory ((c.look index n).run r.memory).2).session.stream past =
      r.session.stream past := congrArg (past ++ ·) hlooked.entries
  have hstream' : (r'.withMemory ((c.look index n).run r'.memory).2).session.stream past' =
      r'.session.stream past' := congrArg (past' ++ ·) hlooked'.entries
  refine ⟨hsymbol, ⟨?_, ?_, ?_, ?_, ?_, ?_, hr.session.definitions, hr.session.references⟩, ?_,
    hr.components, hr.outline, hr.opened⟩
  · rw [hm]
    rfl
  · rw [hm]
    rfl
  · rw [hm]
    exact hj
  · rw [hstream, hstream', hr.session.stream]
  · rw [hstream]
    exact hr.session.lastId
  · rw [hstream']
    exact hr.session.lastId'
  · rw [hm]
    rfl

theorem record_thinned (hT : T.options = c.options) (hr : r.Thinned T past past' r') (e : Event)
    (hfull : ((c.complete.record e).run r).2.session.stream past <+: T.full) :
    ((c.complete.record e).run r).2.Thinned T past past' ((c.record e).run r').2 := by
  cases e with
  | operator token =>
    refine ⟨hr.session, hr.resolver, ?_, hr.outline, hr.opened⟩
    change ComponentStack.operator r'.components token =
      (ComponentStack.operator r.components token).map (·.rename T.number)
    rw [hr.components]
    simp [ComponentStack.operator, Component.rename]
  | operand token =>
    refine ⟨hr.session, hr.resolver, ?_, hr.outline, hr.opened⟩
    change ComponentStack.operand r'.components token =
      (ComponentStack.operand r.components token).map (·.rename T.number)
    rw [hr.components]
    simp [ComponentStack.operand, Component.rename]
  | enter index n =>
    obtain ⟨hsymbol, hpassed⟩ := look_thinned (c := c) hr index n
    -- a component is opened in both runs or in none
    have hkept : c.complete.kept? = c.kept? := rfl
    have hlook : c.complete.look index n = c.look index n := rfl
    rw [record_enter, hkept, hlook] at hfull
    rw [record_enter, record_enter, hkept, hlook, ← hsymbol]
    cases hfound : ((c.look index n).run r.memory).1.bind c.kept? with
    | none =>
      exact ⟨hpassed.session, hpassed.resolver, hpassed.components, hpassed.outline,
        congrArg (false :: ·) hr.opened⟩
    | some symbol =>
      rw [hfound] at hfull
      have hopen := openComponent_thinned hpassed index n symbol hfull
      exact ⟨hopen.session, hopen.resolver, hopen.components, hopen.outline,
        congrArg (true :: ·) hr.opened⟩
  | leave =>
    have hclose := fun hfull => closeComponent_thinned hT hr hfull
    obtain ⟨session, resolver, components, outline, closed, opened⟩ := r
    obtain ⟨session', resolver', components', outline', closed', opened'⟩ := r'
    obtain rfl : opened' = opened := hr.opened
    cases opened' with
    | nil => exact hr
    | cons kept rest =>
      cases kept with
      | false => exact ⟨hr.session, hr.resolver, hr.components, hr.outline, rfl⟩
      | true =>
        have hclosed := hclose hfull
        refine ⟨hclosed.session, hclosed.resolver, hclosed.components, ?_, rfl⟩
        have hexit := congrArg Outline.Builder.exit hclosed.outline
        rw [Outline.Builder.exit_rename] at hexit
        exact hexit

theorem after_thinned (hT : T.options = c.options) (hr : r.Thinned T past past' r')
    (es : List Event) (hfull : (c.complete.after r es).session.stream past <+: T.full) :
    (c.complete.after r es).Thinned T past past' (c.after r' es) := by
  induction es generalizing r r' with
  | nil => exact hr
  | cons e es ih =>
    have hgrows := after_grows (c := c.complete) es ((c.complete.record e).run r).2
    have hfirst := ((List.prefix_append_right_inj past).mpr hgrows).trans hfull
    exact ih (record_thinned hT hr e hfirst) hfull

theorem index_grows (document : Nat) (s : Session) :
    s.journal.entries <+: ((c.index document).run s).2.journal.entries := by
  by_cases hroot : c.file.arena.kind? c.file.root = some .sourceFile
  · have htour := after_grows (c := c) c.file.tour.events (c.start document s)
    rw [index_rooted hroot]
    cases hcut : c.file.tour.isCut with
    | true =>
      rw [recordAll_cut hcut]
      exact htour
    | false =>
      obtain ⟨session, hrun, hwrites⟩ := recordAll_outlines document s hcut
      rw [hrun, hwrites.entries]
      exact (htour.trans (closeComponent_grows _)).trans (List.prefix_append _ _)
  · simp only [index_unrooted hroot, List.prefix_refl]

theorem keeps_outlineEntries (hT : T.options = c.options) {last : Nat} {trees : List Outline} :
    ∀ e ∈ c.complete.outlineEntries last trees, T.options.keeps e = c.options.emitOutline := by
  intro e he
  obtain ⟨x, -, rfl⟩ := List.mem_map.mp he
  rw [hT]
  rfl

theorem outlineEntries_thin (hT : T.options = c.options) (last last' : Nat) (trees : List Outline)
    (hnext : c.options.emitOutline = true →
      ∀ i ≤ trees.length, T.number (last + i) = last' + i) :
    c.outlineEntries last' (trees.map (·.rename T.number)) =
      T.thin (c.complete.outlineEntries last trees) := by
  rw [outlineEntries]
  cases hemit : c.options.emitOutline with
  | false =>
    have hnone : (c.complete.outlineEntries last trees).filter T.options.keeps = [] :=
      List.filter_eq_nil_iff.mpr fun e he => by simp [keeps_outlineEntries hT e he, hemit]
    rw [Thinning.thin, hnone]
    rfl
  | true =>
    rw [Thinning.thin_of_kept fun e he => (keeps_outlineEntries hT e he).trans hemit]
    refine outlineEntries_rename (last + 1) (last' + 1) trees fun i hi => ?_
    have hi' := hnext hemit (1 + i) (by omega)
    rw [Nat.add_assoc, hi', Nat.add_assoc]

theorem index_thinned (hT : T.options = c.options) {document : Nat}
    (hs : s.Thinned T past past' s')
    (hstart : (c.complete.start document s).Thinned T past past'
      (c.start (T.number document) s'))
    (hfull : ((c.complete.index document).run s).2.stream past <+: T.full) :
    ((c.complete.index document).run s).2.Thinned T past past'
      ((c.index (T.number document)).run s').2 := by
  by_cases hroot : c.file.arena.kind? c.file.root = some .sourceFile
  · rw [index_rooted (c := c.complete) hroot] at hfull ⊢
    rw [index_rooted hroot]
    have htour := after_thinned hT hstart c.file.tour.events
    cases hcut : c.file.tour.isCut with
    | true =>
      rw [recordAll_cut (c := c.complete) hcut] at hfull ⊢
      rw [recordAll_cut hcut]
      exact (htour hfull).session
    | false =>
      obtain ⟨session, hrun, hwrites⟩ := recordAll_outlines (c := c.complete) document s hcut
      obtain ⟨session', hrun', hwrites'⟩ := recordAll_outlines (T.number document) s' hcut
      rw [hrun] at hfull ⊢
      rw [hrun']
      change session.stream past <+: T.full at hfull
      rw [hwrites.stream] at hfull
      have hclosing := (List.prefix_append _ _).trans hfull
      have hgrows := closeComponent_grows (c := c.complete)
        (c.complete.after (c.complete.start document s) c.file.tour.events)
      have hclosed : (c.complete.closed document s).Thinned T past past'
          (c.closed (T.number document) s') := closeComponent_thinned hT
        (htour (((List.prefix_append_right_inj past).mpr hgrows).trans hclosing)) hclosing
      rw [hclosed.outline, Outline.Builder.finish_rename,
        outlineEntries_thin hT (c.complete.closed document s).session.lastId] at hwrites'
      · exact hclosed.session.writes hwrites hwrites'
      · intro hemit i hi
        refine hclosed.session.number_next hfull (fun e he => ?_) ?_
        · rw [keeps_outlineEntries hT e he, hemit]
        · have hlength : ∀ last trees, (c.complete.outlineEntries last trees).length =
              trees.length := fun last trees => by
            simp [outlineEntries, complete, Options.complete]
          rwa [hlength]
  · rw [index_unrooted (c := c.complete) hroot, index_unrooted hroot]
    exact hs

end FileContext

namespace Project

variable {p : Project} {T : Thinning} {past past' : List Entry} {s s' : Session}

theorem indexFile_thinned (hT : T.options = p.options) (h : s.Thinned T past past' s')
    (fileId : Nat) (file : SourceFile)
    (hfull : ((p.complete.indexFile fileId file).run s).2.stream past <+: T.full) :
    ((p.complete.indexFile fileId file).run s).2.Thinned T past past'
      ((p.indexFile fileId file).run s').2 := by
  let document : Entry := ⟨s.lastId + 1, .vertex, p.documentElement file⟩
  let s₁ := ((Session.vertex (p.documentElement file)).run s).2
  let s₁' := ((Session.vertex (p.documentElement file)).run s').2
  have hwrites : s.Writes [document] s₁ := s.writes_emit .vertex _
  have hwrites' : s'.Writes [⟨s'.lastId + 1, .vertex, p.documentElement file⟩] s₁' :=
    s'.writes_emit .vertex _
  rw [indexFile_run] at hfull ⊢
  rw [indexFile_run]
  have hgrows := (p.complete.context fileId file).index_grows (s.lastId + 1) s₁
  have hfirst := ((List.prefix_append_right_inj past).mpr hgrows).trans hfull
  change s₁.stream past <+: T.full at hfirst
  rw [hwrites.stream] at hfirst
  have hkept : ∀ e ∈ [document], T.options.keeps e = true := by
    intro e he
    rw [List.mem_singleton.mp he]
    rfl
  have hnext : T.number (s.lastId + 1) = s'.lastId + 1 := h.number_next hfirst hkept le_rfl
  have hthin : T.thin [document] = [⟨s'.lastId + 1, .vertex, p.documentElement file⟩] := by
    rw [Thinning.thin_of_kept hkept, ← hnext]
    rfl
  have h₁ : s₁.Thinned T past past' s₁' := h.writes hwrites (hthin ▸ hwrites')
  have hstart : ((p.context fileId file).complete.start (s.lastId + 1) s₁).Thinned T past past'
      ((p.context fileId file).start (T.number (s.lastId + 1)) s₁') := by
    have hdefs := h.definitions.insert (Nat.lt_succ_self s.lastId)
      (hnext ▸ Nat.lt_succ_self s'.lastId) ⟨file.name, file.nodeRange file.root⟩
    refine ⟨⟨h₁.symbols, h₁.packages, h₁.queries, h₁.stream, h₁.lastId, h₁.lastId', ?_,
      h₁.references⟩, rfl, rfl, rfl, rfl⟩
    exact hnext ▸ hdefs
  have hindex := FileContext.index_thinned hT h₁ hstart hfull
  rw [hnext] at hindex
  exact hindex

/-- What the files have written before the journal was last taken out. -/
def filesWritten (p : Project) (files : List (SourceFile × Nat)) (s : Session) : List Entry :=
  ((p.indexFiles files).run s).1.flatMap (·.2.effects.entries)

def filesAsked (p : Project) (files : List (SourceFile × Nat)) (s : Session) : List Query :=
  ((p.indexFiles files).run s).1.flatMap (·.2.effects.queries)

theorem indexFiles_thinned (hT : T.options = p.options) (files : List (SourceFile × Nat))
    (h : s.Thinned T past past' s')
    (hfull : ((p.complete.indexFiles files).run s).2.stream
      (past ++ p.complete.filesWritten files s) <+: T.full) :
    ((p.complete.indexFiles files).run s).2.Thinned T (past ++ p.complete.filesWritten files s)
        (past' ++ p.filesWritten files s') ((p.indexFiles files).run s').2 ∧
      ((p.indexFiles files).run s').1.map (·.1) =
        ((p.complete.indexFiles files).run s).1.map (·.1) ∧
      p.filesAsked files s' = p.complete.filesAsked files s := by
  induction files generalizing s s' past past' with
  | nil =>
    have hnil : ∀ (q : Project) s, (q.indexFiles []).run s = ([], s) := fun q s => by
      rw [indexFiles, List.mapM_nil]
      rfl
    rw [filesWritten, filesWritten, filesAsked, filesAsked, hnil, hnil, List.flatMap_nil,
      List.append_nil, List.append_nil]
    exact ⟨h, rfl, rfl⟩
  | cons f files ih =>
    have hwritten : ∀ (q : Project) s, q.filesWritten (f :: files) s =
        ((q.indexFile f.2 f.1).run s).2.journal.entries ++
          q.filesWritten files ((Session.takeJournal).run ((q.indexFile f.2 f.1).run s).2).2 := by
      intro q s
      rw [filesWritten, indexFiles_cons, List.flatMap_cons]
      rfl
    have hasked : ∀ (q : Project) s, q.filesAsked (f :: files) s =
        ((q.indexFile f.2 f.1).run s).2.journal.queries ++
          q.filesAsked files ((Session.takeJournal).run ((q.indexFile f.2 f.1).run s).2).2 := by
      intro q s
      rw [filesAsked, indexFiles_cons, List.flatMap_cons]
      rfl
    rw [hwritten, ← List.append_assoc, indexFiles_cons] at hfull
    have hend := (List.prefix_append _ _).trans hfull
    have hfirst := indexFile_thinned hT h f.2 f.1 ((List.prefix_append _ _).trans hend)
    obtain ⟨hrest, hresults, hqueries⟩ := ih hfirst.takeJournal hfull
    rw [hwritten, hwritten, hasked, hasked, ← List.append_assoc, ← List.append_assoc, hqueries,
      hfirst.queries, indexFiles_cons, indexFiles_cons, List.map_cons, List.map_cons, hresults,
      indexFile_fst, indexFile_fst]
    exact ⟨hrest, rfl, rfl⟩

theorem keys_increasing (p : Project) : p.recorded.definitions.keys.Pairwise (· < ·) := by
  rw [Table.keys, (recorded_registers p).definitions, List.map_map]
  exact (recorded_registers p).increasing

theorem references_defined (p : Project) :
    ∀ id ∈ p.recorded.references.keys, id ∈ p.recorded.definitions.keys := by
  intro id hid
  rw [Table.keys, (recorded_registers p).references, List.map_map] at hid
  obtain ⟨o, ho, rfl⟩ := List.mem_map.mp hid
  rw [Table.keys, (recorded_registers p).definitions, List.map_map]
  exact List.mem_map.mpr ⟨o, (List.mem_filter.mp ho).1, rfl⟩

/-- The records that remain when a run is without the kinds that are switched off. -/
def thinning (p : Project) : Thinning where
  options := p.options
  full := p.complete.plan.stages.flatMap (·.effects.entries)
  numbered := (planAll_closed (p := p.complete) {} session_coherent).1.numbered

def opening (p : Project) : List Entry :=
  [⟨1, .vertex, .metaData (Path.fileUri p.options.projectRoot)⟩,
    ⟨2, .vertex, .project "typescript"⟩]

theorem thinning_full (p : Project) :
    p.thinning.full =
      p.complete.front ++ linkage p.complete.recorded.lastId p.complete.graph.entries :=
  plan_entries p.complete

theorem begun_thinned (p : Project) :
    begun.Thinned p.thinning p.opening p.opening begun := by
  have hbegin : [] ++ p.opening <+: p.thinning.full := by
    rw [thinning_full, front, List.append_assoc, List.append_assoc]
    exact List.prefix_append _ _
  have hkept : ∀ e ∈ p.opening, p.thinning.options.keeps e = true := by
    intro e he
    simp only [opening, List.mem_cons, List.not_mem_nil, or_false] at he
    rcases he with rfl | rfl <;> rfl
  have hzero : p.thinning.number 0 = 0 := Thinning.number_length List.nil_prefix
  have hone := Thinning.number_add hbegin hkept (i := 1) (by simp [opening])
  have htwo := Thinning.number_add hbegin hkept (i := 2) le_rfl
  rw [List.length_nil, hzero] at hone htwo
  have hstream : begun.stream p.opening = p.opening := List.append_nil _
  refine ⟨rfl, rfl, rfl, ?_, rfl, rfl, ⟨rfl, by simp [begun, Table.keys]⟩,
    ⟨rfl, by simp [begun, Table.keys]⟩⟩
  rw [hstream, Thinning.thin_of_kept hkept]
  simp only [opening, List.map_cons, List.map_nil, Entry.rename, Element.rename]
  rw [hone, htwo]

theorem recorded_thinned (p : Project) :
    p.complete.recorded.Thinned p.thinning
        (p.opening ++ p.complete.filesWritten p.program.files.toList.zipIdx begun)
        (p.opening ++ p.filesWritten p.program.files.toList.zipIdx begun) p.recorded ∧
      ((p.indexFiles p.program.files.toList.zipIdx).run begun).1.map (·.1) =
        ((p.complete.indexFiles p.program.files.toList.zipIdx).run begun).1.map (·.1) ∧
      p.filesAsked p.program.files.toList.zipIdx begun =
        p.complete.filesAsked p.program.files.toList.zipIdx begun := by
  refine indexFiles_thinned rfl _ p.begun_thinned ?_
  rw [thinning_full]
  exact List.prefix_append _ _

theorem winner?_thinned (p : Project) (r : Location) :
    winner? p.recorded.definitions r =
      (winner? p.complete.recorded.definitions r).map p.thinning.number := by
  have hdefs := p.recorded_thinned.1.definitions.eq
  rw [hdefs]
  exact winner?_rename (keys_increasing p.complete) (hdefs ▸ keys_increasing p) r

theorem graph_thinned (p : Project) :
    p.graph.entries = p.complete.graph.entries.map fun x =>
      (p.thinning.number x.1, x.2.map p.thinning.number) := by
  have hdefs := p.recorded_thinned.1.definitions.eq
  have hrefs := p.recorded_thinned.1.references.eq
  rw [graph, hdefs, hrefs]
  exact link_rename (keys_increasing p.complete) (hdefs ▸ keys_increasing p)
    (references_defined p.complete)

theorem plan_thinned (p : Project) :
    p.front ++ linkage p.recorded.lastId p.graph.entries = p.thinning.thin p.thinning.full := by
  have hrecorded := p.recorded_thinned.1
  have hfront : p.front = p.thinning.thin p.complete.front := hrecorded.stream
  have hfull : p.complete.front ++
      linkage p.complete.recorded.lastId p.complete.graph.entries <+: p.thinning.full :=
    p.thinning_full ▸ List.prefix_refl _
  have hkept : ∀ e ∈ linkage p.complete.recorded.lastId p.complete.graph.entries,
      p.thinning.options.keeps e = true := by
    intro e he
    exact Options.keeps_of_lasting _ Options.lasting_isLink (isLink_linkage _ _ e he)
  have hlast := hrecorded.number_lastId ((List.prefix_append _ _).trans hfull)
  rw [thinning_full, Thinning.thin_append, ← hfront, Thinning.thin_of_kept hkept, ← hlast,
    graph_thinned, linkage_rename]
  intro i hi
  rw [hlast]
  exact hrecorded.number_next hfull hkept hi

theorem plan_summary_thinned (p : Project) : p.plan.summary = p.complete.plan.summary := by
  obtain ⟨hrecorded, hresults, -⟩ := p.recorded_thinned
  have hcount : ∀ q : Bool → Bool,
      ((p.indexFiles p.program.files.toList.zipIdx).run begun).1.countP (fun x => q x.1) =
        ((p.complete.indexFiles p.program.files.toList.zipIdx).run begun).1.countP
          (fun x => q x.1) := by
    intro q
    have hmapped := congrArg (List.countP q) hresults
    rw [List.countP_map, List.countP_map] at hmapped
    exact hmapped
  have hsummary : ∀ p : Project, p.plan.summary =
      ⟨((p.indexFiles p.program.files.toList.zipIdx).run begun).1.countP (fun x => id x.1),
        ((p.indexFiles p.program.files.toList.zipIdx).run begun).1.countP (fun x => !x.1),
        p.recorded.definitions.size, p.graph.size⟩ := fun _ => rfl
  have hdefs : p.recorded.definitions.size = p.complete.recorded.definitions.size := by
    rw [hrecorded.definitions.eq, Table.size, Table.size, Table.rename, List.length_map]
  have hlinked : p.graph.size = p.complete.graph.size := by
    rw [Table.size, Table.size, graph_thinned, List.length_map]
  rw [hsummary, hsummary, hcount, hcount, hdefs, hlinked]
  rfl

theorem plan_queries (p : Project) :
    p.plan.stages.flatMap (·.effects.queries) =
      p.filesAsked p.program.files.toList.zipIdx begun ++ p.recorded.journal.queries := by
  have hlinks := (Session.writes_emitLinks p.recorded).queries
  have hwrite : ∀ e : Entry, Journal.queries #[.write e] = [] := fun _ => rfl
  have hflush : Journal.queries #[.flush] = [] := rfl
  rw [plan_stages, filesAsked]
  simp only [List.flatMap_append, List.flatMap_cons, List.flatMap_nil, List.flatMap_map, hlinks,
    hwrite, hflush, List.append_nil, List.nil_append]

theorem queries_thinned (p : Project) :
    p.effects.filterMap Effect.query? = p.complete.effects.filterMap Effect.query? := by
  obtain ⟨hrecorded, -, hasked⟩ := p.recorded_thinned
  have heffects : ∀ p : Project, p.program.size ≠ 0 → p.effects.filterMap Effect.query? =
      p.plan.stages.flatMap (·.effects.queries) := by
    intro p hsize
    rw [effects, if_neg hsize, List.filterMap_flatMap]
    rfl
  by_cases hsize : p.program.size = 0
  · have hsize' : p.complete.program.size = 0 := hsize
    rw [effects, effects, if_pos hsize, if_pos hsize']
  · rw [heffects p hsize, heffects p.complete hsize, plan_queries, plan_queries, hasked,
      hrecorded.queries]
    rfl

variable {σ : Type} [Sink σ] {ready : σ → Prop} {sink : σ}

/-- The entries of the complete run that are of a kind switched on. -/
def remaining (p : Project) (sink : σ) : List Entry :=
  (p.complete.index sink).2.written.filter p.options.keeps

theorem recorded_of_empty (h : p.program.size = 0) : p.recorded = begun := by
  have hfiles : p.program.files.toList = [] := by
    simpa [Program.size] using h
  rw [recorded, hfiles]
  rfl

theorem remaining_eq (hs : Sink.Reliable ready) (hsink : ready sink) (hsize : p.program.size ≠ 0) :
    p.remaining sink = p.thinning.remaining := by
  have hsize' : p.complete.program.size ≠ 0 := hsize
  rw [remaining, written_of_reliable hs hsink hsize', ← thinning_full]
  rfl

/-- Switching kinds of records off only removes them. Of the entries of the complete run those
remain that are of a kind switched on, and every id, own or mentioned, is replaced by its rank among
them. The result, the questions and the symbols are the same, and each reference is attributed to
the same definition. -/
theorem records_only_removed (hs : Sink.Reliable ready) (p : Project) (hsink : ready sink) :
    (p.index sink).2.written =
        (p.remaining sink).map (·.rename (rank (p.remaining sink))) ∧
      (∀ e ∈ p.remaining sink, ∀ id ∈ e.id :: e.element.mentions,
        ∃ i, rank (p.remaining sink) id = i + 1 ∧
          ((p.remaining sink).map (·.id))[i]? = some id) ∧
      (p.index sink).1 = (p.complete.index sink).1 ∧
      Journal.queries (p.index sink).2.performed =
        Journal.queries (p.complete.index sink).2.performed ∧
      p.recorded.symbols = p.complete.recorded.symbols ∧
      p.recorded.packages = p.complete.recorded.packages ∧
      p.recorded.definitions =
        p.complete.recorded.definitions.rename (rank (p.remaining sink)) ∧
      (∀ r, winner? p.recorded.definitions r =
        (winner? p.complete.recorded.definitions r).map (rank (p.remaining sink))) ∧
      p.graph.entries = p.complete.graph.entries.map fun x =>
        (rank (p.remaining sink) x.1, x.2.map (rank (p.remaining sink))) := by
  by_cases hsize : p.program.size = 0
  · have hsize' : p.complete.program.size = 0 := hsize
    have hnone : p.remaining sink = [] := by
      rw [remaining, index, if_pos hsize']
      rfl
    rw [hnone, graph, graph, recorded_of_empty hsize, recorded_of_empty hsize', index, index,
      if_pos hsize, if_pos hsize']
    exact ⟨rfl, by simp, rfl, rfl, rfl, rfl, rfl, fun _ => rfl, rfl⟩
  · have hsize' : p.complete.program.size ≠ 0 := hsize
    obtain ⟨hperformed, hresult⟩ := index_of_reliable hs p hsink
    obtain ⟨hperformed', hresult'⟩ := index_of_reliable hs p.complete hsink
    obtain ⟨hrecorded, -⟩ := p.recorded_thinned
    rw [remaining_eq hs hsink hsize]
    refine ⟨?_, ?_, ?_, ?_, hrecorded.symbols, hrecorded.packages, hrecorded.definitions.eq,
      p.winner?_thinned, p.graph_thinned⟩
    · rw [written_of_reliable hs hsink hsize, plan_thinned]
      rfl
    · intro e he id hid
      have hclosed := (planAll_closed (p := p.complete) {} session_coherent).1
      exact p.thinning.rank_remaining hclosed he hid
    · rw [hresult hsize, hresult' hsize', plan_summary_thinned]
    · have hqueries := p.queries_thinned
      simpa [Journal.queries, hperformed, hperformed'] using hqueries

/-- A class with a method and one on its own, to which the rest of the file refers; then a file
whose root is missing. Nothing is measured, and no outline is written. -/
def unmeasured : Project where
  program := ⟨#[
    { name := "a.ts"
      text := "class A{m(){}}class B{}\nA".toList
      arena := ((((((Arena.empty.add .identifier 8 9 (.identifier "m")).add .methodDeclaration 8 13
        (.declaration (.method none false (some 0) false none [] none none))).add .identifier 6 7
        (.identifier "A")).add .classDeclaration 0 14
        (.declaration (.classLike none (some 2) none none [some 1]))).add .identifier 20 21
        (.identifier "B")).add .classDeclaration 14 23
        (.declaration (.classLike none (some 4) none none []))).add .sourceFile 0 25
        (.sourceFile [some 3, some 5] "a.ts" .ts false)
      root := some 6 },
    rootlessFile "b.ts"]⟩
  options := { emitComplexity := false, emitOutline := false }
  collaborators := { Collaborators.none with references := fun _ _ => .ok [⟨"a.ts", 24, 1⟩] }

theorem unmeasured_records :
    (unmeasured.complete.index ({} : MemorySink)).2.written.map (·.id) = List.range' 1 30 ∧
      unmeasured.complete.graph.entries = [(6, [3]), (9, [3]), (14, [3])] ∧
      (unmeasured.index ({} : MemorySink)).2.written.map (·.id) = List.range' 1 25 ∧
      unmeasured.graph.entries = [(6, [3]), (9, [3]), (12, [3])] ∧
      (unmeasured.index ({} : MemorySink)).2.written =
        (unmeasured.remaining ({} : MemorySink)).map
          (·.rename (rank (unmeasured.remaining ({} : MemorySink)))) := by
  refine ⟨by decide +kernel, by decide +kernel, by decide +kernel, by decide +kernel, ?_⟩
  exact (records_only_removed memory_reliable unmeasured trivial).1

end Project

end SourceIndex
