import SourceIndex.Proofs.Renaming

/-! Streams without some kinds of records. When measures or outlines are taken out of a stream, each
of the entries that remain is given its rank among them as its new id. A session is compared with
one that writes only what remains. The new ids are known when the stream is complete, so what a
session has written so far is seen as a beginning of that stream. -/

namespace SourceIndex

namespace Options

def complete (o : Options) : Options := { o with emitComplexity := true, emitOutline := true }

/-- Whether an entry is of a kind that is switched on. -/
def keeps (o : Options) (e : Entry) : Bool :=
  match e.element with
  | .complexity _ _ => o.emitComplexity
  | .outline _ => o.emitOutline
  | _ => true

/-- Entries of these kinds are neither measures nor outlines. -/
def Lasting (kind : Entry → Bool) : Prop :=
  (∀ id type component metrics, kind ⟨id, type, .complexity component metrics⟩ = false) ∧
    ∀ id type tree, kind ⟨id, type, .outline tree⟩ = false

theorem lasting_isLink : Lasting Entry.isLink := ⟨fun _ _ _ _ => rfl, fun _ _ _ => rfl⟩

theorem lasting_isScope : Lasting Entry.isScope :=
  ⟨fun _ type _ _ => by cases type <;> rfl, fun _ type _ => by cases type <;> rfl⟩

theorem lasting_isResult : Lasting Entry.isResult :=
  ⟨fun _ type _ _ => by cases type <;> rfl, fun _ type _ => by cases type <;> rfl⟩

variable (o : Options)

theorem keeps_of_lasting {kind : Entry → Bool} (h : Lasting kind) {e : Entry}
    (he : kind e = true) : o.keeps e = true := by
  obtain ⟨id, type, element⟩ := e
  cases element with
  | complexity component metrics => rw [h.1] at he; cases he
  | outline tree => rw [h.2] at he; cases he
  | _ => rfl

/-- Only scopes and results are ever mentioned, and these are kept. -/
theorem keeps_mentioned {element : Element} {earlier : List Entry}
    (h : element.GroundedIn earlier) {id : Nat} (hid : id ∈ element.mentions) :
    ∃ e ∈ earlier, e.id = id ∧ o.keeps e = true := by
  have hkept : ∀ {kind : Entry → Bool} {id : Nat}, Lasting kind → Names kind earlier id →
      ∃ e ∈ earlier, e.id = id ∧ o.keeps e = true := by
    rintro kind id hlasting ⟨e, he, heq, hkind⟩
    exact ⟨e, he, heq, o.keeps_of_lasting hlasting hkind⟩
  cases element with
  | complexity component metrics =>
    rw [List.mem_singleton.mp hid]
    exact hkept lasting_isScope h
  | outline tree =>
    obtain ⟨before, document, block, rfl, -, -, htree⟩ := h
    refine hkept lasting_isScope ((htree id hid).mono ?_).scope
    exact fun e he => List.mem_append_right _ (List.mem_cons_of_mem _ he)
  | references result =>
    rw [List.mem_singleton.mp hid]
    exact hkept lasting_isResult h
  | item result ids property =>
    cases property with
    | definitions =>
      obtain ⟨hnames, id', rfl, hrange⟩ := h
      rcases List.mem_cons.mp hid with rfl | hid
      · exact hkept lasting_isResult hnames
      · rw [List.mem_singleton.mp hid]
        exact hkept lasting_isScope hrange.scope
    | references =>
      obtain ⟨hnames, -, hall⟩ := h
      rcases List.mem_cons.mp hid with rfl | hid
      · exact hkept lasting_isResult hnames
      · exact hkept lasting_isScope (hall id hid)
  | _ => cases hid

end Options

def FileContext.complete (c : FileContext) : FileContext :=
  { c with options := c.options.complete }

def Project.complete (p : Project) : Project := { p with options := p.options.complete }

/-- The number of entries up to an id. -/
def rank (es : List Entry) (id : Nat) : Nat := es.countP (·.id ≤ id)

/-- Where ids increase, an entry's rank is its place. -/
theorem rank_eq_place {es : List Entry} (h : (es.map (·.id)).Pairwise (· < ·)) {id : Nat}
    (hid : id ∈ es.map (·.id)) :
    ∃ i, rank es id = i + 1 ∧ (es.map (·.id))[i]? = some id := by
  induction es with
  | nil => cases hid
  | cons e es ih =>
    obtain ⟨habove, hincreasing⟩ := List.pairwise_cons.mp h
    by_cases heq : id = e.id
    · have hnone : es.countP (·.id ≤ id) = 0 := by
        rw [List.countP_eq_zero]
        intro e' he'
        have hlt : e.id < e'.id := habove e'.id (List.mem_map_of_mem he')
        simp only [decide_eq_true_eq]
        omega
      refine ⟨0, ?_, by simp [heq]⟩
      rw [rank, List.countP_cons, hnone]
      simp [heq]
    · have hmem : id ∈ es.map (·.id) := (List.mem_cons.mp hid).resolve_left heq
      have hlt := habove id hmem
      obtain ⟨i, hrank, hi⟩ := ih hincreasing hmem
      refine ⟨i + 1, ?_, hi⟩
      rw [rank, List.countP_cons, ← rank, hrank]
      simp [hlt.le]

/-- Options, and the stream of a run with all kinds of records. -/
structure Thinning where
  options : Options
  full : List Entry
  numbered : full.map (·.id) = List.range' 1 full.length

namespace Thinning

variable (T : Thinning) {es es' : List Entry}

def remaining : List Entry := T.full.filter T.options.keeps

def number (id : Nat) : Nat := rank T.remaining id

/-- What remains of some entries, under new ids. -/
def thin (es : List Entry) : List Entry := (es.filter T.options.keeps).map (·.rename T.number)

variable {T}

theorem thin_append : T.thin (es ++ es') = T.thin es ++ T.thin es' := by
  rw [thin, List.filter_append, List.map_append]
  rfl

theorem thin_of_kept (h : ∀ e ∈ es, T.options.keeps e = true) :
    T.thin es = es.map (·.rename T.number) := by
  rw [thin, List.filter_eq_self.mpr h]

theorem number_length (h : es <+: T.full) :
    T.number es.length = (es.filter T.options.keeps).length := by
  obtain ⟨rest, hfull⟩ := h
  have hids := T.numbered
  rw [← hfull, List.map_append, List.length_append, ← List.range'_append_1] at hids
  obtain ⟨hes, hrest⟩ := List.append_inj hids (by simp)
  have hlow : (es.filter T.options.keeps).countP (·.id ≤ es.length) =
      (es.filter T.options.keeps).length := by
    rw [List.countP_eq_length]
    intro e he
    have hid := List.mem_map_of_mem (f := Entry.id) (List.mem_filter.mp he).1
    rw [hes, List.mem_range'_1] at hid
    simp only [decide_eq_true_eq]
    omega
  have hhigh : (rest.filter T.options.keeps).countP (·.id ≤ es.length) = 0 := by
    rw [List.countP_eq_zero]
    intro e he
    have hid := List.mem_map_of_mem (f := Entry.id) (List.mem_filter.mp he).1
    rw [hrest, List.mem_range'_1] at hid
    simp only [decide_eq_true_eq]
    omega
  rw [number, remaining, rank, ← hfull, List.filter_append, List.countP_append, hlow, hhigh]
  rfl

/-- Entries that are kept are given new ids one after the other. -/
theorem number_add (h : es ++ es' <+: T.full) (hkept : ∀ e ∈ es', T.options.keeps e = true)
    {i : Nat} (hi : i ≤ es'.length) : T.number (es.length + i) = T.number es.length + i := by
  have hbegin : es ++ es'.take i <+: T.full :=
    ((List.prefix_append_right_inj es).mpr (List.take_prefix i es')).trans h
  have hlength : (es ++ es'.take i).length = es.length + i := by
    rw [List.length_append, List.length_take, Nat.min_eq_left hi]
  have htaken : (es'.take i).filter T.options.keeps = es'.take i :=
    List.filter_eq_self.mpr fun e he => hkept e (List.mem_of_mem_take he)
  rw [← hlength, number_length hbegin, number_length ((List.prefix_append _ _).trans h),
    List.filter_append, htaken, List.length_append, List.length_take, Nat.min_eq_left hi]

theorem remaining_increasing (T : Thinning) : (T.remaining.map (·.id)).Pairwise (· < ·) := by
  have hall : (T.full.map (·.id)).Pairwise (· < ·) := by
    rw [T.numbered]
    exact List.pairwise_lt_range'
  exact hall.sublist (List.filter_sublist.map _)

/-- An id in what remains is that of an entry which remains, and its rank is the place of this
entry. -/
theorem rank_remaining (T : Thinning) (h : Closed T.full) {e : Entry} (he : e ∈ T.remaining)
    {id : Nat} (hid : id ∈ e.id :: e.element.mentions) :
    ∃ i, rank T.remaining id = i + 1 ∧ (T.remaining.map (·.id))[i]? = some id := by
  refine rank_eq_place T.remaining_increasing ?_
  rcases List.mem_cons.mp hid with rfl | hid
  · exact List.mem_map_of_mem he
  · obtain ⟨earlier, later, hsplit⟩ := List.append_of_mem (List.mem_filter.mp he).1
    obtain ⟨e', he', rfl, hkept⟩ :=
      T.options.keeps_mentioned (h.grounded earlier e later hsplit) hid
    refine List.mem_map_of_mem (List.mem_filter.mpr ⟨?_, hkept⟩)
    rw [hsplit]
    exact List.mem_append_left _ he'

end Thinning

namespace Session

variable {es past past' : List Entry} {s s' t t' : Session} {T : Thinning}

/-- The session of a complete run next to that of a run with some kinds of records switched off. -/
structure Thinned (T : Thinning) (past past' : List Entry) (s s' : Session) : Prop where
  symbols : s'.symbols = s.symbols
  packages : s'.packages = s.packages
  queries : s'.journal.queries = s.journal.queries
  stream : s'.stream past' = T.thin (s.stream past)
  lastId : s.lastId = (s.stream past).length
  lastId' : s'.lastId = (s'.stream past').length
  definitions : Table.Renamed T.number s.lastId s'.lastId s.definitions s'.definitions
  references : Table.Renamed T.number s.lastId s'.lastId s.references s'.references

theorem Thinned.number_lastId (h : s.Thinned T past past' s') (hfull : s.stream past <+: T.full) :
    T.number s.lastId = s'.lastId := by
  rw [h.lastId, Thinning.number_length hfull, h.lastId', h.stream, Thinning.thin, List.length_map]

/-- The ids that are next in the two runs. -/
theorem Thinned.number_next (h : s.Thinned T past past' s')
    (hfull : s.stream past ++ es <+: T.full) (hkept : ∀ e ∈ es, T.options.keeps e = true) {i : Nat}
    (hi : i ≤ es.length) : T.number (s.lastId + i) = s'.lastId + i := by
  have hnext := Thinning.number_add hfull hkept hi
  rw [← h.lastId, h.number_lastId ((List.prefix_append _ _).trans hfull)] at hnext
  exact hnext

theorem Thinned.writes (h : s.Thinned T past past' s') (ht : s.Writes es t)
    (ht' : s'.Writes (T.thin es) t') : t.Thinned T past past' t' where
  symbols := by rw [ht'.symbols, ht.symbols, h.symbols]
  packages := by rw [ht'.packages, ht.packages, h.packages]
  queries := by rw [ht'.queries, ht.queries, h.queries]
  stream := by rw [ht'.stream, ht.stream, h.stream, Thinning.thin_append]
  lastId := by rw [ht.lastId, ht.stream, List.length_append, h.lastId]
  lastId' := by rw [ht'.lastId, ht'.stream, List.length_append, h.lastId']
  definitions := by
    rw [ht.definitions, ht'.definitions, ht.lastId, ht'.lastId]
    exact h.definitions.mono (Nat.le_add_right _ _) (Nat.le_add_right _ _)
  references := by
    rw [ht.references, ht'.references, ht.lastId, ht'.lastId]
    exact h.references.mono (Nat.le_add_right _ _) (Nat.le_add_right _ _)

theorem Thinned.takeJournal (h : s.Thinned T past past' s') :
    ((takeJournal).run s).2.Thinned T (s.stream past) (s'.stream past')
      ((takeJournal).run s').2 := by
  have hstream : ∀ es (u : Session), ((Session.takeJournal).run u).2.stream es = es :=
    fun es _ => List.append_nil es
  refine ⟨h.symbols, h.packages, rfl, ?_, ?_, ?_, h.definitions, h.references⟩
  · rw [hstream, hstream, h.stream]
  · rw [hstream]
    exact h.lastId
  · rw [hstream]
    exact h.lastId'

end Session

end SourceIndex
