import Mathlib.Data.List.Basic
import SourceIndex.Tour

/-! The tour of a file as a tree. A walk is made of tokens and of nodes, and all that is met inside
a node is a walk again. A tour that was cut off leaves some nodes open; in its walk they are closed
at the end. -/

namespace SourceIndex

/-- A way through nodes and tokens. On some of the nodes there is a note. -/
inductive Walk (α : Type) where
  | done
  | operator (token : String) (rest : Walk α)
  | operand (token : String) (rest : Walk α)
  | node (index : Nat) (n : Node) (note : Option α) (inside rest : Walk α)

structure Noted (α : Type) where
  index : Nat
  node : Node
  note : α

namespace Walk

variable {α β γ : Type}

def append : Walk α → Walk α → Walk α
  | done, w => w
  | operator token rest, w => operator token (rest.append w)
  | operand token rest, w => operand token (rest.append w)
  | node index n note inside rest, w => node index n note inside (rest.append w)

def events : Walk α → List Event
  | done => []
  | operator token rest => .operator token :: rest.events
  | operand token rest => .operand token :: rest.events
  | node index n _ inside rest => .enter index n :: (inside.events ++ .leave :: rest.events)

def operators : Walk α → List String
  | done => []
  | operator token rest => token :: rest.operators
  | operand _ rest => rest.operators
  | node _ _ _ inside rest => inside.operators ++ rest.operators

def operands : Walk α → List String
  | done => []
  | operator _ rest => rest.operands
  | operand token rest => token :: rest.operands
  | node _ _ _ inside rest => inside.operands ++ rest.operands

/-- The nodes with a note, each before those inside it, and what is met inside them. -/
def spans : Walk α → List (Noted α × Walk α)
  | done => []
  | operator _ rest => rest.spans
  | operand _ rest => rest.spans
  | node index n note inside rest =>
    note.toList.map (fun a => (⟨index, n, a⟩, inside)) ++ (inside.spans ++ rest.spans)

def noted (w : Walk α) : List (Noted α) := w.spans.map (·.1)

/-- The nodes with a note that are not inside another one. -/
def children : Walk α → List (Noted α × Walk α)
  | done => []
  | operator _ rest => rest.children
  | operand _ rest => rest.children
  | node index n note inside rest =>
    (note.elim inside.children fun a => [(⟨index, n, a⟩, inside)]) ++ rest.children

def mapNotes (f : α → Option β) : Walk α → Walk β
  | done => done
  | operator token rest => operator token (rest.mapNotes f)
  | operand token rest => operand token (rest.mapNotes f)
  | node index n note inside rest =>
    node index n (note.bind f) (inside.mapNotes f) (rest.mapNotes f)

theorem append_done (w : Walk α) : w.append done = w := by
  induction w with
  | done => rfl
  | operator token rest ih => rw [append, ih]
  | operand token rest ih => rw [append, ih]
  | node index n note inside rest _ ih => rw [append, ih]

theorem events_append (w w' : Walk α) : (w.append w').events = w.events ++ w'.events := by
  induction w with
  | done => rfl
  | operator token rest ih => simp [append, events, ih]
  | operand token rest ih => simp [append, events, ih]
  | node index n note inside rest _ ih => simp [append, events, ih]

theorem noted_node (index : Nat) (n : Node) (note : Option α) (inside rest : Walk α) :
    (node index n note inside rest).noted =
      note.toList.map (fun a => ⟨index, n, a⟩) ++ (inside.noted ++ rest.noted) := by
  simp [noted, spans, Function.comp_def]

section

variable (f : α → Option β) (w : Walk α)

theorem events_mapNotes : (w.mapNotes f).events = w.events := by
  induction w with
  | done => rfl
  | operator token rest ih => rw [mapNotes, events, events, ih]
  | operand token rest ih => rw [mapNotes, events, events, ih]
  | node index n note inside rest ih ih' => rw [mapNotes, events, events, ih, ih']

theorem operators_mapNotes : (w.mapNotes f).operators = w.operators := by
  induction w with
  | done => rfl
  | operator token rest ih => rw [mapNotes, operators, operators, ih]
  | operand token rest ih => rw [mapNotes, operators, operators, ih]
  | node index n note inside rest ih ih' => rw [mapNotes, operators, operators, ih, ih']

theorem operands_mapNotes : (w.mapNotes f).operands = w.operands := by
  induction w with
  | done => rfl
  | operator token rest ih => rw [mapNotes, operands, operands, ih]
  | operand token rest ih => rw [mapNotes, operands, operands, ih]
  | node index n note inside rest ih ih' => rw [mapNotes, operands, operands, ih, ih']

end

theorem mapNotes_mapNotes (f : α → Option β) (g : β → Option γ) (w : Walk α) :
    (w.mapNotes f).mapNotes g = w.mapNotes fun a => (f a).bind g := by
  induction w with
  | done => rfl
  | operator token rest ih => exact congrArg (operator token) ih
  | operand token rest ih => exact congrArg (operand token) ih
  | node index n note inside rest ih ih' =>
    simp only [mapNotes, ih, ih']
    cases note <;> rfl

theorem mapNotes_congr {f g : α → Option β} {w : Walk α}
    (h : ∀ d ∈ w.noted, f d.note = g d.note) : w.mapNotes f = w.mapNotes g := by
  induction w with
  | done => rfl
  | operator token rest ih => exact congrArg (operator token) (ih h)
  | operand token rest ih => exact congrArg (operand token) (ih h)
  | node index n note inside rest ih ih' =>
    simp only [noted_node, List.mem_append] at h
    have hnote : note.bind f = note.bind g := by
      cases note with
      | none => rfl
      | some a => exact h ⟨index, n, a⟩ (.inl (by simp))
    simp only [mapNotes, hnote, ih fun d hd => h d (.inr (.inl hd)),
      ih' fun d hd => h d (.inr (.inr hd))]

theorem spans_mapNotes (f : α → Option β) (w : Walk α) :
    (w.mapNotes f).spans = w.spans.filterMap fun x =>
      (f x.1.note).map fun b => (⟨x.1.index, x.1.node, b⟩, x.2.mapNotes f) := by
  induction w with
  | done => rfl
  | operator token rest ih => exact ih
  | operand token rest ih => exact ih
  | node index n note inside rest ih ih' =>
    simp only [mapNotes, spans, ih, ih', List.filterMap_append]
    cases note with
    | none => rfl
    | some a =>
      congr 1
      cases h : f a <;> simp [h]

theorem noted_mapNotes (f : α → Option β) (w : Walk α) :
    (w.mapNotes f).noted = w.noted.filterMap fun d =>
      (f d.note).map fun b => ⟨d.index, d.node, b⟩ := by
  rw [noted, noted, spans_mapNotes, List.filterMap_map, List.map_filterMap]
  refine List.filterMap_congr fun x _ => ?_
  cases h : f x.1.note <;> simp [h]

/-- One event, put in front of what comes after it. There the first walk is on the same level, the
next ones are on the levels above. -/
def prepend : Event → List (Walk α) → List (Walk α)
  | .operator token, w :: above => operator token w :: above
  | .operand token, w :: above => operand token w :: above
  | .leave, levels => done :: levels
  | .enter index n, inside :: rest :: above => node index n none inside rest :: above
  | .enter index n, [inside] => [node index n none inside done]
  | _, [] => []

/-- The walk with these events. What is not left is closed at the end. -/
def ofEvents (es : List Event) : Walk α := (es.foldr prepend [done]).headD done

theorem foldr_prepend (w : Walk Empty) (w' : Walk Empty) (above : List (Walk Empty)) :
    w.events.foldr prepend (w' :: above) = w.append w' :: above := by
  induction w generalizing w' above with
  | done => rfl
  | operator token rest ih => rw [events, List.foldr_cons, ih]; rfl
  | operand token rest ih => rw [events, List.foldr_cons, ih]; rfl
  | node index n note inside rest ih ih' =>
    cases note with
    | some a => exact a.elim
    | none =>
      have hinside := ih done (rest.append w' :: above)
      rw [append_done] at hinside
      rw [events, List.foldr_cons, List.foldr_append, List.foldr_cons, ih']
      simp only [prepend, hinside, append]

/-- Levels above at which nothing follows make no difference. -/
theorem foldr_prepend_replicate (es : List Event) (w : Walk α) (above : List (Walk α)) (k : Nat) :
    ∃ w₁ above₁ j, es.foldr prepend (w :: above) = w₁ :: above₁ ∧
      es.foldr prepend (w :: above ++ List.replicate k done) =
        w₁ :: above₁ ++ List.replicate j done := by
  induction es with
  | nil => exact ⟨w, above, k, rfl, rfl⟩
  | cons e es ih =>
    obtain ⟨w₁, above₁, j, hshort, hlong⟩ := ih
    rw [List.foldr_cons, List.foldr_cons, hshort, hlong]
    cases e with
    | operator token => exact ⟨_, _, j, rfl, rfl⟩
    | operand token => exact ⟨_, _, j, rfl, rfl⟩
    | leave => exact ⟨_, _, j, rfl, rfl⟩
    | enter index n =>
      cases above₁ with
      | cons rest above₁ => exact ⟨_, _, j, rfl, rfl⟩
      | nil =>
        cases j with
        | zero => exact ⟨_, _, 0, rfl, rfl⟩
        | succ j => exact ⟨_, _, j, rfl, rfl⟩

theorem foldr_prepend_leave (k : Nat) :
    (List.replicate k Event.leave).foldr prepend [(done : Walk α)] =
      [done] ++ List.replicate k done := by
  induction k with
  | zero => rfl
  | succ k ih =>
    rw [List.replicate_succ, List.foldr_cons, ih]
    rfl

theorem ofEvents_eq {es : List Event} {k : Nat} {w : Walk Empty}
    (h : es ++ List.replicate k .leave = w.events) : ofEvents es = w := by
  obtain ⟨w₁, above, j, hshort, hlong⟩ := foldr_prepend_replicate es (done : Walk Empty) [] k
  have hwhole : es.foldr prepend ([done] ++ List.replicate k done) = [w] := by
    rw [← foldr_prepend_leave, ← List.foldr_append, h, foldr_prepend, append_done]
  rw [ofEvents, hshort]
  exact (List.cons.inj (hlong.symm.trans hwhole)).1

end Walk

/-- The walk has these events and then leaves what is still open; after a whole tour that is
nothing. -/
def Tour.Follows (t : Tour) (w : Walk Empty) : Prop :=
  ∃ k, w.events = t.events ++ List.replicate k .leave ∧ (t.isCut = false → k = 0)

namespace Tour

variable {t : Tour} {visit : NodeRef → Tour}

theorem Follows.append {rest : Unit → Tour} {w w' : Walk Empty} (h : t.Follows w)
    (h' : (rest ()).Follows w') : ∃ w'', (t.append rest).Follows w'' := by
  obtain ⟨k, hevents, hk⟩ := h
  cases hcut : t.isCut with
  | true => exact ⟨w, k, by simpa [Tour.append, hcut] using hevents, by simp [Tour.append, hcut]⟩
  | false =>
    obtain rfl := hk hcut
    obtain ⟨k', hevents', hk'⟩ := h'
    refine ⟨w.append w', k', ?_, by simpa [Tour.append, hcut] using hk'⟩
    simp [Tour.append, hcut, Walk.events_append, hevents, hevents']

theorem steps_follows (hvisit : ∀ r, ∃ w, (visit r).Follows w) (ss : List Step) :
    ∃ w, (steps visit ss).Follows w := by
  induction ss with
  | nil => exact ⟨.done, 0, rfl, fun _ => rfl⟩
  | cons s ss ih =>
    obtain ⟨w', h'⟩ := ih
    have hstep : ∃ w, (step visit s).Follows w := by
      cases s with
      | operator token => exact ⟨.operator token .done, 0, rfl, fun _ => rfl⟩
      | operand token => exact ⟨.operand token .done, 0, rfl, fun _ => rfl⟩
      | visit r => exact hvisit r
    obtain ⟨w, h⟩ := hstep
    exact h.append h'

/-- A node around a tour stays open if the tour is cut off. -/
theorem Follows.node {w : Walk Empty} (h : t.Follows w) (index : Nat) (n : Node) :
    ∃ w', Follows { t.append fun _ => { events := [.leave] } with
      events := .enter index n :: (t.append fun _ => { events := [.leave] }).events } w' := by
  obtain ⟨k, hevents, hk⟩ := h
  refine ⟨.node index n none w .done, if t.isCut then k + 1 else 0, ?_, ?_⟩
  · cases hcut : t.isCut with
    | true => simp [Tour.append, hcut, Walk.events, hevents, List.replicate_succ']
    | false => simp [Tour.append, hcut, Walk.events, hevents, hk hcut]
  · cases hcut : t.isCut <;> simp [Tour.append, hcut]

theorem mem_append {rest : Unit → Tour} {e : Event} (he : e ∈ (t.append rest).events) :
    e ∈ t.events ∨ e ∈ (rest ()).events := by
  unfold Tour.append at he
  split at he
  · exact .inl he
  · exact List.mem_append.mp he

theorem enter_mem_steps {ss : List Step} {index : Nat} {n : Node}
    (he : .enter index n ∈ (steps visit ss).events) : ∃ r, .enter index n ∈ (visit r).events := by
  induction ss with
  | nil => simp [steps] at he
  | cons s ss ih =>
    rcases mem_append he with he | he
    · cases s with
      | operator token => simp [step] at he
      | operand token => simp [step] at he
      | visit r => exact ⟨r, he⟩
    · exact ih he

end Tour

namespace SourceFile

variable {f : SourceFile}

theorem visit_follows (levels : Nat) (r : NodeRef) : ∃ w, (f.visit levels r).Follows w := by
  have hnothing : ∀ isCut, ∃ w, Tour.Follows { isCut } w :=
    fun isCut => ⟨.done, 0, rfl, fun _ => rfl⟩
  induction levels generalizing r with
  | zero =>
    unfold visit
    split
    · split <;> exact hnothing _
    · exact hnothing _
  | succ levels ih =>
    unfold visit
    split
    · rename_i index n _
      split
      · exact hnothing _
      · obtain ⟨w, h⟩ := Tour.steps_follows ih (n.steps (f.isInMapped index))
        exact h.node index n
    · exact hnothing _

def walk (f : SourceFile) : Walk Empty := .ofEvents f.tour.events

theorem tour_follows (f : SourceFile) : f.tour.Follows f.walk := by
  obtain ⟨w, k, hevents, hk⟩ := visit_follows (f := f) maxVisitDepth f.root
  have hwalk : f.walk = w := Walk.ofEvents_eq hevents.symm
  exact ⟨k, by rw [hwalk]; exact hevents, hk⟩

theorem walk_events (h : f.tour.isCut = false) : f.walk.events = f.tour.events := by
  obtain ⟨k, hevents, hk⟩ := f.tour_follows
  rw [hevents, hk h, List.replicate_zero, List.append_nil]

theorem visit_enter {levels : Nat} {r : NodeRef} {index : Nat} {n : Node}
    (he : .enter index n ∈ (f.visit levels r).events) : f.arena.get? (some index) = some n := by
  induction levels generalizing r with
  | zero =>
    unfold visit at he
    split at he
    · split at he <;> simp at he
    · simp at he
  | succ levels ih =>
    unfold visit at he
    split at he
    · rename_i hnode
      split at he
      · simp at he
      · rcases List.mem_cons.mp he with heq | he
        · obtain ⟨rfl, rfl⟩ := Event.enter.inj heq
          exact hnode
        · rcases Tour.mem_append he with he | he
          · obtain ⟨r, he⟩ := Tour.enter_mem_steps he
            exact ih he
          · simp at he
    · simp at he

theorem walk_enter {index : Nat} {n : Node} (he : .enter index n ∈ f.walk.events) :
    f.arena.get? (some index) = some n := by
  obtain ⟨k, hevents, -⟩ := f.tour_follows
  rw [hevents] at he
  rcases List.mem_append.mp he with he | he
  · exact visit_enter he
  · simp at he

end SourceFile

end SourceIndex
