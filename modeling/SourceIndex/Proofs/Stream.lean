import Mathlib.Data.List.Basic
import SourceIndex.Delivery

/-! Streams of entries. In a closed stream the ids count from one and every id that an entry
mentions is that of an earlier entry of the right kind. -/

namespace SourceIndex

def Effect.entry? : Effect → Option Entry
  | write e => some e
  | _ => none

def Journal.entries (j : Journal) : List Entry := j.toList.filterMap Effect.entry?

theorem Journal.entries_push (j : Journal) (e : Effect) :
    Journal.entries (j.push e) = j.entries ++ e.entry?.toList := by
  cases he : e.entry? <;> simp [Journal.entries, he]

theorem Journal.consult_entries {α : Type} (j : Journal) (query : Query)
    (answer : Except OracleError α) (nothing : α) :
    (j.consult query answer nothing).2.entries = j.entries := by
  cases answer with
  | ok a => simp [Journal.consult, Journal.entries_push, Effect.entry?]
  | error e =>
    cases he : e.isDefect <;>
      simp [Journal.consult, Journal.entries_push, Effect.entry?, he]

mutual

/-- The ids in a tree, each before those below it. -/
def Outline.ids : Outline → List Nat
  | .node id children => id :: Outline.forestIds children

def Outline.forestIds : List Outline → List Nat
  | [] => []
  | o :: os => o.ids ++ Outline.forestIds os

end

theorem Outline.mem_forestIds {os : List Outline} {id : Nat} :
    id ∈ Outline.forestIds os ↔ ∃ o ∈ os, id ∈ o.ids := by
  induction os with
  | nil => simp [forestIds]
  | cons o os ih => simp [forestIds, ih]

namespace Entry

/-- The address of a document vertex and whether it is a script without types. -/
def document? (e : Entry) : Option (String × Bool) :=
  match e.type, e.element with
  | .vertex, .document uri isJavaScript => some (uri, isJavaScript)
  | _, _ => none

def isRange (e : Entry) : Bool :=
  match e.type, e.element with
  | .vertex, .range .. => true
  | _, _ => false

def isResult (e : Entry) : Bool :=
  match e.type, e.element with
  | .vertex, .referenceResult => true
  | _, _ => false

/-- What references can be attributed to: a declaration or a whole document. -/
def isScope (e : Entry) : Bool := e.isRange || e.document?.isSome

end Entry

/-- An entry of some kind has this id. -/
def Names (kind : Entry → Bool) (stream : List Entry) (id : Nat) : Prop :=
  ∃ e ∈ stream, e.id = id ∧ kind e = true

theorem Names.mono {kind : Entry → Bool} {stream stream' : List Entry} {id : Nat}
    (h : Names kind stream id) (hsub : stream ⊆ stream') : Names kind stream' id := by
  obtain ⟨e, he, hid, hkind⟩ := h
  exact ⟨e, hsub he, hid, hkind⟩

theorem Names.scope {stream : List Entry} {id : Nat} (h : Names Entry.isRange stream id) :
    Names Entry.isScope stream id := by
  obtain ⟨e, he, hid, hkind⟩ := h
  exact ⟨e, he, hid, by simp [Entry.isScope, hkind]⟩

/-- What is mentioned was written earlier. The declarations in an outline were written after the
last document vertex, which is that of their file. -/
def Element.GroundedIn (earlier : List Entry) : Element → Prop
  | complexity component _ => Names Entry.isScope earlier component
  | outline tree => ∃ before document block, earlier = before ++ document :: block ∧
      document.document?.isSome = true ∧ (∀ e ∈ block, e.document? = none) ∧
      ∀ id ∈ tree.ids, Names Entry.isRange block id
  | references result => Names Entry.isResult earlier result
  | item result ids .definitions => Names Entry.isResult earlier result ∧
      ∃ id, ids = [id] ∧ Names Entry.isRange earlier id
  | item result ids .references => Names Entry.isResult earlier result ∧ ids.Nodup ∧
      ∀ id ∈ ids, Names Entry.isScope earlier id
  | _ => True

/-- Ids count from one, and what an entry mentions was written before it. -/
structure Closed (stream : List Entry) : Prop where
  numbered : stream.map (·.id) = List.range' 1 stream.length
  grounded : ∀ earlier e later, stream = earlier ++ e :: later → e.element.GroundedIn earlier

theorem closed_nil : Closed [] where
  numbered := rfl
  grounded earlier e later h := by simp at h

theorem Closed.snoc {stream : List Entry} {e : Entry} (h : Closed stream)
    (hid : e.id = stream.length + 1) (he : e.element.GroundedIn stream) :
    Closed (stream ++ [e]) where
  numbered := by
    rw [List.map_append, h.numbered, List.length_append, List.length_singleton,
      List.range'_1_concat]
    simp [hid, Nat.add_comm]
  grounded earlier e' later heq := by
    rcases List.eq_nil_or_concat later with rfl | ⟨later, last, rfl⟩
    · obtain ⟨rfl, hlast⟩ := List.append_inj' heq rfl
      rw [List.singleton_inj.mp hlast.symm]
      exact he
    · have heq' : stream ++ [e] = (earlier ++ e' :: later) ++ [last] := by simpa using heq
      exact h.grounded earlier e' later (List.append_inj' heq' rfl).1

end SourceIndex
