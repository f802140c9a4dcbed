import SourceIndex.Proofs.Journals

/-! Looking up a symbol. The resolver asks about types and packages only, so that it writes nothing
and never asks for references. -/

namespace SourceIndex

/-- A question for references: the file and the place in it. -/
def Query.reference? : Query → Option (String × Nat)
  | references file offset => some (file, offset)
  | _ => none

/-- A question about types, or a report of a defect. -/
def Effect.isLookup : Effect → Bool
  | ask q => q.reference?.isNone
  | report _ => true
  | _ => false

namespace Journal

def referenceQueries (j : Journal) : List (String × Nat) := j.queries.filterMap Query.reference?

def typeQueries (j : Journal) : List Query := j.queries.filter (·.reference?.isNone)

/-- The second journal is the first after some lookups. -/
def LookedUp (j j' : Journal) : Prop :=
  ∃ effects : List Effect, j'.toList = j.toList ++ effects ∧ ∀ e ∈ effects, e.isLookup = true

variable {j j' j'' : Journal}

theorem LookedUp.refl (j : Journal) : j.LookedUp j := ⟨[], by simp, by simp⟩

theorem LookedUp.trans (h : j.LookedUp j') (h' : j'.LookedUp j'') : j.LookedUp j'' := by
  obtain ⟨effects, hj, hall⟩ := h
  obtain ⟨effects', hj', hall'⟩ := h'
  refine ⟨effects ++ effects', by rw [hj', hj, List.append_assoc], fun e he => ?_⟩
  rcases List.mem_append.mp he with he | he
  · exact hall e he
  · exact hall' e he

theorem LookedUp.consult {α : Type} (j : Journal) {query : Query}
    (hquery : query.reference? = none) (answer : Except OracleError α) (nothing : α) :
    j.LookedUp (j.consult query answer nothing).2 := by
  obtain ⟨reports, hj⟩ := j.consult_toList query answer nothing
  refine ⟨_, hj, fun e he => ?_⟩
  rcases List.mem_cons.mp he with rfl | he
  · rw [Effect.isLookup, hquery]
    rfl
  · obtain ⟨error, -, rfl⟩ := List.mem_map.mp he
    rfl

theorem LookedUp.entries (h : j.LookedUp j') : j'.entries = j.entries := by
  obtain ⟨effects, hj, hall⟩ := h
  have hnone : effects.filterMap Effect.entry? = [] := by
    refine List.filterMap_eq_nil_iff.mpr fun e he => ?_
    have hlookup := hall e he
    cases e with
    | write entry => simp [Effect.isLookup] at hlookup
    | ask query => rfl
    | report error => rfl
    | flush => rfl
  rw [Journal.entries, Journal.entries, hj, List.filterMap_append, hnone, List.append_nil]

theorem LookedUp.referenceQueries (h : j.LookedUp j') :
    j'.referenceQueries = j.referenceQueries := by
  obtain ⟨effects, hj, hall⟩ := h
  have hnone : (effects.filterMap Effect.query?).filterMap Query.reference? = [] := by
    refine List.filterMap_eq_nil_iff.mpr fun query hquery => ?_
    obtain ⟨e, he, hask⟩ := List.mem_filterMap.mp hquery
    have hlookup := hall e he
    cases e with
    | ask query' =>
      obtain rfl : query' = query := Option.some.inj hask
      simpa [Effect.isLookup] using hlookup
    | write entry => simp [Effect.query?] at hask
    | report error => simp [Effect.query?] at hask
    | flush => simp [Effect.query?] at hask
  simp only [Journal.referenceQueries, queries, hj, List.filterMap_append, hnone, List.append_nil]

end Journal

open Memory

namespace World

variable {w : World} {f : SourceFile} {n : Node} {key : NodeKey} {m m₁ : Memory}
  {target : Option NodeKey}

theorem propTarget?_lookedUp (w : World) (f : SourceFile) (key : NodeKey) (m : Memory) :
    m.journal.LookedUp ((w.propTarget? f key).run m).2.journal := by
  simp only [propTarget?]
  cases f.arena.parent (f.arena.parent key.node) with
  | none => exact .refl _
  | some element =>
    cases f.arena.identifierText? (f.arena.nameOf key.node) with
    | none => exact .refl _
    | some name =>
      have htype : m.journal.LookedUp ((consult (.propsType ⟨key.file, some element⟩)
          (w.collaborators.propsType ⟨key.file, some element⟩) none).run m).2.journal :=
        .consult m.journal rfl _ _
      simp only [run_bind]
      cases ((consult (.propsType ⟨key.file, some element⟩)
        (w.collaborators.propsType ⟨key.file, some element⟩) none).run m).1 with
      | none => exact htype
      | some type => exact htype.trans (.consult _ rfl _ _)

theorem setTarget?_lookedUp (h : (w.setTarget? f n key).run m = (target, m₁)) :
    m.journal.LookedUp m₁.journal := by
  by_cases hkind : n.kind = .jsxAttribute
  · have hp := propTarget?_lookedUp w f key m
    simp only [setTarget?, hkind, if_true] at h
    rw [h] at hp
    exact hp
  · simp only [setTarget?, hkind, if_false] at h
    obtain ⟨rfl, rfl⟩ := Prod.mk.inj h
    exact .refl _

theorem importTarget?_lookedUp (h : (w.importTarget? n key).run m = (target, m₁)) :
    m.journal.LookedUp m₁.journal := by
  by_cases hi : n.isImport = true
  · simp only [importTarget?, hi, if_true, run_bind] at h
    obtain ⟨rfl, rfl⟩ := Prod.mk.inj h
    exact .consult m.journal rfl _ _
  · simp only [importTarget?, hi] at h
    obtain ⟨rfl, rfl⟩ := Prod.mk.inj h
    exact .refl _

end World

theorem Resolves.lookedUp {w : World} {mayCut : Prop} {links : Nat} {key : NodeKey} {m m' : Memory}
    {s : Symbol} (h : Resolves w mayCut links key m s m') : m.journal.LookedUp m'.journal := by
  induction h with
  | known => exact .refl _
  | cut => exact .refl _
  | missing => exact .refl _
  | block => exact .refl _
  | file _ _ _ hpackage =>
    obtain ⟨rfl, rfl⟩ := Prod.mk.inj hpackage
    exact .refl _
  | counted _ _ _ hnumber _ ih =>
    obtain ⟨rfl, rfl⟩ := Prod.mk.inj hnumber
    exact ih
  | property _ _ _ htarget _ ih => exact (World.setTarget?_lookedUp htarget).trans ih
  | orphan hasks _ =>
    have hasked := World.setTarget?_lookedUp hasks.target
    exact hasked
  | unowned hasks _ _ _ ih => exact (World.setTarget?_lookedUp hasks.target).trans ih
  | container hasks _ _ _ ih => exact (World.setTarget?_lookedUp hasks.target).trans ih
  | imported hasks _ _ _ himport _ ih ih' =>
    exact ((World.setTarget?_lookedUp hasks.target).trans ih).trans
      ((World.importTarget?_lookedUp himport).trans ih')
  | declared hasks _ _ _ himport _ ih =>
    have hasked := (World.setTarget?_lookedUp hasks.target).trans ih
    exact hasked.trans (World.importTarget?_lookedUp himport :)
  | undeclared hasks _ _ _ himport _ ih =>
    have hasked := (World.setTarget?_lookedUp hasks.target).trans ih
    exact hasked.trans (World.importTarget?_lookedUp himport :)

end SourceIndex
