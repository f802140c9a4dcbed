/-! Tables keep their keys in the order in which they were first inserted, each key once. Sorting
is by insertion, which is all that short and nearly sorted lists need. -/

namespace SourceIndex

structure Table (κ α : Type) where
  entries : List (κ × α) := []

namespace Table

variable {κ α : Type} [DecidableEq κ]

def get? (t : Table κ α) (k : κ) : Option α := t.entries.lookup k

def put (k : κ) (v : α) : List (κ × α) → List (κ × α)
  | [] => [(k, v)]
  | (k', v') :: es => if k' = k then (k, v) :: es else (k', v') :: put k v es

/-- A new key goes to the end; a known one keeps its place and takes the new value. -/
def insert (t : Table κ α) (k : κ) (v : α) : Table κ α := ⟨put k v t.entries⟩

def size (t : Table κ α) : Nat := t.entries.length

theorem lookup_put (k k' : κ) (v : α) (es : List (κ × α)) :
    (put k v es).lookup k' = if k' = k then some v else es.lookup k' := by
  induction es with
  | nil =>
    by_cases h : k' = k
    · simp [put, h]
    · simp [put, List.lookup_cons, beq_false_of_ne h, h]
  | cons e es ih =>
    obtain ⟨k₀, v₀⟩ := e
    by_cases h : k' = k₀
    · subst h
      by_cases h₀ : k' = k <;> simp [put, h₀]
    · by_cases h₀ : k₀ = k
      · subst h₀
        simp [put, List.lookup_cons, beq_false_of_ne h, h]
      · simp [put, List.lookup_cons, beq_false_of_ne h, h₀, ih]

theorem get?_insert (t : Table κ α) (k k' : κ) (v : α) :
    (t.insert k v).get? k' = if k' = k then some v else t.get? k' :=
  lookup_put k k' v t.entries

theorem get?_insert_self (t : Table κ α) (k : κ) (v : α) : (t.insert k v).get? k = some v := by
  rw [get?_insert, if_pos rfl]

theorem get?_insert_of_ne (t : Table κ α) {k k' : κ} (h : k' ≠ k) (v : α) :
    (t.insert k v).get? k' = t.get? k' := by
  rw [get?_insert, if_neg h]

theorem eq_or_of_get?_insert {t : Table κ α} {k k' : κ} {v v' : α}
    (h : (t.insert k v).get? k' = some v') : k' = k ∧ v' = v ∨ t.get? k' = some v' := by
  rw [get?_insert] at h
  split at h
  · next heq => exact .inl ⟨heq, (Option.some.inj h).symm⟩
  · exact .inr h

end Table

def insertSorted {α : Type} (le : α → α → Bool) (a : α) : List α → List α
  | [] => [a]
  | b :: bs => if le a b then a :: b :: bs else b :: insertSorted le a bs

def sortBy {α : Type} (le : α → α → Bool) (as : List α) : List α :=
  as.foldr (insertSorted le) []

end SourceIndex
