import Mathlib.Data.List.Sort
import SourceIndex.Table

/-! Tables with distinct keys, and lists sorted by key. Sorting entries with distinct keys forgets
the order in which they were inserted. -/

namespace SourceIndex

namespace Table

variable {κ α : Type}

def keys (t : Table κ α) : List κ := t.entries.map (·.1)

variable [DecidableEq κ]

theorem mem_of_get? {t : Table κ α} {k : κ} {v : α} (h : t.get? k = some v) :
    (k, v) ∈ t.entries := by
  obtain ⟨before, after, he, _⟩ := List.lookup_eq_some_iff.mp h
  simp [he]

theorem get?_eq_none_iff {t : Table κ α} {k : κ} : t.get? k = none ↔ k ∉ t.keys := by
  simp only [get?, List.lookup_eq_none_iff, keys, List.mem_map, not_exists, not_and]
  constructor
  · intro h e he hk
    simpa [hk] using h e he
  · intro h e he
    simpa using fun hk => h e he hk.symm

theorem mem_keys_insert {t : Table κ α} {k k' : κ} {v : α} :
    k' ∈ (t.insert k v).keys ↔ k' = k ∨ k' ∈ t.keys := by
  rw [← not_iff_not, ← get?_eq_none_iff, get?_insert, not_or, ← get?_eq_none_iff]
  by_cases h : k' = k <;> simp [h]

theorem isSome_get?_insert {t : Table κ α} {k k' : κ} {v : α} :
    ((t.insert k v).get? k').isSome ↔ k' = k ∨ (t.get? k').isSome := by
  rw [get?_insert]
  split <;> simp [*]

theorem get?_eq_some_iff {t : Table κ α} (hnd : t.keys.Nodup) {k : κ} {v : α} :
    t.get? k = some v ↔ (k, v) ∈ t.entries := by
  refine ⟨mem_of_get?, fun h => ?_⟩
  obtain ⟨before, after, he⟩ := List.append_of_mem h
  refine List.lookup_eq_some_iff.mpr ⟨before, after, he, ?_⟩
  intro e hb
  have hnd' : (before.map (·.1) ++ k :: after.map (·.1)).Nodup := by
    simpa [keys, he] using hnd
  have hne : k ≠ e.1 := by
    rintro rfl
    exact List.disjoint_of_nodup_append hnd' (List.mem_map_of_mem hb) (by simp)
  simpa using hne

end Table

theorem insertSorted_eq {α : Type} (le : α → α → Bool) (a : α) (as : List α) :
    insertSorted le a as = as.orderedInsert (le · · = true) a := by
  induction as with
  | nil => rfl
  | cons b bs ih => simp only [insertSorted, List.orderedInsert_cons, ih]

theorem sortBy_eq {α : Type} (le : α → α → Bool) (as : List α) :
    sortBy le as = as.insertionSort (le · · = true) := by
  induction as with
  | nil => rfl
  | cons a as ih =>
    rw [List.insertionSort_cons, ← ih, ← insertSorted_eq]
    rfl

theorem sortBy_perm {α : Type} (le : α → α → Bool) (as : List α) : (sortBy le as).Perm as := by
  rw [sortBy_eq]
  exact List.perm_insertionSort _ as

abbrev sortedByKey {α : Type} (es : List (Nat × α)) : List (Nat × α) :=
  sortBy (fun a b => a.1 ≤ b.1) es

theorem sortedByKey_pairwise {α : Type} (es : List (Nat × α)) :
    (sortedByKey es).Pairwise (fun a b => a.1 ≤ b.1) := by
  have : Std.Total (fun a b : Nat × α => decide (a.1 ≤ b.1) = true) :=
    ⟨fun a b => by simpa using Nat.le_total a.1 b.1⟩
  have : IsTrans (Nat × α) (fun a b => decide (a.1 ≤ b.1) = true) :=
    ⟨fun a b c => by simpa using Nat.le_trans⟩
  rw [sortedByKey, sortBy_eq]
  simpa using List.pairwise_insertionSort (fun a b : Nat × α => decide (a.1 ≤ b.1) = true) es

/-- With distinct keys, the sorted entries depend only on which entries there are. -/
theorem sortedByKey_congr {α : Type} {es fs : List (Nat × α)} (hes : (es.map (·.1)).Nodup)
    (hfs : (fs.map (·.1)).Nodup) (h : ∀ e, e ∈ es ↔ e ∈ fs) : sortedByKey es = sortedByKey fs := by
  have hp : es.Perm fs :=
    (List.perm_ext_iff_of_nodup (List.Nodup.of_map _ hes) (List.Nodup.of_map _ hfs)).mpr h
  have hs : (sortedByKey es).Perm (sortedByKey fs) :=
    (sortBy_perm _ es).trans (hp.trans (sortBy_perm _ fs).symm)
  refine hs.eq_of_pairwise ?_ (sortedByKey_pairwise es) (sortedByKey_pairwise fs)
  intro a b ha hb hab hba
  have ha' : a ∈ es := (sortBy_perm _ es).mem_iff.mp ha
  have hb' : b ∈ es := (h b).mpr ((sortBy_perm _ fs).mem_iff.mp hb)
  exact List.inj_on_of_nodup_map hes ha' hb' (Nat.le_antisymm hab hba)

end SourceIndex
