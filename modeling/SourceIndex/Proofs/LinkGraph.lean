import SourceIndex.Proofs.Innermost

/-! The graph of links. A reference is attributed to its winner, the innermost definition around
it; a definition is linked to the winners of its references other than itself, each once and in the
order in which they first win. -/

namespace SourceIndex

/-- The definition to which a reference is attributed. -/
def winner? (definitions : Table Nat Location) (r : Location) : Option Nat :=
  innermost? (sortedByKey definitions.entries) r

theorem IsInnermost.congr {es fs : List (Nat × Location)} (h : ∀ e, e ∈ es ↔ e ∈ fs)
    {r l : Location} {id : Nat} (hi : IsInnermost es r id l) : IsInnermost fs r id l where
  mem := (h _).mp hi.mem
  covers := hi.covers
  minimal d hd := hi.minimal d ((h d).mpr hd)
  lowest d hd := hi.lowest d ((h d).mpr hd)

theorem winner?_spec (definitions : Table Nat Location) (r : Location) :
    (winner? definitions r = none ∧ ∀ d ∈ definitions.entries, ¬ Covers d.2 r) ∨
      ∃ id l, winner? definitions r = some id ∧ IsInnermost definitions.entries r id l := by
  have hmem : ∀ e, e ∈ sortedByKey definitions.entries ↔ e ∈ definitions.entries :=
    fun e => (sortBy_perm _ _).mem_iff
  rcases innermost?_spec (r := r) (sortedByKey_pairwise definitions.entries) with
    ⟨hn, h⟩ | ⟨id, l, hs, hi⟩
  · exact .inl ⟨hn, fun d hd => h d ((hmem d).mpr hd)⟩
  · exact .inr ⟨id, l, hs, hi.congr hmem⟩

theorem winner?_isSome_iff (definitions : Table Nat Location) (r : Location) :
    (∃ id, winner? definitions r = some id) ↔ ∃ d ∈ definitions.entries, Covers d.2 r := by
  rcases winner?_spec definitions r with ⟨hn, h⟩ | ⟨id, l, hs, hi⟩
  · simpa [hn] using h
  · exact ⟨fun _ => ⟨(id, l), hi.mem, hi.covers⟩, fun _ => ⟨id, hs⟩⟩

theorem winner?_isInnermost {definitions : Table Nat Location} {r : Location} {id : Nat}
    (h : winner? definitions r = some id) : ∃ l, IsInnermost definitions.entries r id l := by
  rcases winner?_spec definitions r with ⟨hn, _⟩ | ⟨id', l, hs, hi⟩
  · simp [hn] at h
  · rw [hs] at h
    exact ⟨l, Option.some.inj h ▸ hi⟩

theorem winner?_mem_keys {definitions : Table Nat Location} {r : Location} {id : Nat}
    (h : winner? definitions r = some id) : id ∈ definitions.keys := by
  obtain ⟨l, hi⟩ := winner?_isInnermost h
  exact List.mem_map_of_mem hi.mem

/-- Any two of the definitions around the reference contain one another, one way or the other. -/
def Nested (definitions : List (Nat × Location)) (r : Location) : Prop :=
  ∀ d ∈ definitions, ∀ e ∈ definitions, Covers d.2 r → Covers e.2 r →
    d.2.range.contains e.2.range = true ∨ e.2.range.contains d.2.range = true

theorem IsInnermost.inside {definitions : List (Nat × Location)} {r l : Location} {id : Nat}
    (h : IsInnermost definitions r id l) (hn : Nested definitions r) :
    ∀ d ∈ definitions, Covers d.2 r → d.2.range.contains l.range = true := by
  intro d hd hc
  rcases hn d hd (id, l) h.mem hc h.covers with hin | hin
  · exact hin
  · rw [h.minimal d hd hc hin]
    exact Range.contains_refl _

theorem IsInnermost.unique {definitions : List (Nat × Location)} {r l l' : Location} {id id' : Nat}
    (h : IsInnermost definitions r id l) (h' : IsInnermost definitions r id' l')
    (hn : Nested definitions r) : id' = id := by
  have hrange : l'.range = l.range :=
    Range.contains_antisymm (h.inside hn _ h'.mem h'.covers) (h'.inside hn _ h.mem h.covers)
  have hle := h.lowest _ h'.mem h'.covers.1 hrange
  have hge := h'.lowest _ h.mem h.covers.1 hrange.symm
  omega

theorem winner?_congr {definitions definitions' : Table Nat Location}
    (hnd : definitions.keys.Nodup) (hnd' : definitions'.keys.Nodup)
    (h : ∀ e, e ∈ definitions'.entries ↔ e ∈ definitions.entries) (r : Location) :
    winner? definitions' r = winner? definitions r := by
  rw [winner?, winner?, sortedByKey_congr hnd' hnd h]

/-- The place of the first reference that a definition wins. -/
def firstWin (winner : Location → Option Nat) (raw : List Location) (id : Nat) : Nat :=
  raw.findIdx (fun r => winner r == some id)

/-- The winners of references other than `id`, each once and in the order of their first win. -/
structure IsReferrers (winner : Location → Option Nat) (id : Nat) (raw : List Location)
    (ids : List Nat) : Prop where
  mem_iff : ∀ i, i ∈ ids ↔ i ≠ id ∧ ∃ r ∈ raw, winner r = some i
  nodup : ids.Nodup
  ordered : ids.Pairwise (fun i j => firstWin winner raw i < firstWin winner raw j)

theorem IsReferrers.unique {winner : Location → Option Nat} {id : Nat} {raw : List Location}
    {ids ids' : List Nat} (h : IsReferrers winner id raw ids)
    (h' : IsReferrers winner id raw ids') :
    ids = ids' := by
  have hp : ids.Perm ids' :=
    (List.perm_ext_iff_of_nodup h.nodup h'.nodup).mpr
      fun i => (h.mem_iff i).trans (h'.mem_iff i).symm
  refine hp.eq_of_pairwise ?_ h.ordered h'.ordered
  intro i j _ _ hij hji
  omega

theorem firstWin_cons_of_ne {winner : Location → Option Nat} {r : Location} {raw : List Location}
    {i : Nat} (h : winner r ≠ some i) :
    firstWin winner (r :: raw) i = firstWin winner raw i + 1 := by
  have hb : (winner r == some i) = false := beq_false_of_ne h
  simp [firstWin, List.findIdx_cons, hb]

theorem pairwise_firstWin_cons {winner : Location → Option Nat} {r : Location}
    {raw : List Location} {ids : List Nat} (hne : ∀ i ∈ ids, winner r ≠ some i)
    (h : ids.Pairwise (fun i j => firstWin winner raw i < firstWin winner raw j)) :
    ids.Pairwise (fun i j => firstWin winner (r :: raw) i < firstWin winner (r :: raw) j) := by
  refine h.imp_of_mem fun hi hj hij => ?_
  rw [firstWin_cons_of_ne (hne _ hi), firstWin_cons_of_ne (hne _ hj)]
  omega

/-- Dropping repetitions keeps the order of first wins. What is dropped so far is the filter's
doing, so the filter varies along the list. -/
theorem eraseDups_ordered (winner : Location → Option Nat) (raw : List Location)
    (p : Nat → Bool) :
    ((raw.filterMap winner).filter p).eraseDups.Pairwise
      (fun i j => firstWin winner raw i < firstWin winner raw j) := by
  induction raw generalizing p with
  | nil => simp
  | cons r raw ih =>
    cases hw : winner r with
    | none =>
      rw [List.filterMap_cons_none hw]
      exact pairwise_firstWin_cons (by simp [hw]) (ih p)
    | some i =>
      rw [List.filterMap_cons_some hw]
      by_cases hp : p i = true
      · rw [List.filter_cons_of_pos hp, List.eraseDups_cons, List.filter_filter]
        have hne : ∀ j ∈ ((raw.filterMap winner).filter fun a => !a == i && p a).eraseDups,
            winner r ≠ some j := by
          intro j hj hj'
          rw [hw] at hj'
          simp [List.mem_eraseDups, Option.some.inj hj'] at hj
        refine List.pairwise_cons.mpr ⟨fun j hj => ?_, pairwise_firstWin_cons hne (ih _)⟩
        rw [firstWin_cons_of_ne (hne j hj)]
        simp [firstWin, List.findIdx_cons, hw]
      · rw [List.filter_cons_of_neg hp]
        refine pairwise_firstWin_cons (fun j hj hj' => ?_) (ih p)
        rw [hw] at hj'
        rw [← Option.some.inj hj', List.mem_eraseDups, List.mem_filter] at hj
        exact hp hj.2

theorem referrers_isReferrers (definitions : Table Nat Location) (id : Nat) (raw : List Location) :
    IsReferrers (winner? definitions) id raw
      (referrers (sortedByKey definitions.entries) id raw) where
  mem_iff i := by
    simp only [referrers, List.mem_eraseDups, List.mem_filter, List.mem_filterMap, winner?,
      ne_eq, decide_not, Bool.not_eq_true', decide_eq_false_iff_not]
    exact And.comm
  nodup := (eraseDups_ordered _ _ _).imp fun h he => by rw [he] at h; omega
  ordered := eraseDups_ordered _ _ _

theorem link_entries (definitions : Table Nat Location) (references : Table Nat (List Location)) :
    (link definitions references).entries = references.entries.filterMap fun (id, raw) =>
      match referrers (sortedByKey definitions.entries) id raw with
      | [] => none
      | ids => some (id, ids) := rfl

theorem mem_link_iff {definitions : Table Nat Location} {references : Table Nat (List Location)}
    {id : Nat} {ids : List Nat} :
    (id, ids) ∈ (link definitions references).entries ↔
      ∃ raw, (id, raw) ∈ references.entries ∧ ids ≠ [] ∧
        IsReferrers (winner? definitions) id raw ids := by
  rw [link_entries, List.mem_filterMap]
  constructor
  · rintro ⟨⟨id', raw⟩, hmem, h⟩
    have hr := referrers_isReferrers definitions id' raw
    cases hl : referrers (sortedByKey definitions.entries) id' raw with
    | nil => simp [hl] at h
    | cons i is =>
      simp only [hl, Option.some.injEq, Prod.mk.injEq] at h
      obtain ⟨rfl, rfl⟩ := h
      exact ⟨raw, hmem, by simp, hl ▸ hr⟩
  · rintro ⟨raw, hmem, hne, h⟩
    refine ⟨(id, raw), hmem, ?_⟩
    have he := (referrers_isReferrers definitions id raw).unique h
    cases ids with
    | nil => exact False.elim (hne rfl)
    | cons i is => simp [he]

theorem link_keys_sublist (definitions : Table Nat Location)
    (references : Table Nat (List Location)) :
    (link definitions references).keys.Sublist references.keys := by
  rw [Table.keys, link_entries, Table.keys]
  induction references.entries with
  | nil => simp
  | cons e es ih =>
    cases hl : referrers (sortedByKey definitions.entries) e.1 e.2 with
    | nil =>
      rw [List.filterMap_cons_none (by simp [hl])]
      exact ih.trans (List.sublist_cons_self _ _)
    | cons i is =>
      rw [List.filterMap_cons_some (b := (e.1, i :: is)) (by simp [hl])]
      exact ih.cons_cons e.1

theorem get?_link_iff {definitions : Table Nat Location} {references : Table Nat (List Location)}
    (hnd : references.keys.Nodup) {id : Nat} {ids : List Nat} :
    (link definitions references).get? id = some ids ↔
      ∃ raw, references.get? id = some raw ∧ ids ≠ [] ∧
        IsReferrers (winner? definitions) id raw ids := by
  rw [Table.get?_eq_some_iff (hnd.sublist (link_keys_sublist definitions references)), mem_link_iff]
  simp only [Table.get?_eq_some_iff hnd]

theorem get?_link_eq_none_iff {definitions : Table Nat Location}
    {references : Table Nat (List Location)} (hnd : references.keys.Nodup) {id : Nat} :
    (link definitions references).get? id = none ↔
      ∀ raw, references.get? id = some raw → ∀ r ∈ raw, ∀ i, winner? definitions r = some i →
        i = id := by
  constructor
  · intro hnone raw hraw r hr i hi
    by_contra hne
    have hrs := referrers_isReferrers definitions id raw
    have hmem := (hrs.mem_iff i).mpr ⟨hne, r, hr, hi⟩
    have hsome := (get?_link_iff hnd).mpr ⟨raw, hraw, List.ne_nil_of_mem hmem, hrs⟩
    simp [hsome] at hnone
  · intro h
    rw [Option.eq_none_iff_forall_ne_some]
    intro ids hids
    obtain ⟨raw, hraw, hne, hrs⟩ := (get?_link_iff hnd).mp hids
    obtain ⟨i, hi⟩ := List.exists_mem_of_ne_nil ids hne
    obtain ⟨hid, r, hr, hw⟩ := (hrs.mem_iff i).mp hi
    exact hid (h raw hraw r hr i hw)

theorem link_congr {definitions definitions' : Table Nat Location}
    (hnd : definitions.keys.Nodup) (hnd' : definitions'.keys.Nodup)
    (h : ∀ e, e ∈ definitions'.entries ↔ e ∈ definitions.entries)
    (references : Table Nat (List Location)) :
    link definitions' references = link definitions references := by
  have hs : sortedByKey definitions'.entries = sortedByKey definitions.entries :=
    sortedByKey_congr hnd' hnd h
  have he : (link definitions' references).entries = (link definitions references).entries := by
    rw [link_entries, link_entries, hs]
  exact congrArg Table.mk he

/-- The links in full. A reference has a winner exactly when some definition is around it, the
winner is innermost and is alone in that when the definitions around the reference are nested, and
it depends only on which definitions there are. The graph lists for each key of the references,
in their order, the winners other than the key, and has no key without any. -/
theorem link_exact (definitions : Table Nat Location) (references : Table Nat (List Location))
    (hdefs : definitions.keys.Nodup) (hrefs : references.keys.Nodup) :
    (∀ r, (∃ id, winner? definitions r = some id) ↔ ∃ d ∈ definitions.entries, Covers d.2 r) ∧
    (∀ r id, winner? definitions r = some id → ∃ l, IsInnermost definitions.entries r id l ∧
      (Nested definitions.entries r →
        (∀ d ∈ definitions.entries, Covers d.2 r → d.2.range.contains l.range = true) ∧
        ∀ id' l', IsInnermost definitions.entries r id' l' → id' = id)) ∧
    (∀ id ids, (link definitions references).get? id = some ids ↔
      ∃ raw, references.get? id = some raw ∧ ids ≠ [] ∧
        IsReferrers (winner? definitions) id raw ids) ∧
    (∀ id, (link definitions references).get? id = none ↔
      ∀ raw, references.get? id = some raw → ∀ r ∈ raw, ∀ i, winner? definitions r = some i →
        i = id) ∧
    (link definitions references).keys.Sublist references.keys ∧
    (∀ definitions' : Table Nat Location, definitions'.keys.Nodup →
      (∀ e, e ∈ definitions'.entries ↔ e ∈ definitions.entries) →
      (∀ r, winner? definitions' r = winner? definitions r) ∧
        link definitions' references = link definitions references) := by
  refine ⟨winner?_isSome_iff definitions, ?_, fun _ _ => get?_link_iff hrefs,
    fun _ => get?_link_eq_none_iff hrefs, link_keys_sublist definitions references, ?_⟩
  · intro r id h
    obtain ⟨l, hi⟩ := winner?_isInnermost h
    exact ⟨l, hi, fun hn => ⟨hi.inside hn, fun _ _ hi' => hi.unique hi' hn⟩⟩
  · intro definitions' hdefs' h
    exact ⟨winner?_congr hdefs hdefs' h, link_congr hdefs hdefs' h references⟩

/-- A file with two functions on one line, and a block across both that no parser would make. -/
def overlapping : Table Nat Location :=
  ⟨[(8, ⟨"a.ts", ⟨⟨0, 15⟩, ⟨0, 35⟩⟩⟩), (1, ⟨"a.ts", ⟨⟨0, 0⟩, ⟨0, 35⟩⟩⟩),
    (4, ⟨"a.ts", ⟨⟨0, 0⟩, ⟨0, 14⟩⟩⟩), (9, ⟨"a.ts", ⟨⟨0, 10⟩, ⟨0, 32⟩⟩⟩)]⟩

def callsOfFirst : Table Nat (List Location) :=
  ⟨[(4, [⟨"a.ts", ⟨⟨0, 9⟩, ⟨0, 10⟩⟩⟩, ⟨"a.ts", ⟨⟨0, 29⟩, ⟨0, 30⟩⟩⟩, ⟨"b.ts", ⟨⟨0, 0⟩, ⟨0, 1⟩⟩⟩])]⟩

theorem link_exact_overlapping :
    overlapping.keys.Nodup ∧ callsOfFirst.keys.Nodup ∧
      winner? overlapping ⟨"a.ts", ⟨⟨0, 29⟩, ⟨0, 30⟩⟩⟩ = some 8 ∧
      (∃ l, IsInnermost overlapping.entries ⟨"a.ts", ⟨⟨0, 29⟩, ⟨0, 30⟩⟩⟩ 8 l) ∧
      ∃ raw, callsOfFirst.get? 4 = some raw ∧ IsReferrers (winner? overlapping) 4 raw [8] := by
  have hdefs : overlapping.keys.Nodup := by decide
  have hrefs : callsOfFirst.keys.Nodup := by decide
  obtain ⟨-, hwinner, hgraph, -⟩ := link_exact overlapping callsOfFirst hdefs hrefs
  have hw : winner? overlapping ⟨"a.ts", ⟨⟨0, 29⟩, ⟨0, 30⟩⟩⟩ = some 8 := by decide
  obtain ⟨l, hi, -⟩ := hwinner _ _ hw
  obtain ⟨raw, hraw, -, hr⟩ := (hgraph 4 [8]).mp (by decide)
  exact ⟨hdefs, hrefs, hw, ⟨l, hi⟩, raw, hraw, hr⟩

end SourceIndex
