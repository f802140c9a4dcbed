import SourceIndex.Link
import SourceIndex.Proofs.Sorting

/-! The definition that a reference is attributed to. Containment of ranges is a partial order, and
the scan over the definitions sorted by id is greedy: a definition replaces the choice only when it
lies strictly inside. The choice is nevertheless minimal among all definitions around the reference,
because whatever was passed over lies inside no later choice. -/

namespace SourceIndex

theorem Position.le_iff {a b : Position} :
    a.le b = true ↔ a.line < b.line ∨ (a.line = b.line ∧ a.character ≤ b.character) := by
  simp [Position.le]

theorem Position.le_refl (a : Position) : a.le a = true := by simp [Position.le_iff]

theorem Position.le_trans {a b c : Position} (hab : a.le b = true) (hbc : b.le c = true) :
    a.le c = true := by
  rw [Position.le_iff] at hab hbc ⊢
  omega

theorem Position.le_antisymm {a b : Position} (hab : a.le b = true) (hba : b.le a = true) :
    a = b := by
  rw [Position.le_iff] at hab hba
  obtain ⟨line, character⟩ := a
  obtain ⟨line', character'⟩ := b
  simp only [Position.mk.injEq] at hab hba ⊢
  omega

namespace Range

theorem contains_iff {a b : Range} :
    a.contains b = true ↔ a.start.le b.start = true ∧ b.stop.le a.stop = true := by
  simp [contains]

theorem contains_refl (a : Range) : a.contains a = true :=
  contains_iff.mpr ⟨Position.le_refl _, Position.le_refl _⟩

theorem contains_trans {a b c : Range} (hab : a.contains b = true) (hbc : b.contains c = true) :
    a.contains c = true := by
  rw [contains_iff] at hab hbc ⊢
  exact ⟨Position.le_trans hab.1 hbc.1, Position.le_trans hbc.2 hab.2⟩

theorem contains_antisymm {a b : Range} (hab : a.contains b = true) (hba : b.contains a = true) :
    a = b := by
  rw [contains_iff] at hab hba
  obtain ⟨start, stop⟩ := a
  obtain ⟨start', stop'⟩ := b
  simp only [mk.injEq] at hab hba ⊢
  exact ⟨Position.le_antisymm hab.1 hba.1, Position.le_antisymm hba.2 hab.2⟩

end Range

/-- A place around another one, in the same file. -/
def Covers (outer inner : Location) : Prop :=
  outer.file = inner.file ∧ outer.range.contains inner.range = true

instance (outer inner : Location) : Decidable (Covers outer inner) :=
  inferInstanceAs (Decidable (_ ∧ _))

/-- No definition around the reference lies strictly inside this one, and of the definitions at the
same place this one has the lowest id. -/
structure IsInnermost (definitions : List (Nat × Location)) (r : Location) (id : Nat)
    (l : Location) : Prop where
  mem : (id, l) ∈ definitions
  covers : Covers l r
  minimal : ∀ d ∈ definitions, Covers d.2 r → l.range.contains d.2.range = true →
    d.2.range = l.range
  lowest : ∀ d ∈ definitions, d.2.file = r.file → d.2.range = l.range → id ≤ d.1

/-- What the scan knows after the definitions seen so far. -/
def Chosen (seen : List (Nat × Location)) (r : Location) : Option (Nat × Range) → Prop
  | none => ∀ d ∈ seen, ¬ Covers d.2 r
  | some (id, range) => IsInnermost seen r id ⟨r.file, range⟩

theorem IsInnermost.skip {seen : List (Nat × Location)} {r l : Location} {id : Nat}
    {d : Nat × Location} (h : IsInnermost seen r id l)
    (hminimal : Covers d.2 r → l.range.contains d.2.range = true → d.2.range = l.range)
    (hlowest : d.2.file = r.file → d.2.range = l.range → id ≤ d.1) :
    IsInnermost (seen ++ [d]) r id l where
  mem := List.mem_append_left _ h.mem
  covers := h.covers
  minimal e he := by
    rcases List.mem_append.mp he with he | he
    · exact h.minimal e he
    · rw [List.mem_singleton.mp he]
      exact hminimal
  lowest e he := by
    rcases List.mem_append.mp he with he | he
    · exact h.lowest e he
    · rw [List.mem_singleton.mp he]
      exact hlowest

/-- A definition strictly inside the choice becomes the choice. Had one of those seen before been
inside the new one, it would have been inside the old one too. -/
theorem IsInnermost.replace {seen : List (Nat × Location)} {r l : Location} {id : Nat}
    {d : Nat × Location} (h : IsInnermost seen r id l) (hd : Covers d.2 r)
    (hne : l.range ≠ d.2.range) (hin : l.range.contains d.2.range = true) :
    IsInnermost (seen ++ [d]) r d.1 d.2 where
  mem := by simp
  covers := hd
  minimal e he hc hde := by
    rcases List.mem_append.mp he with he | he
    · have hle := h.minimal e he hc (Range.contains_trans hin hde)
      rw [hle] at hde
      exact False.elim (hne (Range.contains_antisymm hin hde))
    · rw [List.mem_singleton.mp he]
  lowest e he hfile hrange := by
    rcases List.mem_append.mp he with he | he
    · have hc : Covers e.2 r := ⟨hfile, by rw [hrange]; exact hd.2⟩
      have hle := h.minimal e he hc (by rw [hrange]; exact hin)
      exact False.elim (hne (hle.symm.trans hrange))
    · rw [List.mem_singleton.mp he]

theorem isInnermost_first {seen : List (Nat × Location)} {r : Location} {d : Nat × Location}
    (h : ∀ e ∈ seen, ¬ Covers e.2 r) (hd : Covers d.2 r) :
    IsInnermost (seen ++ [d]) r d.1 d.2 where
  mem := by simp
  covers := hd
  minimal e he hc _ := by
    rcases List.mem_append.mp he with he | he
    · exact False.elim (h e he hc)
    · rw [List.mem_singleton.mp he]
  lowest e he hfile hrange := by
    rcases List.mem_append.mp he with he | he
    · exact False.elim (h e he ⟨hfile, by rw [hrange]; exact hd.2⟩)
    · rw [List.mem_singleton.mp he]

theorem narrow_none {r l : Location} (h : Covers l r) (id : Nat) :
    narrow r none (id, l) = some (id, l.range) := by
  simp [narrow, h.1, h.2]

theorem narrow_some {r l : Location} (h : Covers l r) (id id' : Nat) (current : Range) :
    narrow r (some (id', current)) (id, l) =
      if current ≠ l.range ∧ current.contains l.range = true then some (id, l.range)
      else some (id', current) := by
  simp only [narrow, h.1, h.2, decide_true, Bool.and_self, if_true, Bool.and_eq_true,
    decide_eq_true_eq]

theorem narrow_of_not_covers {r l : Location} (h : ¬ Covers l r) (id : Nat)
    (choice : Option (Nat × Range)) : narrow r choice (id, l) = choice := by
  have hne : ¬ (l.file = r.file ∧ l.range.contains r.range = true) := h
  simp [narrow, hne]

theorem narrow_chosen {seen : List (Nat × Location)} {r : Location} {choice : Option (Nat × Range)}
    {d : Nat × Location} (h : Chosen seen r choice) (hsorted : ∀ e ∈ seen, e.1 ≤ d.1) :
    Chosen (seen ++ [d]) r (narrow r choice d) := by
  by_cases hd : Covers d.2 r
  · have hloc : (⟨r.file, d.2.range⟩ : Location) = d.2 := by rw [← hd.1]
    cases choice with
    | none =>
      rw [narrow_none hd, Chosen, hloc]
      exact isInnermost_first h hd
    | some c =>
      obtain ⟨id, current⟩ := c
      have hi : IsInnermost seen r id ⟨r.file, current⟩ := h
      rw [narrow_some hd]
      split
      · next hin =>
        rw [Chosen, hloc]
        exact hi.replace hd hin.1 hin.2
      · next hin =>
        refine hi.skip (fun _ hc => ?_) (fun _ _ => hsorted _ hi.mem)
        by_contra hne
        exact hin ⟨fun he => hne he.symm, hc⟩
  · rw [narrow_of_not_covers hd]
    cases choice with
    | none =>
      intro e he
      rcases List.mem_append.mp he with he | he
      · exact h e he
      · rw [List.mem_singleton.mp he]
        exact hd
    | some c =>
      have hi : IsInnermost seen r c.1 ⟨r.file, c.2⟩ := h
      refine hi.skip (fun hc => False.elim (hd hc)) (fun hfile hrange => ?_)
      exact False.elim (hd ⟨hfile, by rw [hrange]; exact hi.covers.2⟩)

theorem foldl_narrow_chosen (es seen : List (Nat × Location)) (r : Location)
    (choice : Option (Nat × Range)) (h : Chosen seen r choice)
    (hsorted : (seen ++ es).Pairwise (fun a b => a.1 ≤ b.1)) :
    Chosen (seen ++ es) r (es.foldl (narrow r) choice) := by
  induction es generalizing seen choice with
  | nil => simpa using h
  | cons d es ih =>
    have hs : (seen ++ [d] ++ es).Pairwise (fun a b => a.1 ≤ b.1) := by simpa using hsorted
    have hd : ∀ e ∈ seen, e.1 ≤ d.1 :=
      fun e he => (List.pairwise_append.mp hsorted).2.2 e he d (by simp)
    simpa using ih (seen ++ [d]) (narrow r choice d) (narrow_chosen h hd) hs

theorem scan_chosen {es : List (Nat × Location)} (r : Location)
    (hsorted : es.Pairwise (fun a b => a.1 ≤ b.1)) : Chosen es r (es.foldl (narrow r) none) := by
  have h := foldl_narrow_chosen es [] r none (by simp [Chosen]) (by simpa using hsorted)
  rwa [List.nil_append] at h

theorem innermost?_spec {es : List (Nat × Location)} {r : Location}
    (hsorted : es.Pairwise (fun a b => a.1 ≤ b.1)) :
    (innermost? es r = none ∧ ∀ d ∈ es, ¬ Covers d.2 r) ∨
      ∃ id l, innermost? es r = some id ∧ IsInnermost es r id l := by
  have h := scan_chosen r hsorted
  cases hf : es.foldl (narrow r) none with
  | none =>
    rw [hf] at h
    exact .inl ⟨by simp [innermost?, hf], h⟩
  | some c =>
    rw [hf] at h
    exact .inr ⟨c.1, ⟨r.file, c.2⟩, by simp [innermost?, hf], h⟩

end SourceIndex
