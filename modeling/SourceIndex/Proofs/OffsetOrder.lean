import SourceIndex.Proofs.LineScan

/-! The order of offsets and the order of their positions. Between characters the two are the same,
so ranges contain one another as the spans of bytes do. An offset inside a character is placed at
the start of its line, before whatever stands on that line in front of it; behind the end of the
text all offsets are placed alike. -/

namespace SourceIndex

theorem Position.compare_eq_lt_iff {a b : Position} :
    a.compare b = .lt ↔ a.line < b.line ∨ (a.line = b.line ∧ a.character < b.character) := by
  simp only [Position.compare, Ordering.then_eq_lt, Nat.compare_eq_lt, Nat.compare_eq_eq]

namespace Text

/-- The offset falls behind the first byte of a character and before its end. -/
def InsideChar (t : Text) (offset : Nat) : Prop :=
  ∃ before c after, t = before ++ c :: after ∧ byteSize before < offset ∧
    offset < byteSize before + c.utf8Size

variable {t : Text} {offset : Nat}

theorem InsideChar.lt_byteSize (h : t.InsideChar offset) : offset < byteSize t := by
  obtain ⟨before, c, after, rfl, -, hlt⟩ := h
  rw [byteSize_append, byteSize_cons]
  omega

theorem InsideChar.cons (c : Char) (h : t.InsideChar offset) :
    InsideChar (c :: t) (c.utf8Size + offset) := by
  obtain ⟨before, d, after, rfl, hlt, hlt'⟩ := h
  refine ⟨c :: before, d, after, rfl, ?_, ?_⟩
  · rw [byteSize_cons]
    omega
  · rw [byteSize_cons]
    omega

theorem splitsAt_or_insideChar (h : offset ≤ byteSize t) :
    t.SplitsAt offset ∨ t.InsideChar offset := by
  induction t generalizing offset with
  | nil =>
    have hzero : offset = 0 := Nat.le_zero.mp h
    exact .inl ⟨[], [], rfl, hzero.symm⟩
  | cons c t ih =>
    by_cases hfirst : offset < c.utf8Size
    · by_cases hzero : offset = 0
      · exact .inl ⟨[], c :: t, rfl, hzero.symm⟩
      · refine .inr ⟨[], c, t, rfl, Nat.pos_of_ne_zero hzero, ?_⟩
        show offset < 0 + c.utf8Size
        omega
    · rw [byteSize_cons] at h
      have hoffset : c.utf8Size + (offset - c.utf8Size) = offset := by omega
      rcases ih (show offset - c.utf8Size ≤ byteSize t by omega) with hsplit | hinside
      · obtain ⟨before, after, rfl, hsize⟩ := hsplit
        refine .inl ⟨c :: before, after, rfl, ?_⟩
        rw [byteSize_cons, hsize, hoffset]
      · have hcons := hinside.cons c
        rw [hoffset] at hcons
        exact .inr hcons

theorem InsideChar.not_splitsAt (h : t.InsideChar offset) : ¬ t.SplitsAt offset := by
  obtain ⟨before, c, after, rfl, hlt, hlt'⟩ := h
  rintro ⟨front, rest, hsplit, rfl⟩
  -- what comes before the split begins with what comes before the character, and has to go on
  obtain ⟨between, rfl, hrest⟩ := eq_append_of_byteSize_le hsplit hlt.le
  rw [byteSize_append] at hlt hlt'
  cases between with
  | nil => simp [byteSize] at hlt
  | cons d between =>
    obtain ⟨rfl, -⟩ := List.cons.inj hrest
    rw [byteSize_cons] at hlt'
    omega

theorem insideChar_iff : t.InsideChar offset ↔ offset ≤ byteSize t ∧ ¬ t.SplitsAt offset :=
  ⟨fun h => ⟨h.lt_byteSize.le, h.not_splitsAt⟩,
    fun h => (splitsAt_or_insideChar h.1).resolve_left h.2⟩

theorem InsideChar.of_append {front rest : Text} (h : InsideChar (front ++ rest) offset)
    (hle : byteSize front ≤ offset) : rest.InsideChar (offset - byteSize front) := by
  rw [insideChar_iff, byteSize_append] at h
  refine insideChar_iff.mpr ⟨by omega, ?_⟩
  rintro ⟨before, after, rfl, hsize⟩
  apply h.2
  refine ⟨front ++ before, after, (List.append_assoc ..).symm, ?_⟩
  rw [byteSize_append]
  omega

theorem InsideChar.takeBytes? (h : t.InsideChar offset) : t.takeBytes? offset = none := by
  have hdrop : t.dropBytes? offset = none := by
    rw [← Option.not_isSome_iff_eq_none, ← splitsAt_iff]
    exact h.not_splitsAt
  rw [Text.takeBytes?, hdrop, Option.map_none]

end Text

namespace LineMap

open Text

variable {t : Text} {a b : Nat}

theorem position_inj (ha : t.SplitsAt a) (hb : t.SplitsAt b) :
    (build t).position t a = (build t).position t b ↔ a = b := by
  constructor
  · intro h
    have hab := (position_le_iff ha hb).mp (h ▸ Position.le_refl _)
    have hba := (position_le_iff hb ha).mp (h ▸ Position.le_refl _)
    omega
  · rintro rfl
    rfl

/-- Between characters, positions follow one another as the offsets do, and ranges contain one
another and are the same as the spans do and are. -/
theorem positions_embed_offsets (t : Text) :
    (∀ a b, t.SplitsAt a → t.SplitsAt b → a < b →
      ((build t).position t a).compare ((build t).position t b) = .lt) ∧
    ∀ start stop start' stop', t.SplitsAt start → t.SplitsAt stop → t.SplitsAt start' →
      t.SplitsAt stop' →
      (((build t).range t start stop).contains ((build t).range t start' stop') = true ↔
        start ≤ start' ∧ stop' ≤ stop) ∧
      ((build t).range t start stop = (build t).range t start' stop' ↔
        start = start' ∧ stop = stop') := by
  constructor
  · intro a b ha hb hlt
    have hnot := position_lt ha hb hlt
    rw [← Bool.not_eq_true, Position.le_iff] at hnot
    rw [Position.compare_eq_lt_iff]
    omega
  · intro start stop start' stop' hstart hstop hstart' hstop'
    refine ⟨range_contains_iff hstart hstop hstart' hstop', ?_⟩
    rw [range, range, Range.mk.injEq]
    exact and_congr (position_inj hstart hstart') (position_inj hstop hstop')

/-- A line end of two characters, with an offset between them, and a character of two units. -/
theorem windowsLine_embedded :
    Text.SplitsAt ['\r', '\n', '😀'] 1 ∧ Text.SplitsAt ['\r', '\n', '😀'] 6 ∧
      ((build ['\r', '\n', '😀']).position ['\r', '\n', '😀'] 1).compare
        ((build ['\r', '\n', '😀']).position ['\r', '\n', '😀'] 6) = .lt ∧
      ((build ['\r', '\n', '😀']).range ['\r', '\n', '😀'] 1 6).contains
        ((build ['\r', '\n', '😀']).range ['\r', '\n', '😀'] 1 1) = true := by
  have hinner : Text.SplitsAt ['\r', '\n', '😀'] 1 := ⟨['\r'], ['\n', '😀'], rfl, rfl⟩
  have hend : Text.SplitsAt ['\r', '\n', '😀'] 6 := ⟨['\r', '\n', '😀'], [], rfl, rfl⟩
  obtain ⟨hlt, hranges⟩ := positions_embed_offsets ['\r', '\n', '😀']
  refine ⟨hinner, hend, hlt 1 6 hinner hend (by decide), ?_⟩
  exact (hranges 1 6 1 1 hinner hend hinner hinner).1.mpr (by decide)

theorem countP_le_lt_iff {l : List Nat} (h : a ≤ b) :
    l.countP (· ≤ a) < l.countP (· ≤ b) ↔ ∃ s ∈ l, a < s ∧ s ≤ b := by
  have hmono : ∀ l : List Nat, l.countP (· ≤ a) ≤ l.countP (· ≤ b) := fun l =>
    List.countP_mono_left fun s _ hs => by
      simp only [decide_eq_true_eq] at hs ⊢
      omega
  induction l with
  | nil => simp
  | cons s l ih =>
    have hl := hmono l
    simp only [List.countP_cons, List.mem_cons, exists_eq_or_imp, ← ih, decide_eq_true_eq]
    by_cases hsa : s ≤ a
    · rw [if_pos hsa, if_pos (by omega)]
      omega
    · by_cases hsb : s ≤ b
      · rw [if_neg hsa, if_pos hsb]
        omega
      · rw [if_neg hsa, if_neg hsb]
        omega

theorem lineAt_lt_iff (h : a ≤ b) :
    (build t).lineAt a < (build t).lineAt b ↔ ∃ s ∈ (build t).starts, a < s ∧ s ≤ b := by
  rw [lineAt_eq, lineAt_eq, countP_le_lt_iff h, starts_eq]
  simp

theorem character_eq_zero_iff (ha : t.SplitsAt a) :
    ((build t).position t a).character = 0 ↔ a ∈ (build t).starts := by
  constructor
  · intro hzero
    obtain ⟨_, hstart, hle, front, rest, hfront, rfl⟩ := start_spec t a
    obtain ⟨before, after, hbefore, rfl⟩ := ha
    obtain ⟨line, rfl, hrest⟩ := eq_append_of_byteSize_le (hfront.symm.trans hbefore) hle
    have hcolumn := character_eq (by rw [hfront, hrest]) hstart
    have hnil : line = [] := by
      by_contra hne
      have hpos := width16_pos hne
      omega
    rw [hnil, List.append_nil] at hstart ⊢
    exact List.mem_of_getElem? hstart
  · intro hmem
    have hstart := getElem?_countP_pred (starts_pairwise t) hmem le_rfl fun _ _ hle => hle
    obtain ⟨front, after, ht, rfl⟩ := ha
    -- the place is behind an empty stretch of its line
    have hcolumn : ((build t).position t (byteSize (front ++ []))).character = width16 [] :=
      character_eq ht (by rw [List.append_nil, lineAt_build]; exact hstart)
    rw [List.append_nil] at hcolumn
    exact hcolumn

theorem position_of_insideChar (h : t.InsideChar a) :
    (build t).position t a = ⟨(build t).lineAt a, 0⟩ := by
  obtain ⟨_, hstart, hle, front, rest, ht, rfl⟩ := start_spec t a
  have hdrop : t.dropBytes? (byteSize front) = some rest := by
    conv_lhs => rw [ht]
    exact dropBytes?_append front rest
  have hinside : rest.InsideChar (a - byteSize front) := (ht ▸ h).of_append hle
  have hslice : t.slice? (byteSize front) a = none := by
    rw [slice?, if_neg (Nat.not_lt.mpr hle), hdrop, Option.bind_some, hinside.takeBytes?]
  simp only [position, hstart, Option.getD_some, Nat.min_eq_left h.lt_byteSize.le,
    Nat.min_eq_left hle, hslice, Option.getD_none]
  rfl

/-- Every offset has the position of one that is in the text. -/
theorem position_min (t : Text) (a : Nat) :
    (build t).position t (min a (byteSize t)) = (build t).position t a := by
  by_cases h : a ≤ byteSize t
  · rw [Nat.min_eq_left h]
  · obtain ⟨more, rfl⟩ := Nat.exists_eq_add_of_le (Nat.le_of_not_le h)
    rw [Nat.min_eq_right (by omega), position_past_end]

theorem splitsAt_min (h : ¬ t.InsideChar a) : t.SplitsAt (min a (byteSize t)) := by
  by_cases hle : a ≤ byteSize t
  · rw [Nat.min_eq_left hle]
    exact (splitsAt_or_insideChar hle).resolve_right h
  · rw [Nat.min_eq_right (by omega)]
    exact splitsAt_byteSize t

/-- The start of its line is where an offset inside a character is placed, so only what stands there
or on a line before is not after it. -/
theorem position_le_insideChar_iff (ha : t.SplitsAt a) (hb : t.InsideChar b) (h : a ≤ b) :
    ((build t).position t a).le ((build t).position t b) = true ↔
      ∃ s ∈ (build t).starts, a ≤ s ∧ s ≤ b := by
  have hline : (build t).lineAt a ≤ (build t).lineAt b := lineAt_mono h t
  have hearlier := lineAt_lt_iff (t := t) h
  have hstart := character_eq_zero_iff ha
  rw [position_of_insideChar hb, Position.le_iff]
  show (build t).lineAt a < (build t).lineAt b ∨ (build t).lineAt a = (build t).lineAt b ∧ _ ↔ _
  rw [Nat.le_zero, hstart, hearlier]
  constructor
  · rintro (⟨s, hs, hlt, hle⟩ | ⟨-, hmem⟩)
    · exact ⟨s, hs, hlt.le, hle⟩
    · exact ⟨a, hmem, le_rfl, h⟩
  · rintro ⟨s, hs, hle, hle'⟩
    by_cases hlt : a < s
    · exact .inl ⟨s, hs, hlt, hle'⟩
    · obtain rfl : a = s := by omega
      by_cases hsame : (build t).lineAt a = (build t).lineAt b
      · exact .inr ⟨hsame, hs⟩
      · exact .inl (hearlier.mp (by omega))

/-- Where the order of offsets is kept and where it is lost: an offset inside a character is placed
at the start of its line, so before an earlier one, unless that one is inside a character as well or
a line starts at it or between the two. -/
theorem position_le_iff_of_le {t : Text} {a b : Nat} (h : a ≤ b) :
    (((build t).position t a).le ((build t).position t b) = true ↔
      ¬ t.InsideChar b ∨ t.InsideChar a ∨ ∃ s ∈ (build t).starts, a ≤ s ∧ s ≤ b) ∧
    (t.InsideChar b → (build t).position t b = ⟨(build t).lineAt b, 0⟩) := by
  refine ⟨?_, position_of_insideChar⟩
  by_cases ha : t.InsideChar a
  · have hline : (build t).lineAt a ≤ (build t).lineAt b := lineAt_mono h t
    have hle : ((build t).position t a).le ((build t).position t b) = true := by
      rw [position_of_insideChar ha, Position.le_iff]
      rcases Nat.lt_or_eq_of_le hline with hlt | heq
      · exact .inl hlt
      · exact .inr ⟨heq, Nat.zero_le _⟩
    simp only [hle, ha, true_or, or_true]
  by_cases hb : t.InsideChar b
  · have hsplit : t.SplitsAt a :=
      (splitsAt_or_insideChar (h.trans hb.lt_byteSize.le)).resolve_right ha
    simp only [position_le_insideChar_iff hsplit hb h, ha, hb, not_true_eq_false, false_or]
  · have hle : ((build t).position t a).le ((build t).position t b) = true := by
      rw [← position_min t a, ← position_min t b]
      exact (position_le_iff (splitsAt_min ha) (splitsAt_min hb)).mpr (by omega)
    simp only [hle, hb, not_false_eq_true, true_or]

/-- Two lines, of which the second starts with a character of two bytes. -/
theorem accentedLine_ordered :
    1 ≤ 2 ∧ Text.InsideChar ['\n', 'é'] 2 ∧
      ((build ['\n', 'é']).position ['\n', 'é'] 1).le ((build ['\n', 'é']).position ['\n', 'é'] 2) =
        true ∧
      (build ['\n', 'é']).position ['\n', 'é'] 2 = ⟨1, 0⟩ := by
  have hinside : Text.InsideChar ['\n', 'é'] 2 := ⟨['\n'], 'é', [], rfl, by decide, by decide⟩
  obtain ⟨hiff, hplace⟩ := position_le_iff_of_le (t := ['\n', 'é']) (a := 1) (b := 2) (by decide)
  refine ⟨by decide, hinside, ?_, (hplace hinside).trans (by decide)⟩
  exact hiff.mpr (.inr (.inr ⟨1, by decide, by decide, by decide⟩))

theorem position_not_monotone :
    ¬ ∀ (t : Text) (a b : Nat), a ≤ b →
      ((build t).position t a).le ((build t).position t b) = true := by
  intro h
  have hle := h ['a', 'é'] 1 2 (by decide)
  revert hle
  decide

end LineMap

end SourceIndex
