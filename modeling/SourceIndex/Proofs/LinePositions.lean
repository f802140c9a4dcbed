import SourceIndex.Proofs.Innermost
import SourceIndex.Tree.SourceFile

/-! Positions and byte offsets order the places of a text alike. An offset between two characters
splits the text, and of two splits the later one extends the earlier one. Their positions are on
different lines, or on one line, whose start splits the text before both. -/

namespace SourceIndex

namespace Text

/-- The text falls apart at this offset. -/
def SplitsAt (t : Text) (offset : Nat) : Prop :=
  ∃ before after, t = before ++ after ∧ byteSize before = offset

theorem byteSize_cons (c : Char) (t : Text) : byteSize (c :: t) = c.utf8Size + byteSize t := rfl

theorem width16_cons (c : Char) (t : Text) : width16 (c :: t) = units16 c + width16 t := rfl

theorem byteSize_append (t u : Text) : byteSize (t ++ u) = byteSize t + byteSize u := by
  induction t with
  | nil => simp [byteSize]
  | cons c t ih => simp only [List.cons_append, byteSize_cons, ih, Nat.add_assoc]

theorem width16_append (t u : Text) : width16 (t ++ u) = width16 t + width16 u := by
  induction t with
  | nil => simp [width16]
  | cons c t ih => simp only [List.cons_append, width16_cons, ih, Nat.add_assoc]

theorem byteSize_eq_zero_iff {t : Text} : byteSize t = 0 ↔ t = [] := by
  cases t with
  | nil => simp [byteSize]
  | cons c t =>
    have hpos := c.utf8Size_pos
    rw [byteSize_cons]
    simp only [List.cons_ne_nil, iff_false]
    omega

theorem width16_pos {t : Text} (h : t ≠ []) : 0 < width16 t := by
  cases t with
  | nil => exact absurd rfl h
  | cons c t =>
    have hpos : 0 < units16 c := by
      unfold units16
      split <;> omega
    rw [width16_cons]
    omega

/-- The scans of a text stop at offset zero and otherwise take one character off. -/
theorem exists_succ_byteSize_cons (c : Char) (t : Text) :
    ∃ n, byteSize (c :: t) = n + 1 ∧ c.utf8Size ≤ n + 1 ∧ n + 1 - c.utf8Size = byteSize t := by
  have hpos := c.utf8Size_pos
  refine ⟨byteSize (c :: t) - 1, ?_, ?_, ?_⟩ <;> rw [byteSize_cons] <;> omega

theorem dropBytes?_append (before after : Text) :
    (before ++ after).dropBytes? (byteSize before) = some after := by
  induction before with
  | nil => cases after <;> rfl
  | cons c before ih =>
    obtain ⟨n, hn, hle, hrest⟩ := exists_succ_byteSize_cons c before
    rw [hn, List.cons_append, dropBytes?, if_pos hle, hrest, ih]

theorem splitsAt_iff {t : Text} {offset : Nat} :
    t.SplitsAt offset ↔ (t.dropBytes? offset).isSome = true := by
  constructor
  · rintro ⟨before, after, rfl, rfl⟩
    rw [dropBytes?_append]
    rfl
  · intro h
    fun_induction dropBytes? t offset with
    | case1 t => exact ⟨[], t, rfl, rfl⟩
    | case2 => simp at h
    | case3 c t n hle ih =>
      obtain ⟨before, after, rfl, hsize⟩ := ih h
      refine ⟨c :: before, after, rfl, ?_⟩
      rw [byteSize_cons, hsize]
      omega
    | case4 => simp at h

theorem splitsAt_byteSize (t : Text) : t.SplitsAt (byteSize t) :=
  ⟨t, [], (List.append_nil t).symm, rfl⟩

theorem slice?_append (before between after : Text) :
    slice? (before ++ (between ++ after)) (byteSize before) (byteSize (before ++ between)) =
      some between := by
  have hrest : byteSize (before ++ between) - byteSize before = byteSize between := by
    rw [byteSize_append]
    omega
  have htake : (between ++ after).takeBytes? (byteSize between) = some between := by
    simp [takeBytes?, dropBytes?_append]
  rw [slice?, if_neg (by rw [byteSize_append]; omega), dropBytes?_append, hrest]
  exact htake

theorem eq_append_of_byteSize_le {before after before' after' : Text}
    (h : before ++ after = before' ++ after') (hle : byteSize before ≤ byteSize before') :
    ∃ between, before' = before ++ between ∧ after = between ++ after' := by
  rcases List.append_eq_append_iff.mp h with ⟨between, hb, ha⟩ | ⟨excess, hb, ha⟩
  · exact ⟨between, hb, ha⟩
  · have hzero : byteSize excess = 0 := by
      rw [hb, byteSize_append] at hle
      omega
    obtain rfl := byteSize_eq_zero_iff.mp hzero
    exact ⟨[], by simpa using hb.symm, by simpa using ha.symm⟩

end Text

namespace LineMap

open Text

theorem lt_of_mem_startsFrom {o s : Nat} {t : Text} (h : s ∈ startsFrom o t) : o < s := by
  fun_induction startsFrom o t with
  | case1 => simp at h
  | case2 o t ih =>
    rcases List.mem_cons.mp h with rfl | h
    · omega
    · have := ih h
      omega
  | case3 o t hlf ih =>
    have := ih h
    omega
  | case4 o t hlf ih =>
    rcases List.mem_cons.mp h with rfl | h
    · omega
    · have := ih h
      omega
  | case5 o c t _ _ ih =>
    have := ih h
    omega

theorem startsFrom_pairwise (o : Nat) (t : Text) : (startsFrom o t).Pairwise (· < ·) := by
  fun_induction startsFrom o t with
  | case1 => exact .nil
  | case2 o t ih => exact List.pairwise_cons.mpr ⟨fun _ => lt_of_mem_startsFrom, ih⟩
  | case3 o t hlf ih => exact ih
  | case4 o t hlf ih => exact List.pairwise_cons.mpr ⟨fun _ => lt_of_mem_startsFrom, ih⟩
  | case5 o c t _ _ ih => exact ih

theorem splitsAt_of_mem_startsFrom {o s : Nat} {t : Text} (h : s ∈ startsFrom o t) :
    ∃ offset, t.SplitsAt offset ∧ s = o + offset := by
  have hcons : ∀ (c : Char) {t : Text} {o : Nat},
      (∃ offset, t.SplitsAt offset ∧ s = o + c.utf8Size + offset) →
      ∃ offset, Text.SplitsAt (c :: t) offset ∧ s = o + offset := by
    rintro c t o ⟨_, ⟨before, after, rfl, rfl⟩, rfl⟩
    exact ⟨_, ⟨c :: before, after, rfl, rfl⟩, by rw [byteSize_cons]; omega⟩
  fun_induction startsFrom o t with
  | case1 => simp at h
  | case2 o t ih =>
    apply hcons
    rcases List.mem_cons.mp h with rfl | h
    · exact ⟨0, ⟨[], t, rfl, rfl⟩, rfl⟩
    · exact ih h
  | case3 o t hlf ih => exact hcons _ (ih h)
  | case4 o t hlf ih =>
    apply hcons
    rcases List.mem_cons.mp h with rfl | h
    · exact ⟨0, ⟨[], t, rfl, rfl⟩, rfl⟩
    · exact ih h
  | case5 o c t _ _ ih => exact hcons _ (ih h)

theorem splitsAt_of_mem_starts {t : Text} {s : Nat} (h : s ∈ (build t).starts) : t.SplitsAt s := by
  rcases List.mem_cons.mp h with rfl | h
  · exact ⟨[], t, rfl, rfl⟩
  · obtain ⟨offset, hsplit, rfl⟩ := splitsAt_of_mem_startsFrom h
    rwa [Nat.zero_add]

theorem starts_pairwise (t : Text) : (build t).starts.Pairwise (· < ·) :=
  List.pairwise_cons.mpr ⟨fun _ => lt_of_mem_startsFrom, startsFrom_pairwise 0 t⟩

theorem le_iff_lt_countP {l : List Nat} (hsorted : l.Pairwise (· < ·)) (offset : Nat) {i s : Nat}
    (hi : l[i]? = some s) : s ≤ offset ↔ i < l.countP (· ≤ offset) := by
  induction l generalizing i with
  | nil => simp at hi
  | cons a l ih =>
    obtain ⟨ha, hl⟩ := List.pairwise_cons.mp hsorted
    by_cases hle : a ≤ offset
    · rw [List.countP_cons_of_pos (by simpa using hle)]
      cases i with
      | zero =>
        obtain rfl : a = s := by simpa using hi
        omega
      | succ i => exact (ih hl hi).trans (by omega)
    · -- the list goes on above the offset, so nothing is counted
      have habove : ∀ b ∈ a :: l, ¬ b ≤ offset := by
        intro b hb
        rcases List.mem_cons.mp hb with rfl | hb
        · exact hle
        · have := ha b hb
          omega
      have hzero : (a :: l).countP (· ≤ offset) = 0 :=
        List.countP_eq_zero.mpr fun b hb => by simpa using habove b hb
      have := habove s (List.mem_of_getElem? hi)
      omega

section Search

variable {l : List Nat} {m : LineMap} {offset : Nat}

/-- The last entry that is not above the offset stays in the stretch that is searched. -/
theorem narrow_eq (hsorted : l.Pairwise (· < ·)) {rounds base size : Nat}
    (hsize : size ≤ rounds + 1) (hfits : base + size ≤ l.length)
    (hfrom : base ≤ l.countP (· ≤ offset) - 1) (hto : l.countP (· ≤ offset) ≤ base + size) :
    narrow l offset rounds base size = l.countP (· ≤ offset) - 1 := by
  induction rounds generalizing base size with
  | zero =>
    rw [narrow]
    omega
  | succ rounds ih =>
    rw [narrow]
    split
    · omega
    · have hmid : l[base + size / 2]? = some l[base + size / 2] :=
        List.getElem?_eq_getElem (by omega)
      have hbelow := le_iff_lt_countP hsorted offset hmid
      simp only [hmid, Option.getD_some]
      split
      · exact ih (by omega) (by omega) hfrom (by omega)
      · exact ih (by omega) (by omega) (by omega) (by omega)

theorem search_spec (hsorted : m.starts.Pairwise (· < ·)) (offset : Nat) :
    match m.search offset with
    | .ok i => m.starts[i]? = some offset ∧ i + 1 = m.starts.countP (· ≤ offset)
    | .error i => offset ∉ m.starts ∧ i = m.starts.countP (· ≤ offset) := by
  have hcount : m.starts.countP (· ≤ offset) ≤ m.starts.length := List.countP_le_length
  have hbase : narrow m.starts offset m.starts.length 0 m.starts.length =
      m.starts.countP (· ≤ offset) - 1 :=
    narrow_eq hsorted (Nat.le_succ _) (Nat.zero_add _).le (Nat.zero_le _) (by omega)
  rw [search, hbase]
  cases hget : m.starts[m.starts.countP (· ≤ offset) - 1]? with
  | none =>
    have hempty : m.starts = [] := List.eq_nil_of_length_eq_zero (by
      have := List.getElem?_eq_none_iff.mp hget
      omega)
    simp [hempty]
  | some start =>
    have hle := le_iff_lt_countP hsorted offset hget
    have habsent (hne : start ≠ offset) : offset ∉ m.starts := by
      intro hmem
      obtain ⟨i, hi⟩ := List.mem_iff_getElem?.mp hmem
      have hlt := (le_iff_lt_countP hsorted offset hi).mp le_rfl
      -- were the offset further to the front, the last entry counted would be above it
      have hlast : i ≠ m.starts.countP (· ≤ offset) - 1 := by
        rintro rfl
        exact hne (Option.some.inj (hget.symm.trans hi))
      obtain ⟨hin, rfl⟩ := List.getElem?_eq_some_iff.mp hi
      obtain ⟨hin', rfl⟩ := List.getElem?_eq_some_iff.mp hget
      have := List.pairwise_iff_getElem.mp hsorted i _ hin hin' (by omega)
      omega
    simp only
    split_ifs with heq hlt
    · subst heq
      exact ⟨hget, by omega⟩
    · exact ⟨habsent heq, by omega⟩
    · exact ⟨habsent heq, by omega⟩

theorem lineAt_eq_countP (hsorted : m.starts.Pairwise (· < ·)) :
    m.lineAt offset = m.starts.countP (· ≤ offset) - 1 := by
  have hspec := search_spec hsorted offset
  rw [lineAt]
  cases hsearch : m.search offset with
  | ok i =>
    rw [hsearch] at hspec
    exact Nat.eq_sub_of_add_eq hspec.2
  | error i =>
    rw [hsearch] at hspec
    exact congrArg (· - 1) hspec.2

end Search

theorem lineAt_build (t : Text) (offset : Nat) :
    (build t).lineAt offset = (build t).starts.countP (· ≤ offset) - 1 :=
  lineAt_eq_countP (starts_pairwise t)

/-- The line of an offset starts at a split of the text, at the offset or before it. -/
theorem start_spec (t : Text) (offset : Nat) :
    ∃ s, (build t).starts[(build t).lineAt offset]? = some s ∧ s ≤ offset ∧ t.SplitsAt s := by
  have hpos : 0 < (build t).starts.countP (· ≤ offset) :=
    List.countP_pos_iff.mpr ⟨0, by simp [build], by simp⟩
  have hlt : (build t).lineAt offset < (build t).starts.countP (· ≤ offset) := by
    rw [lineAt_build]
    omega
  have hget := List.getElem?_eq_getElem (hlt.trans_le List.countP_le_length)
  exact ⟨_, hget, (le_iff_lt_countP (starts_pairwise t) offset hget).mpr hlt,
    splitsAt_of_mem_starts (List.mem_of_getElem? hget)⟩

theorem lineAt_mono {a b : Nat} (h : a ≤ b) (t : Text) :
    (build t).lineAt a ≤ (build t).lineAt b := by
  have hcount : (build t).starts.countP (· ≤ a) ≤ (build t).starts.countP (· ≤ b) := by
    refine List.countP_mono_left fun s _ hs => ?_
    simp only [decide_eq_true_eq] at hs ⊢
    omega
  rw [lineAt_build, lineAt_build]
  omega

/-- The column of a place is the width of what stands before it on its line. -/
theorem character_eq {t front line after : Text} (ht : t = front ++ (line ++ after))
    (hstart : (build t).starts[(build t).lineAt (byteSize (front ++ line))]? =
      some (byteSize front)) :
    ((build t).position t (byteSize (front ++ line))).character = width16 line := by
  have hstop : min (byteSize (front ++ line)) (byteSize t) = byteSize (front ++ line) := by
    rw [ht, ← List.append_assoc, byteSize_append (front ++ line)]
    omega
  have hfront : min (byteSize front) (byteSize (front ++ line)) = byteSize front := by
    rw [byteSize_append]
    omega
  have hslice : t.slice? (byteSize front) (byteSize (front ++ line)) = some line := by
    rw [ht, slice?_append]
  simp only [position, hstart, Option.getD_some, hstop, hfront, hslice]

theorem position_lt {t : Text} {a b : Nat} (ha : t.SplitsAt a) (hb : t.SplitsAt b) (hlt : a < b) :
    ((build t).position t b).le ((build t).position t a) = false := by
  have hline : ((build t).position t a).line ≤ ((build t).position t b).line :=
    lineAt_mono hlt.le t
  rw [← Bool.not_eq_true, Position.le_iff, not_or]
  refine ⟨by omega, ?_⟩
  rintro ⟨hsame, hcharacter⟩
  obtain ⟨_, hstart, hle, front, rest, hfront, rfl⟩ := start_spec t a
  obtain ⟨before, after, hbefore, rfl⟩ := ha
  obtain ⟨line, rfl, hrest⟩ := eq_append_of_byteSize_le (hfront.symm.trans hbefore) hle
  obtain ⟨before', after', hbefore', rfl⟩ := hb
  obtain ⟨between, rfl, hafter⟩ :=
    eq_append_of_byteSize_le (hbefore.symm.trans hbefore') hlt.le
  have hstart' : (build t).starts[(build t).lineAt (byteSize (front ++ (line ++ between)))]? =
      some (byteSize front) := by
    have hlines : (build t).lineAt (byteSize (front ++ line ++ between)) =
        (build t).lineAt (byteSize (front ++ line)) := hsame
    rw [← List.append_assoc, hlines]
    exact hstart
  have hne : between ≠ [] := by
    rintro rfl
    simp at hlt
  have hcolumn : ((build t).position t (byteSize (front ++ line))).character = width16 line :=
    character_eq (by rw [hfront, hrest]) hstart
  have hsplit : t = front ++ (line ++ between ++ after') := by
    rw [hfront, hrest, hafter, List.append_assoc]
  have hcolumn' := character_eq hsplit hstart'
  rw [← List.append_assoc, width16_append] at hcolumn'
  have hwidth := width16_pos hne
  omega

/-- Positions are ordered as the offsets are. -/
theorem position_le_iff {t : Text} {a b : Nat} (ha : t.SplitsAt a) (hb : t.SplitsAt b) :
    ((build t).position t a).le ((build t).position t b) = true ↔ a ≤ b := by
  constructor
  · intro hle
    by_contra hlt
    rw [position_lt hb ha (by omega)] at hle
    exact Bool.noConfusion hle
  · intro hle
    rcases Nat.lt_or_eq_of_le hle with hlt | rfl
    · have hgt := position_lt ha hb hlt
      rw [← Bool.not_eq_true, Position.le_iff] at hgt
      rw [Position.le_iff]
      omega
    · exact Position.le_refl _

theorem range_contains_iff {t : Text} {start stop start' stop' : Nat} (hstart : t.SplitsAt start)
    (hstop : t.SplitsAt stop) (hstart' : t.SplitsAt start') (hstop' : t.SplitsAt stop') :
    ((build t).range t start stop).contains ((build t).range t start' stop') = true ↔
      start ≤ start' ∧ stop' ≤ stop := by
  rw [Range.contains_iff]
  exact and_congr (position_le_iff hstart hstart') (position_le_iff hstop' hstop)

theorem position_zero (t : Text) : (build t).position t 0 = ⟨0, 0⟩ := by
  have hcount : (startsFrom 0 t).countP (· ≤ 0) = 0 := by
    rw [List.countP_eq_zero]
    intro s hs
    have := lt_of_mem_startsFrom hs
    simp only [decide_eq_true_eq]
    omega
  have hline : (build t).lineAt 0 = 0 := by
    rw [lineAt_build, build, List.countP_cons_of_pos (by simp), hcount]
  have hcolumn : ((build t).position t (byteSize ([] ++ []))).character = width16 [] :=
    character_eq (show t = [] ++ ([] ++ t) from rfl)
      (by rw [List.nil_append]; exact congrArg _ hline)
  exact congrArg₂ Position.mk hline hcolumn

end LineMap

end SourceIndex
