import SourceIndex.Proofs.LinePositions

/-! Positions without a table of lines. A scan from left to right keeps the number of lines that
have ended and the width of what came after the last of them. The table of line starts and the
search in it give the same positions, also at the end of the text and behind it. -/

namespace SourceIndex

namespace Text

def splits : Text → List (Text × Text)
  | [] => [([], [])]
  | c :: t => ([], c :: t) :: (splits t).map fun (before, after) => (c :: before, after)

/-- A line terminator ends where the text is split: LF, alone or behind CR, or CR that no LF
follows. -/
def endsLine (before after : Text) : Bool :=
  before.getLast? = some '\n' || before.getLast? = some '\r' && after.head? ≠ some '\n'

def lineEnds (t : Text) : List Nat :=
  ((splits t).filter fun (before, after) => endsLine before after).map (byteSize ·.1)

end Text

/-- The position behind a character. What comes after it tells whether a CR ends a line. -/
def Position.behind (p : Position) (c : Char) (after : Text) : Position :=
  if Text.endsLine [c] after then ⟨p.line + 1, 0⟩ else ⟨p.line, p.character + units16 c⟩

namespace Text

/-- The position between two parts of a text, found by going through the first part. -/
def scan : Position → (before after : Text) → Position
  | p, [], _ => p
  | p, c :: before, after => scan (p.behind c (before ++ after)) before after

theorem mem_splits {t before after : Text} :
    (before, after) ∈ splits t ↔ t = before ++ after := by
  induction t generalizing before with
  | nil => simp [splits, eq_comm]
  | cons c t ih =>
    simp only [splits, List.mem_cons, List.mem_map, Prod.exists, Prod.mk.injEq]
    constructor
    · rintro (⟨rfl, rfl⟩ | ⟨before, after, h, rfl, rfl⟩)
      · rfl
      · rw [ih.mp h, List.cons_append]
    · intro h
      cases before with
      | nil => exact .inl ⟨rfl, h.symm⟩
      | cons d before =>
        obtain ⟨rfl, ht⟩ := List.cons.inj h
        exact .inr ⟨before, after, ih.mpr ht, rfl, rfl⟩

theorem endsLine_nil (after : Text) : endsLine [] after = false := by simp [endsLine]

theorem endsLine_cons (c : Char) {before : Text} (h : before ≠ []) (after : Text) :
    endsLine (c :: before) after = endsLine before after := by
  obtain ⟨d, before, rfl⟩ := List.exists_cons_of_ne_nil h
  simp [endsLine]

theorem mem_lineEnds {t : Text} {offset : Nat} :
    offset ∈ lineEnds t ↔ ∃ before after, t = before ++ after ∧ endsLine before after = true ∧
      byteSize before = offset := by
  simp only [lineEnds, List.mem_map, List.mem_filter, Prod.exists, mem_splits, and_assoc]

theorem exists_splits_eq_cons (t : Text) :
    ∃ ss, splits t = ([], t) :: ss ∧ ∀ x ∈ ss, x.1 ≠ [] := by
  cases t with
  | nil => exact ⟨[], rfl, by simp⟩
  | cons c t =>
    refine ⟨_, rfl, fun x hx => ?_⟩
    obtain ⟨y, -, rfl⟩ := List.mem_map.mp hx
    exact List.cons_ne_nil _ _

theorem lineEnds_cons (c : Char) (t : Text) :
    lineEnds (c :: t) =
      (if endsLine [c] t then [c.utf8Size] else []) ++ (lineEnds t).map (c.utf8Size + ·) := by
  obtain ⟨ss, hss, hne⟩ := exists_splits_eq_cons t
  have hsize : byteSize [c] = c.utf8Size := rfl
  have hrest : (((ss.map fun x => (c :: x.1, x.2)).filter fun x => endsLine x.1 x.2).map
      (byteSize ·.1)) =
        ((ss.filter fun x => endsLine x.1 x.2).map (byteSize ·.1)).map (c.utf8Size + ·) := by
    have hfilter : ss.filter (fun x => endsLine (c :: x.1) x.2) =
        ss.filter fun x => endsLine x.1 x.2 :=
      List.filter_congr fun x hx => endsLine_cons c (hne x hx) x.2
    rw [List.filter_map, List.map_map, List.map_map]
    exact congrArg _ hfilter
  simp only [lineEnds, splits, hss, List.map_cons, List.filter_cons, endsLine_nil]
  cases endsLine [c] t <;> simp [hsize, hrest]

theorem pos_of_mem_lineEnds {t : Text} {offset : Nat} (h : offset ∈ lineEnds t) : 0 < offset := by
  obtain ⟨before, after, -, hends, rfl⟩ := mem_lineEnds.mp h
  refine Nat.pos_of_ne_zero fun hzero => ?_
  rw [byteSize_eq_zero_iff.mp hzero, endsLine_nil] at hends
  exact Bool.noConfusion hends

theorem scan_line (p : Position) (before after : Text) :
    (scan p before after).line =
      p.line + (lineEnds (before ++ after)).countP (· ≤ byteSize before) := by
  induction before generalizing p with
  | nil =>
    have hzero : (lineEnds after).countP (· ≤ 0) = 0 := by
      refine List.countP_eq_zero.mpr fun offset hoffset => ?_
      have hpos := pos_of_mem_lineEnds hoffset
      simp only [decide_eq_true_eq]
      omega
    exact congrArg (p.line + ·) hzero.symm
  | cons c before ih =>
    have hrest : ((lineEnds (before ++ after)).map (c.utf8Size + ·)).countP
        (· ≤ byteSize (c :: before)) =
          (lineEnds (before ++ after)).countP (· ≤ byteSize before) := by
      rw [List.countP_map, byteSize_cons]
      refine List.countP_congr fun offset _ => ?_
      simp
    have hfirst : c.utf8Size ≤ byteSize (c :: before) := by
      rw [byteSize_cons]
      omega
    rw [scan, ih, List.cons_append, lineEnds_cons, List.countP_append, hrest, Position.behind]
    cases endsLine [c] (before ++ after) with
    | true => simp [hfirst, Nat.add_assoc]
    | false => simp

/-- What stands behind the last line that ends in the first part: its width is what the scan has
counted, together with what it began with if no line ends there. -/
theorem exists_line_scan (p : Position) (before after : Text) :
    ∃ front line, before = front ++ line ∧
      (∀ s rest, line = s ++ rest → s ≠ [] → endsLine (front ++ s) (rest ++ after) = false) ∧
      (front = [] ∧ (scan p before after).character = p.character + width16 line ∨
        endsLine front (line ++ after) = true ∧
          (scan p before after).character = width16 line) := by
  induction before generalizing p with
  | nil => exact ⟨[], [], rfl, by simp +contextual, .inl ⟨rfl, rfl⟩⟩
  | cons c before ih =>
    obtain ⟨front, line, rfl, hline, hcharacter⟩ := ih (p.behind c (before ++ after))
    rcases hcharacter with ⟨rfl, hcharacter⟩ | ⟨hends, hcharacter⟩
    · -- no line ends behind the character, so the question is whether one ends at it
      simp only [List.nil_append] at hcharacter hline ⊢
      cases hc : endsLine [c] (line ++ after) with
      | true =>
        refine ⟨[c], line, rfl, fun s rest hs hne => ?_, .inr ⟨hc, ?_⟩⟩
        · rw [List.singleton_append, endsLine_cons c hne]
          exact hline s rest hs hne
        · rw [scan, hcharacter, Position.behind, if_pos hc, Nat.zero_add]
      | false =>
        refine ⟨[], c :: line, rfl, fun s rest hs hne => ?_, .inl ⟨rfl, ?_⟩⟩
        · cases s with
          | nil => exact absurd rfl hne
          | cons d s =>
            obtain ⟨rfl, rfl⟩ := List.cons.inj hs
            by_cases hnil : s = []
            · simpa [hnil] using hc
            · rw [List.nil_append, endsLine_cons c hnil]
              exact hline s rest rfl hnil
        · rw [scan, hcharacter, Position.behind, if_neg (by simp [hc]), width16_cons]
          exact Nat.add_assoc ..
    · have hfront : front ≠ [] := by
        rintro rfl
        simp [endsLine_nil] at hends
      refine ⟨c :: front, line, rfl, fun s rest hs hne => ?_, .inr ⟨?_, ?_⟩⟩
      · rw [List.cons_append, endsLine_cons c (by simp [hfront])]
        exact hline s rest hs hne
      · rwa [endsLine_cons c hfront]
      · rw [scan, hcharacter]

end Text

namespace LineMap

open Text

theorem startsFrom_eq (o : Nat) (t : Text) : startsFrom o t = (lineEnds t).map (o + ·) := by
  have hcons : ∀ (c : Char) (t : Text) (o : Nat), endsLine [c] t = true → c.utf8Size = 1 →
      startsFrom (o + 1) t = (lineEnds t).map (o + 1 + ·) →
      (o + 1) :: startsFrom (o + 1) t = (lineEnds (c :: t)).map (o + ·) := by
    intro c t o hc hsize ih
    rw [lineEnds_cons, if_pos hc, hsize, ih]
    simp [Nat.add_assoc]
  have hskip : ∀ (c : Char) (t : Text) (o : Nat), endsLine [c] t = false →
      startsFrom (o + c.utf8Size) t = (lineEnds t).map (o + c.utf8Size + ·) →
      startsFrom (o + c.utf8Size) t = (lineEnds (c :: t)).map (o + ·) := by
    intro c t o hc ih
    rw [lineEnds_cons, if_neg (by simp [hc]), ih]
    simp [Nat.add_assoc]
  fun_induction startsFrom o t with
  | case1 => rfl
  | case2 o t ih => exact hcons '\n' t o rfl rfl ih
  | case3 o t hlf ih => exact hskip '\r' t o (by simp [endsLine, hlf]) ih
  | case4 o t hlf ih => exact hcons '\r' t o (by simp [endsLine, hlf]) rfl ih
  | case5 o c t hlf hcr ih => exact hskip c t o (by simp_all [endsLine]) ih

theorem starts_eq (t : Text) : (build t).starts = 0 :: lineEnds t := by
  simp [build, startsFrom_eq]

theorem lineAt_eq (t : Text) (offset : Nat) :
    (build t).lineAt offset = (lineEnds t).countP (· ≤ offset) := by
  rw [lineAt_build, starts_eq, List.countP_cons_of_pos (by simp), Nat.add_sub_cancel]

theorem getElem?_countP_pred {l : List Nat} (hsorted : l.Pairwise (· < ·)) {offset s : Nat}
    (hs : s ∈ l) (hle : s ≤ offset) (hlast : ∀ x ∈ l, x ≤ offset → x ≤ s) :
    l[l.countP (· ≤ offset) - 1]? = some s := by
  induction l with
  | nil => simp at hs
  | cons a l ih =>
    obtain ⟨ha, hl⟩ := List.pairwise_cons.mp hsorted
    by_cases hmore : ∃ x ∈ l, x ≤ offset
    · obtain ⟨x, hx, hxo⟩ := hmore
      have hax := ha x hx
      have hxs := hlast x (List.mem_cons_of_mem a hx) hxo
      have hsl : s ∈ l := (List.mem_cons.mp hs).resolve_left (by omega)
      have hpos : 0 < l.countP (· ≤ offset) := List.countP_pos_iff.mpr ⟨x, hx, by simpa using hxo⟩
      obtain ⟨k, hk⟩ : ∃ k, l.countP (· ≤ offset) = k + 1 := ⟨_ - 1, (Nat.succ_pred hpos.ne').symm⟩
      have hget := ih hl hsl fun y hy => hlast y (List.mem_cons_of_mem a hy)
      rw [hk] at hget
      rw [List.countP_cons_of_pos (by simp only [decide_eq_true_eq]; omega), hk]
      exact hget
    · have hsa : s = a := (List.mem_cons.mp hs).resolve_right fun hsl => hmore ⟨s, hsl, hle⟩
      have hzero : l.countP (· ≤ offset) = 0 :=
        List.countP_eq_zero.mpr fun x hx hxo => hmore ⟨x, hx, by simpa using hxo⟩
      rw [List.countP_cons_of_pos (by simpa [← hsa] using hle), hzero, hsa]
      rfl

theorem start_eq {front line after : Text}
    (hfront : front = [] ∨ endsLine front (line ++ after) = true)
    (hline : ∀ s rest, line = s ++ rest → s ≠ [] →
      endsLine (front ++ s) (rest ++ after) = false) :
    let t := front ++ (line ++ after)
    (build t).starts[(build t).lineAt (byteSize (front ++ line))]? = some (byteSize front) := by
  intro t
  have hmem : byteSize front ∈ (build t).starts := by
    rw [starts_eq, List.mem_cons]
    rcases hfront with rfl | hends
    · exact .inl rfl
    · exact .inr (mem_lineEnds.mpr ⟨front, _, rfl, hends, rfl⟩)
  rw [lineAt_build]
  refine getElem?_countP_pred (starts_pairwise t) hmem ?_ fun x hx hle => ?_
  · rw [byteSize_append]
    omega
  · by_contra hlt
    rw [starts_eq, List.mem_cons, mem_lineEnds] at hx
    rcases hx with rfl | ⟨before, rest, ht, hends, rfl⟩
    · omega
    · -- a terminator that ended in between would be one of the line
      obtain ⟨s, rfl, hs⟩ := eq_append_of_byteSize_le ht (by omega)
      have hwhole : front ++ s ++ rest = front ++ line ++ after := by
        rw [List.append_assoc, ← hs, List.append_assoc]
      obtain ⟨s', hs', rfl⟩ := eq_append_of_byteSize_le hwhole hle
      rw [List.append_assoc, List.append_cancel_left_eq] at hs'
      have hne : s ≠ [] := by
        rintro rfl
        simp at hlt
      simp [hline s s' hs' hne] at hends

theorem position_eq_scan (before after : Text) :
    let t := before ++ after
    (build t).position t (byteSize before) = scan ⟨0, 0⟩ before after := by
  intro t
  obtain ⟨front, line, rfl, hline, hcharacter⟩ := exists_line_scan ⟨0, 0⟩ before after
  have hscan : (scan ⟨0, 0⟩ (front ++ line) after).character = width16 line := by
    rcases hcharacter with ⟨-, hcharacter⟩ | ⟨-, hcharacter⟩
    · rw [hcharacter, Nat.zero_add]
    · exact hcharacter
  have ht : t = front ++ (line ++ after) := List.append_assoc ..
  have hstart := start_eq (hcharacter.imp (·.1) (·.1)) hline
  have hcolumn : ((build t).position t (byteSize (front ++ line))).character = width16 line :=
    character_eq ht (ht ▸ hstart)
  have hlines : ((build t).position t (byteSize (front ++ line))).line =
      (scan ⟨0, 0⟩ (front ++ line) after).line := by
    rw [scan_line, Nat.zero_add]
    exact lineAt_eq t _
  exact congrArg₂ Position.mk hlines (hcolumn.trans hscan.symm)

theorem le_byteSize_of_mem_starts {t : Text} {s : Nat} (h : s ∈ (build t).starts) :
    s ≤ byteSize t := by
  obtain ⟨before, after, rfl, rfl⟩ := splitsAt_of_mem_starts h
  rw [byteSize_append]
  omega

theorem position_past_end (t : Text) (more : Nat) :
    (build t).position t (byteSize t + more) = (build t).position t (byteSize t) := by
  have hline : (build t).lineAt (byteSize t + more) = (build t).lineAt (byteSize t) := by
    have hcount : (build t).starts.countP (· ≤ byteSize t + more) =
        (build t).starts.countP (· ≤ byteSize t) := by
      refine List.countP_congr fun s hs => ?_
      have hle := le_byteSize_of_mem_starts hs
      simp only [decide_eq_true_eq]
      omega
    rw [lineAt_build, lineAt_build, hcount]
  have hstop : min (byteSize t + more) (byteSize t) = byteSize t :=
    Nat.min_eq_right (Nat.le_add_right ..)
  simp only [position, hline, hstop, Nat.min_self]

/-- Positions are those of a plain scan. The line of a place between two characters is the number of
terminators that end at it or before it, and its column is the width of what follows the last of
them, or of all that comes before it if there is none. A place behind the end is at the end. The
table of lines begins with zero and increases. -/
theorem positions_by_scan (before after : Text) :
    let t := before ++ after
    let p := (build t).position t (byteSize before)
    p = scan ⟨0, 0⟩ before after ∧
    p.line = (lineEnds t).countP (· ≤ byteSize before) ∧
    (∃ front line, before = front ++ line ∧ (front = [] ∨ endsLine front (line ++ after) = true) ∧
      (∀ s rest, line = s ++ rest → s ≠ [] → endsLine (front ++ s) (rest ++ after) = false) ∧
      p.character = width16 line) ∧
    (∀ more, (build t).position t (byteSize t + more) = (build t).position t (byteSize t)) ∧
    (build t).starts.head? = some 0 ∧ (build t).starts.Pairwise (· < ·) := by
  intro t p
  have hscan : p = scan ⟨0, 0⟩ before after := position_eq_scan before after
  refine ⟨hscan, lineAt_eq t _, ?_, position_past_end t, rfl, starts_pairwise t⟩
  obtain ⟨front, line, hbefore, hline, hcharacter⟩ := exists_line_scan ⟨0, 0⟩ before after
  refine ⟨front, line, hbefore, hcharacter.imp (·.1) (·.1), hline, ?_⟩
  rcases hcharacter with ⟨-, hcharacter⟩ | ⟨-, hcharacter⟩
  · rw [hscan, hcharacter, Nat.zero_add]
  · rw [hscan, hcharacter]

example : lineEnds "a\r\nb\r😀\n".toList = [3, 5, 10] := by decide

end LineMap

end SourceIndex
