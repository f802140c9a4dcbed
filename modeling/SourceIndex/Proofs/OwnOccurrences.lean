import Mathlib.Logic.Relation
import SourceIndex.Proofs.Linkage

/-! Occurrences of a declaration inside itself. A reference that is attributed to the declaration it
refers to says nothing about other places and is left out. The scan takes the lowest id of several
scopes with one range, so an occurrence inside a declaration is still attributed to another scope
when that one was opened earlier and has the same range. -/

namespace SourceIndex

section Scan

variable {es lower higher : List (Nat × Location)} {r l : Location} {id : Nat}

theorem foldl_narrow_stays {current : Range}
    (h : ∀ e ∈ es, Covers e.2 r → current.contains e.2.range = true → e.2.range = current) :
    es.foldl (narrow r) (some (id, current)) = some (id, current) := by
  induction es with
  | nil => rfl
  | cons e es ih =>
    obtain ⟨id', l'⟩ := e
    have hrest := ih fun e he => h e (by simp [he])
    have hstep : narrow r (some (id, current)) (id', l') = some (id, current) := by
      by_cases hcovers : Covers l' r
      · rw [narrow_some hcovers, if_neg]
        rintro ⟨hne, hin⟩
        exact hne (h (id', l') (by simp) hcovers hin).symm
      · exact narrow_of_not_covers hcovers id' _
    rw [List.foldl_cons, hstep, hrest]

theorem foldl_narrow_id (es : List (Nat × Location)) (r : Location)
    (choice : Option (Nat × Range)) :
    (es.foldl (narrow r) choice).map (·.1) = choice.map (·.1) ∨
      ∃ e ∈ es, (es.foldl (narrow r) choice).map (·.1) = some e.1 := by
  induction es generalizing choice with
  | nil => exact .inl rfl
  | cons e es ih =>
    have hstep : (narrow r choice e).map (·.1) = choice.map (·.1) ∨
        (narrow r choice e).map (·.1) = some e.1 := by
      by_cases hcovers : Covers e.2 r
      · cases choice with
        | none => exact .inr (by rw [narrow_none hcovers]; rfl)
        | some c =>
          rw [narrow_some hcovers]
          split
          · exact .inr rfl
          · exact .inl rfl
      · rw [narrow_of_not_covers hcovers]
        exact .inl rfl
    rw [List.foldl_cons]
    rcases ih (narrow r choice e) with hrest | ⟨e', he', hrest⟩
    · rcases hstep with hstep | hstep
      · exact .inl (hrest.trans hstep)
      · exact .inr ⟨e, by simp, hrest.trans hstep⟩
    · exact .inr ⟨e', by simp [he'], hrest⟩

theorem eq_of_mem_sorted (hsorted : es.Pairwise (fun a b => a.1 < b.1)) {a b : Nat × Location}
    (ha : a ∈ es) (hb : b ∈ es) (heq : a.1 = b.1) : a = b := by
  have hnodup : (es.map (·.1)).Nodup :=
    List.pairwise_map.mpr (hsorted.imp fun hlt => Nat.ne_of_lt hlt)
  exact List.inj_on_of_nodup_map hnodup ha hb heq

theorem innermost?_split (lower higher : List (Nat × Location)) (id : Nat) (l r : Location) :
    innermost? (lower ++ (id, l) :: higher) r =
      (higher.foldl (narrow r) (narrow r (lower.foldl (narrow r) none) (id, l))).map (·.1) := by
  rw [innermost?, List.foldl_append, List.foldl_cons]

section Split

variable (hsorted : (lower ++ (id, l) :: higher).Pairwise (fun a b => a.1 < b.1)) (hl : Covers l r)

include hsorted

theorem lt_of_mem_lower {e : Nat × Location} (he : e ∈ lower) : e.1 < id :=
  (List.pairwise_append.mp hsorted).2.2 e he (id, l) (by simp)

theorem lower_chosen : Chosen lower r (lower.foldl (narrow r) none) :=
  scan_chosen r ((List.pairwise_append.mp hsorted).1.imp fun hlt => Nat.le_of_lt hlt)

theorem isInnermost_of_wins (hwin : innermost? (lower ++ (id, l) :: higher) r = some id) :
    IsInnermost (lower ++ (id, l) :: higher) r id l := by
  have hle : (lower ++ (id, l) :: higher).Pairwise (fun a b => a.1 ≤ b.1) :=
    hsorted.imp fun hlt => Nat.le_of_lt hlt
  rcases innermost?_spec (r := r) hle with ⟨hnone, -⟩ | ⟨id', l', hsome, hin⟩
  · simp [hnone] at hwin
  · obtain rfl := Option.some.inj (hsome.symm.trans hwin)
    have hmem : (id', l) ∈ lower ++ (id', l) :: higher := by simp
    rw [(Prod.mk.inj (eq_of_mem_sorted hsorted hin.mem hmem rfl)).2] at hin
    exact hin

include hl

theorem contains_of_wins (hwin : innermost? (lower ++ (id, l) :: higher) r = some id)
    {e : Nat × Location} (he : e ∈ lower) (hbefore : innermost? lower r = some e.1) :
    e.2.range.contains l.range = true := by
  cases hchoice : lower.foldl (narrow r) none with
  | none => simp [innermost?, hchoice] at hbefore
  | some c =>
    have hchosen := lower_chosen (r := r) hsorted
    rw [hchoice] at hchosen
    have hid : c.1 = e.1 := by simpa [innermost?, hchoice] using hbefore
    have heq : (c.1, (⟨r.file, c.2⟩ : Location)) = e :=
      eq_of_mem_sorted (List.pairwise_append.mp hsorted).1 hchosen.mem he hid
    subst heq
    -- otherwise the earlier choice is kept, and this definition is not looked at again
    by_contra hnot
    have hstep : narrow r (some c) (id, l) = some c := by
      rw [narrow_some hl, if_neg fun h => hnot h.2]
    rw [innermost?_split, hchoice, hstep] at hwin
    rcases foldl_narrow_id higher r (some c) with hsame | ⟨e', he', hsame⟩
    · have hlt := lt_of_mem_lower hsorted he
      have hsame' : c.1 = id := Option.some.inj (hsame.symm.trans hwin)
      omega
    · have hlt := (List.pairwise_cons.mp (List.pairwise_append.mp hsorted).2.1).1 e' he'
      have hsame' := Option.some.inj (hsame.symm.trans hwin)
      omega

/-- When the scan ends with this definition: it is innermost, and the choice made before it was
looked at lies around it. -/
theorem innermost?_eq_some_iff :
    innermost? (lower ++ (id, l) :: higher) r = some id ↔
      IsInnermost (lower ++ (id, l) :: higher) r id l ∧
        ∀ e ∈ lower, innermost? lower r = some e.1 → e.2.range.contains l.range = true := by
  constructor
  · intro hwin
    exact ⟨isInnermost_of_wins hsorted hwin,
      fun e he hbefore => contains_of_wins hsorted hl hwin he hbefore⟩
  · rintro ⟨hin, hbefore⟩
    have hstep : narrow r (lower.foldl (narrow r) none) (id, l) = some (id, l.range) := by
      have hchosen := lower_chosen (r := r) hsorted
      cases hchoice : lower.foldl (narrow r) none with
      | none => exact narrow_none hl id
      | some c =>
        rw [hchoice] at hchosen
        have hmem : (c.1, (⟨r.file, c.2⟩ : Location)) ∈ lower := hchosen.mem
        have hinside := hbefore _ hmem (by rw [innermost?, hchoice]; rfl)
        rw [narrow_some hl, if_pos]
        refine ⟨fun heq => ?_, hinside⟩
        have hlowest := hin.lowest _ (List.mem_append_left _ hmem) rfl heq
        have hlt := lt_of_mem_lower hsorted hmem
        omega
    rw [innermost?_split, hstep, foldl_narrow_stays]
    · rfl
    · intro e he
      exact hin.minimal e (List.mem_append_right _ (List.mem_cons_of_mem _ he))

end Split

end Scan

/-- A declaration opened at another node below the one at which the scope was opened. -/
def Scope.IsBelow (e d : Scope) : Prop :=
  e.isDeclaration = true ∧ e.context.fileId = d.context.fileId ∧ e.site ≠ d.site ∧
    Relation.TransGen (fun parent child =>
      child ∈ (d.context.file.arena.children parent).map some) d.site e.site

namespace Project

variable {p : Project} {d : Scope} {r : Reference}

/-- The scope that a reference adds to those that refer to a declaration, if it adds any. -/
def adds? (p : Project) (d : Scope) (r : Reference) : Option Nat :=
  (winner? p.recorded.definitions (d.context.locate r)).filter (· ≠ d.id)

/-- The scope to which a place is attributed among those that were opened before an id. -/
def winnerBefore? (p : Project) (id : Nat) (l : Location) : Option Nat :=
  innermost? ((p.scopes.filter (·.id < id)).map fun o => (o.id, o.place)) l

theorem adds?_eq_some_iff {i : Nat} :
    p.adds? d r = some i ↔
      winner? p.recorded.definitions (d.context.locate r) = some i ∧ i ≠ d.id := by
  simp [adds?, Option.filter_eq_some_iff]

theorem eq_of_mem_references (hd : d ∈ p.scopes) {raw : List Location}
    (h : (d.id, raw) ∈ p.recorded.references.entries) : raw = d.references := by
  rw [(recorded_registers p).references] at h
  obtain ⟨o, ho, heq⟩ := List.mem_map.mp h
  have hnodup : (p.scopes.map (·.id)).Nodup :=
    (recorded_registers p).increasing.imp fun hlt => Nat.ne_of_lt hlt
  have hsame : o = d :=
    List.inj_on_of_nodup_map hnodup (List.mem_of_mem_filter ho) hd (Prod.mk.inj heq).1
  rw [← (Prod.mk.inj heq).2, hsame]

theorem mem_references (hd : d ∈ p.scopes) (hdecl : d.isDeclaration = true) :
    (d.id, d.references) ∈ p.recorded.references.entries := by
  rw [(recorded_registers p).references]
  exact List.mem_map_of_mem (List.mem_filter.mpr ⟨hd, hdecl⟩)

theorem mem_referrers_iff {ids : List Nat}
    (h : IsReferrers (winner? p.recorded.definitions) d.id d.references ids) (i : Nat) :
    i ∈ ids ↔ ∃ r ∈ d.answers, p.adds? d r = some i := by
  rw [h.mem_iff]
  simp only [adds?_eq_some_iff, Scope.references, List.mem_map]
  constructor
  · rintro ⟨hne, _, ⟨r, hr, rfl⟩, hwin⟩
    exact ⟨r, hr, hwin, hne⟩
  · rintro ⟨r, hr, hwin, hne⟩
    exact ⟨hne, _, ⟨r, hr, rfl⟩, hwin⟩

/-- What stands in the links of a declaration is what its references add. -/
theorem mem_graph_iff (hd : d ∈ p.scopes) (hdecl : d.isDeclaration = true) :
    ((∃ ids, (d.id, ids) ∈ p.graph.entries) ↔ ∃ r ∈ d.answers, (p.adds? d r).isSome) ∧
      ∀ ids, (d.id, ids) ∈ p.graph.entries → ∀ i, i ∈ ids ↔
        ∃ r ∈ d.answers, p.adds? d r = some i := by
  have hlinked : ∀ ids, (d.id, ids) ∈ p.graph.entries →
      ids ≠ [] ∧ IsReferrers (winner? p.recorded.definitions) d.id d.references ids := by
    intro ids hids
    obtain ⟨raw, hraw, hne, hreferrers⟩ := mem_link_iff.mp hids
    rw [eq_of_mem_references hd hraw] at hreferrers
    exact ⟨hne, hreferrers⟩
  refine ⟨⟨?_, ?_⟩, fun ids hids => mem_referrers_iff (hlinked ids hids).2⟩
  · rintro ⟨ids, hids⟩
    obtain ⟨hne, hreferrers⟩ := hlinked ids hids
    obtain ⟨i, hi⟩ := List.exists_mem_of_ne_nil ids hne
    obtain ⟨r, hr, hadds⟩ := (mem_referrers_iff hreferrers i).mp hi
    exact ⟨r, hr, by rw [hadds]; rfl⟩
  · rintro ⟨r, hr, hadds⟩
    obtain ⟨i, hi⟩ := Option.isSome_iff_exists.mp hadds
    have hreferrers := referrers_isReferrers p.recorded.definitions d.id d.references
    have hmem := (mem_referrers_iff hreferrers i).mpr ⟨r, hr, hi⟩
    exact ⟨_, mem_link_iff.mpr
      ⟨d.references, mem_references hd hdecl, List.ne_nil_of_mem hmem, hreferrers⟩⟩

theorem scopes_split (hd : d ∈ p.scopes) :
    ∃ after, p.scopes = p.scopes.filter (·.id < d.id) ++ d :: after := by
  obtain ⟨before, after, hsplit⟩ := List.append_of_mem hd
  have hincreasing := (recorded_registers p).increasing
  rw [hsplit, List.pairwise_map, List.pairwise_append, List.pairwise_cons] at hincreasing
  obtain ⟨-, ⟨hafter, -⟩, hbefore⟩ := hincreasing
  have hfilter : p.scopes.filter (·.id < d.id) = before := by
    rw [hsplit, List.filter_append, List.filter_eq_self.mpr, List.filter_eq_nil_iff.mpr,
      List.append_nil]
    · intro o ho
      rcases List.mem_cons.mp ho with rfl | ho
      · simp
      · have hlt := hafter o ho
        simp only [decide_eq_true_eq]
        omega
    · intro o ho
      simpa using hbefore o ho d (by simp)
  exact ⟨after, by rw [hfilter, hsplit]⟩

theorem adds?_eq_none_iff_winner? (hd : d ∈ p.scopes) (hin : Covers d.place (d.context.locate r)) :
    p.adds? d r = none ↔ winner? p.recorded.definitions (d.context.locate r) = some d.id := by
  have hmem : (d.id, d.place) ∈ p.recorded.definitions.entries := by
    rw [(recorded_registers p).definitions]
    exact List.mem_map_of_mem hd
  obtain ⟨i, hi⟩ := (winner?_isSome_iff p.recorded.definitions (d.context.locate r)).mpr
    ⟨_, hmem, hin⟩
  rw [adds?, hi, Option.filter_some]
  by_cases hself : i = d.id
  · simp [hself]
  · simp [hself]

theorem isInnermost_iff (hd : d ∈ p.scopes) {l : Location} (hin : Covers d.place l) :
    IsInnermost (p.scopes.map fun o => (o.id, o.place)) l d.id d.place ↔
      ∀ e ∈ p.scopes, Covers e.place l → d.place.range.contains e.place.range = true →
        e.place.range = d.place.range ∧ d.id ≤ e.id := by
  constructor
  · intro h e he hcovers hinside
    have hmem := List.mem_map_of_mem (f := fun o : Scope => (o.id, o.place)) he
    have hrange := h.minimal _ hmem hcovers hinside
    exact ⟨hrange, h.lowest _ hmem hcovers.1 hrange⟩
  · intro h
    refine ⟨List.mem_map_of_mem hd, hin, fun x hx => ?_, fun x hx hfile hrange => ?_⟩
    · obtain ⟨e, he, rfl⟩ := List.mem_map.mp hx
      exact fun hcovers hinside => (h e he hcovers hinside).1
    · obtain ⟨e, he, rfl⟩ := List.mem_map.mp hx
      have hrange' : e.place.range = d.place.range := hrange
      have hcovers : Covers e.place l := ⟨hfile, by rw [hrange']; exact hin.2⟩
      exact (h e he hcovers (by rw [hrange']; exact Range.contains_refl _)).2

/-- When an occurrence of a declaration inside its own range adds nothing: no scope around it lies
inside the declaration, unless at the same place and opened later, and the one that would be chosen
among the scopes opened earlier lies around the declaration. -/
theorem adds?_eq_none_iff (hd : d ∈ p.scopes) (hin : Covers d.place (d.context.locate r)) :
    p.adds? d r = none ↔
      (∀ e ∈ p.scopes, Covers e.place (d.context.locate r) →
        d.place.range.contains e.place.range = true →
        e.place.range = d.place.range ∧ d.id ≤ e.id) ∧
      ∀ e ∈ p.scopes, e.id < d.id → p.winnerBefore? d.id (d.context.locate r) = some e.id →
        e.place.range.contains d.place.range = true := by
  obtain ⟨after, hsplit⟩ := scopes_split hd
  have hsorted : (p.scopes.map fun o => (o.id, o.place)).Pairwise (fun a b => a.1 < b.1) :=
    List.pairwise_map.mpr (List.pairwise_map.mp (recorded_registers p).increasing)
  rw [adds?_eq_none_iff_winner? hd hin, winner?_recorded, ← isInnermost_iff hd hin]
  have hmap : (p.scopes.map fun o => (o.id, o.place)) =
      (p.scopes.filter (·.id < d.id)).map (fun o => (o.id, o.place)) ++
        (d.id, d.place) :: after.map fun o => (o.id, o.place) := by
    conv_lhs => rw [hsplit]
    rw [List.map_append, List.map_cons]
  rw [hmap] at hsorted ⊢
  rw [innermost?_eq_some_iff hsorted hin]
  refine and_congr_right fun _ => ⟨fun h e he hlt hwin => ?_, fun h x hx hwin => ?_⟩
  · exact h _ (List.mem_map_of_mem (List.mem_filter.mpr ⟨he, by simpa using hlt⟩)) hwin
  · obtain ⟨e, he, rfl⟩ := List.mem_map.mp hx
    obtain ⟨he, hlt⟩ := List.mem_filter.mp he
    exact h e he (by simpa using hlt) hwin

/-- The declaration is said to be referred to at a place inside its own range, and no declaration
below it has that place in its range. -/
structure OwnOccurrence (p : Project) (d : Scope) (r : Reference) : Prop where
  mem : d ∈ p.scopes
  isDeclaration : d.isDeclaration = true
  answered : r ∈ d.answers
  inside : Covers d.place (d.context.locate r)
  notBelow : ∀ e ∈ p.scopes, e.IsBelow d → ¬ Covers e.place (d.context.locate r)

/-- What the references to a declaration add is what the written links say. An occurrence of its own
adds nothing exactly if no other scope around it lies inside the declaration, unless at the same
place and opened later, and if the scope that would be chosen among those opened earlier lies around
the declaration. The scopes around the declaration were opened earlier. -/
theorem own_occurrence_adds_none_iff (h : p.OwnOccurrence d r) :
    p.WritesLinks p.graph ∧
    (∀ i, p.adds? d r = some i → ∃ ids, (d.id, ids) ∈ p.graph.entries ∧ i ∈ ids) ∧
    (∀ ids, (d.id, ids) ∈ p.graph.entries → ∀ i ∈ ids, ∃ r' ∈ d.answers, p.adds? d r' = some i) ∧
    (p.adds? d r = none ↔
      (∀ e ∈ p.scopes, ¬ e.IsBelow d → Covers e.place (d.context.locate r) →
        d.place.range.contains e.place.range = true →
        e.place.range = d.place.range ∧ d.id ≤ e.id) ∧
      ∀ e ∈ p.scopes, e.id < d.id → p.winnerBefore? d.id (d.context.locate r) = some e.id →
        e.place.range.contains d.place.range = true) ∧
    ∀ id ∈ d.around, id < d.id := by
  obtain ⟨hlinked, hids⟩ := mem_graph_iff h.mem h.isDeclaration
  refine ⟨writesLinks p, fun i hi => ?_, fun ids hmem i hi => (hids ids hmem i).mp hi, ?_,
    (recorded_registers p).around d h.mem⟩
  · obtain ⟨ids, hmem⟩ := hlinked.mpr ⟨r, h.answered, by rw [hi]; rfl⟩
    exact ⟨ids, hmem, (hids ids hmem i).mpr ⟨r, h.answered, hi⟩⟩
  · rw [adds?_eq_none_iff h.mem h.inside]
    refine and_congr_left fun _ => ⟨fun hall e he _ => hall e he, fun hall e he hcovers => ?_⟩
    exact hall e he (fun hbelow => h.notBelow e he hbelow hcovers) hcovers

/-- A class over the first nine bytes of a file of this size, and before it in the tree another one
over other bytes. -/
def twoClassFile (size start stop : Nat) : SourceFile where
  name := "a.ts"
  text := "class A{}".toList ++ List.replicate (size - 9) ' '
  arena := Arena.empty
    |>.add .identifier 6 7 (.identifier "A")
    |>.add .classDeclaration 0 9 (.declaration (.classLike none (some 0) none none []))
    |>.add .identifier stop stop (.identifier "B")
    |>.add .classDeclaration start stop (.declaration (.classLike none (some 2) none none []))
    |>.add .sourceFile 0 size (.sourceFile [some 3, some 1] "a.ts" .ts false)
  root := some 4

/-- The first class is referred to by its own name, and that is all. -/
def twoClasses (size start stop : Nat) : Project where
  program := ⟨#[twoClassFile size start stop]⟩
  options := {}
  collaborators := { Collaborators.none with
    references := fun _ offset => .ok (if offset = 6 then [⟨"a.ts", 6, 1⟩] else []) }

theorem twoClassFile_below {size start stop : Nat} {b : NodeRef}
    (h : Relation.TransGen (fun parent child =>
      child ∈ ((twoClassFile size start stop).arena.children parent).map some) (some 1) b) :
    b = some 0 := by
  induction h with
  | single h => exact List.mem_singleton.mp h
  | tail _ h ih =>
    subst ih
    exact absurd h List.not_mem_nil

/-- No declaration is opened at a name, so none is below the class. -/
theorem twoClasses_ownOccurrence {size start stop : Nat} {d : Scope}
    (hd : d ∈ (twoClasses size start stop).scopes) (hdecl : d.isDeclaration = true)
    (hsite : d.site = some 1) (hr : r ∈ d.answers) (hin : Covers d.place (d.context.locate r))
    (hsites : ∀ e ∈ (twoClasses size start stop).scopes, e.site ≠ some 0) :
    (twoClasses size start stop).OwnOccurrence d r := by
  refine ⟨hd, hdecl, hr, hin, fun e he hbelow => ?_⟩
  obtain ⟨⟨_, file, hfile, hcontext⟩, -⟩ := scope_spec hd
  have hsame : file = twoClassFile size start stop := List.mem_singleton.mp hfile
  obtain ⟨-, -, -, hpath⟩ := hbelow
  rw [hcontext, hsite, hsame] at hpath
  exact absurd (twoClassFile_below hpath) (hsites e he)

/-- Another class elsewhere makes no difference to the first one. -/
theorem twoClasses_own_name_adds_none :
    ∃ d r, (twoClasses 12 9 12).OwnOccurrence d r ∧ (twoClasses 12 9 12).adds? d r = none := by
  let name : Reference := ⟨"a.ts", 6, 1⟩
  obtain ⟨d, hd, hdecl, hsite, hr, hin, hinside, hbefore⟩ : ∃ d ∈ (twoClasses 12 9 12).scopes,
      d.isDeclaration = true ∧ d.site = some 1 ∧ name ∈ d.answers ∧
      Covers d.place (d.context.locate name) ∧
      (∀ e ∈ (twoClasses 12 9 12).scopes, Covers e.place (d.context.locate name) →
        d.place.range.contains e.place.range = true →
        e.place.range = d.place.range ∧ d.id ≤ e.id) ∧
      ∀ e ∈ (twoClasses 12 9 12).scopes, e.id < d.id →
        (twoClasses 12 9 12).winnerBefore? d.id (d.context.locate name) = some e.id →
        e.place.range.contains d.place.range = true := by
    decide +kernel
  have hown : (twoClasses 12 9 12).OwnOccurrence d name :=
    twoClasses_ownOccurrence hd hdecl hsite hr hin (by decide +kernel)
  obtain ⟨-, -, -, hnone, -⟩ := own_occurrence_adds_none_iff hown
  exact ⟨d, name, hown, hnone.mpr ⟨fun e he _ => hinside e he, hbefore⟩⟩

/-- An occurrence of a declaration of its own stands in the links as a reference from elsewhere. -/
def CountsOwnOccurrence (p : Project) : Prop :=
  ∃ d r i ids, p.OwnOccurrence d r ∧ p.adds? d r = some i ∧ (d.id, ids) ∈ p.graph.entries ∧ i ∈ ids

theorem twoClasses_counts {size start stop : Nat} (name : Reference)
    (h : ∃ d ∈ (twoClasses size start stop).scopes, d.isDeclaration = true ∧ d.site = some 1 ∧
      name ∈ d.answers ∧ Covers d.place (d.context.locate name) ∧
      ((twoClasses size start stop).adds? d name).isSome)
    (hsites : ∀ e ∈ (twoClasses size start stop).scopes, e.site ≠ some 0) :
    (twoClasses size start stop).CountsOwnOccurrence := by
  obtain ⟨d, hd, hdecl, hsite, hr, hin, hadds⟩ := h
  obtain ⟨hlinked, hids⟩ := mem_graph_iff hd hdecl
  obtain ⟨i, hi⟩ := Option.isSome_iff_exists.mp hadds
  obtain ⟨ids, hmem⟩ := hlinked.mpr ⟨name, hr, hadds⟩
  exact ⟨d, name, i, ids, twoClasses_ownOccurrence hd hdecl hsite hr hin hsites, hi, hmem,
    (hids ids hmem i).mpr ⟨name, hr, hi⟩⟩

/-- The name of a class that takes up its whole file is attributed to the file, and a class that
lies inside the first one or across its end, although it is not below it, takes the name as well. -/
theorem own_name_counts_from_elsewhere :
    (twoClasses 9 9 9).CountsOwnOccurrence ∧ (twoClasses 12 5 8).CountsOwnOccurrence ∧
      (twoClasses 12 6 12).CountsOwnOccurrence := by
  refine ⟨twoClasses_counts ⟨"a.ts", 6, 1⟩ ?_ ?_, twoClasses_counts ⟨"a.ts", 6, 1⟩ ?_ ?_,
    twoClasses_counts ⟨"a.ts", 6, 1⟩ ?_ ?_⟩
  all_goals decide +kernel

end Project

end SourceIndex
