import SourceIndex.Proofs.Accounts
import Std.Data.TreeSet.Lemmas

/-! Components and those around them. What is met inside a component is met in one stretch inside
each component around it, so the enclosing one has all its tokens, in one piece and in order, and
none of its counts is smaller. -/

namespace SourceIndex

namespace Event

def operator? : Event → Option String
  | operator token => some token
  | _ => none

def operand? : Event → Option String
  | operand token => some token
  | _ => none

end Event

namespace Walk

variable {α : Type} {w : Walk α} {x : Noted α × Walk α}

theorem operators_eq (w : Walk α) : w.operators = w.events.filterMap Event.operator? := by
  induction w with
  | done => rfl
  | operator token rest ih => rw [operators, ih]; rfl
  | operand token rest ih => rw [operators, ih]; rfl
  | node index n note inside rest ih ih' =>
    rw [operators, ih, ih', events, List.filterMap_cons, List.filterMap_append]
    rfl

theorem operands_eq (w : Walk α) : w.operands = w.events.filterMap Event.operand? := by
  induction w with
  | done => rfl
  | operator token rest ih => rw [operands, ih]; rfl
  | operand token rest ih => rw [operands, ih]; rfl
  | node index n note inside rest ih ih' =>
    rw [operands, ih, ih', events, List.filterMap_cons, List.filterMap_append]
    rfl

/-- What is met inside a node is met in one stretch, from entering it to leaving it. -/
theorem events_of_mem_spans (h : x ∈ w.spans) :
    ∃ before after, w.events =
      before ++ .enter x.1.index x.1.node :: (x.2.events ++ .leave :: after) := by
  induction w with
  | done => simp [spans] at h
  | operator token rest ih =>
    obtain ⟨before, after, hevents⟩ := ih h
    exact ⟨.operator token :: before, after, by rw [events, hevents, List.cons_append]⟩
  | operand token rest ih =>
    obtain ⟨before, after, hevents⟩ := ih h
    exact ⟨.operand token :: before, after, by rw [events, hevents, List.cons_append]⟩
  | node index n note inside rest ih ih' =>
    rw [spans, List.mem_append, List.mem_append, List.mem_map] at h
    rcases h with ⟨a, -, rfl⟩ | h | h
    · exact ⟨[], rest.events, rfl⟩
    · obtain ⟨before, after, hevents⟩ := ih h
      refine ⟨.enter index n :: before, after ++ .leave :: rest.events, ?_⟩
      simp [events, hevents]
    · obtain ⟨before, after, hevents⟩ := ih' h
      refine ⟨.enter index n :: (inside.events ++ .leave :: before), after, ?_⟩
      simp [events, hevents]

theorem mem_spans_of_mem_children (h : x ∈ w.children) : x ∈ w.spans := by
  rw [spans_eq]
  exact List.mem_flatMap.mpr ⟨x, h, List.mem_cons_self⟩

theorem mem_spans_trans {y : Noted α × Walk α} (h : y ∈ w.spans) (h' : x ∈ y.2.spans) :
    x ∈ w.spans := by
  induction w with
  | done => simp [spans] at h
  | operator token rest ih => exact ih h
  | operand token rest ih => exact ih h
  | node index n note inside rest ih ih' =>
    rw [spans, List.mem_append, List.mem_append] at h ⊢
    rcases h with h | h | h
    · obtain ⟨a, -, rfl⟩ := List.mem_map.mp h
      exact .inr (.inl h')
    · exact .inr (.inl (ih h))
    · exact .inr (.inr (ih' h))

def Apart (es first second : List Event) : Prop :=
  ∃ before between after, es = before ++ (first ++ (between ++ (second ++ after)))

theorem children_apart (w : Walk α) :
    w.children.Pairwise fun x y => Apart w.events x.2.events y.2.events := by
  induction w with
  | done => exact .nil
  | operator token rest ih =>
    refine ih.imp fun ⟨before, between, after, hevents⟩ => ?_
    exact ⟨.operator token :: before, between, after, by rw [events, hevents, List.cons_append]⟩
  | operand token rest ih =>
    refine ih.imp fun ⟨before, between, after, hevents⟩ => ?_
    exact ⟨.operand token :: before, between, after, by rw [events, hevents, List.cons_append]⟩
  | node index n note inside rest ih ih' =>
    have hrest : rest.children.Pairwise fun x y =>
        Apart (node index n note inside rest).events x.2.events y.2.events := by
      refine ih'.imp fun ⟨before, between, after, hevents⟩ => ?_
      refine ⟨.enter index n :: (inside.events ++ .leave :: before), between, after, ?_⟩
      simp [events, hevents]
    have hlater : ∀ y ∈ rest.children, ∃ before after,
        rest.events = before ++ (y.2.events ++ after) := by
      intro y hy
      obtain ⟨before, after, hevents⟩ := events_of_mem_spans (mem_spans_of_mem_children hy)
      exact ⟨before ++ [.enter y.1.index y.1.node], .leave :: after, by simp [hevents]⟩
    rw [children]
    refine List.pairwise_append.mpr ⟨?_, hrest, fun x hx y hy => ?_⟩
    · cases note with
      | some a => exact List.pairwise_singleton _ _
      | none =>
        refine ih.imp fun ⟨before, between, after, hevents⟩ => ?_
        refine ⟨.enter index n :: before, between, after ++ .leave :: rest.events, ?_⟩
        simp [events, hevents]
    · obtain ⟨before', after', hevents'⟩ := hlater y hy
      cases note with
      | some a =>
        obtain rfl : x = (⟨index, n, a⟩, inside) := List.mem_singleton.mp hx
        exact ⟨[.enter index n], .leave :: before', after', by simp [events, hevents']⟩
      | none =>
        obtain ⟨before, after, hevents⟩ := events_of_mem_spans (mem_spans_of_mem_children hx)
        refine ⟨.enter index n :: (before ++ [.enter x.1.index x.1.node]),
          .leave :: (after ++ .leave :: before'), after', ?_⟩
        simp [events, hevents, hevents']

/-- The components with what is met inside them, that of the document first. -/
def blocks (document : Nat) (w : Walk Opened) : List (Nat × Walk Opened) :=
  (document, w) :: w.spans.map fun x => (x.1.note.id, x.2)

/-- Each declaration with the innermost component around it. -/
def enclosures (document : Nat) (w : Walk Opened) : List (Nat × Nat) :=
  (w.blocks document).flatMap fun b => b.2.children.map fun x => (x.1.note.id, b.1)

/-- Every declaration has exactly one innermost component around it. -/
theorem enclosures_perm (document : Nat) (w : Walk Opened) :
    ((w.enclosures document).map (·.1)).Perm w.ids := by
  have hchildren : (w.enclosures document).map (·.1) =
      (w.children ++ w.spans.flatMap fun x => x.2.children).map (·.1.note.id) := by
    simp [enclosures, blocks, List.flatMap_map, List.map_flatMap, Function.comp_def]
  have hperm : (w.children ++ w.spans.flatMap fun x => x.2.children).Perm w.spans := by
    clear hchildren
    induction w with
    | done => exact .nil
    | operator token rest ih => exact ih
    | operand token rest ih => exact ih
    | node index n note inside rest ih ih' =>
      have hboth := ih.append ih'
      cases note with
      | none =>
        simp only [children, spans, Option.elim_none, Option.toList_none, List.map_nil,
          List.nil_append, List.flatMap_append]
        refine List.Perm.trans ?_ hboth
        rw [List.append_assoc, List.append_assoc]
        refine List.Perm.append_left _ ?_
        rw [← List.append_assoc, ← List.append_assoc]
        exact List.perm_append_comm.append_right _
      | some a =>
        simp only [children, spans, Option.elim_some, Option.toList_some, List.map_cons,
          List.map_nil, List.nil_append, List.flatMap_cons, List.flatMap_append, List.cons_append]
        refine List.Perm.cons _ (List.Perm.trans ?_ hboth)
        rw [← List.append_assoc inside.children, ← List.append_assoc rest.children,
          ← List.append_assoc _ rest.children]
        exact List.perm_append_comm.append_right _
  rw [hchildren]
  simpa [ids, noted, Function.comp_def] using hperm.map (·.1.note.id)

end Walk

namespace Metrics

structure AtMost (m m' : Metrics) : Prop where
  operandsTotal : m.operandsTotal ≤ m'.operandsTotal
  operandsDistinct : m.operandsDistinct ≤ m'.operandsDistinct
  operatorsTotal : m.operatorsTotal ≤ m'.operatorsTotal
  operatorsDistinct : m.operatorsDistinct ≤ m'.operatorsDistinct
  vocabulary : m.vocabulary ≤ m'.vocabulary
  length : m.length ≤ m'.length
  volume : m.volume ≤ m'.volume

end Metrics

namespace Tokens

theorem distinct_le {as bs : List String} (h : as ⊆ bs) :
    (Std.TreeSet.ofList as).size ≤ (Std.TreeSet.ofList bs).size := by
  rw [← Std.TreeSet.length_toList, ← Std.TreeSet.length_toList]
  have hnodup : (Std.TreeSet.ofList as).toList.Nodup :=
    Std.TreeSet.distinct_toList.imp fun hne heq => hne (Std.LawfulEqCmp.compare_eq_iff_eq.mpr heq)
  refine (List.subperm_of_subset hnodup fun a ha => ?_).length_le
  rw [Std.TreeSet.mem_toList, Std.TreeSet.mem_ofList, List.contains_iff_mem] at ha ⊢
  exact h ha

theorem metrics_atMost {t t' : Tokens} (hoperators : t.operators.toList <:+: t'.operators.toList)
    (hoperands : t.operands.toList <:+: t'.operands.toList) : t.metrics.AtMost t'.metrics := by
  have hop : t.operators.size ≤ t'.operators.size := hoperators.length_le
  have hod : t.operands.size ≤ t'.operands.size := hoperands.length_le
  have hdistinct : t.distinctOperands ≤ t'.distinctOperands := distinct_le hoperands.subset
  constructor <;> simp only [metrics] <;> omega

end Tokens

namespace Walk

variable {w : Walk Opened} {document : Nat}

theorem blocks_ids (document : Nat) (w : Walk Opened) :
    (w.blocks document).map (·.1) = document :: w.ids := by
  simp [blocks, ids, noted, Function.comp_def]

theorem mem_blocks_of_mem_children {b : Nat × Walk Opened} {x : Noted Opened × Walk Opened}
    (hb : b ∈ w.blocks document) (hx : x ∈ b.2.children) :
    (x.1.note.id, x.2) ∈ w.blocks document := by
  have hspan : x ∈ w.spans := by
    rcases List.mem_cons.mp hb with rfl | hb
    · exact mem_spans_of_mem_children hx
    · obtain ⟨y, hy, rfl⟩ := List.mem_map.mp hb
      exact mem_spans_trans hy (mem_spans_of_mem_children hx)
  exact List.mem_cons_of_mem _ (List.mem_map_of_mem hspan)

theorem ids_sublist_of_mem_spans {x : Noted Opened × Walk Opened} (h : x ∈ w.spans) :
    x.2.ids.Sublist w.ids := by
  induction w with
  | done => simp [spans] at h
  | operator token rest ih => exact ih h
  | operand token rest ih => exact ih h
  | node index n note inside rest ih ih' =>
    rw [spans, List.mem_append, List.mem_append] at h
    rw [ids_node]
    rcases h with h | h | h
    · obtain ⟨a, -, rfl⟩ := List.mem_map.mp h
      exact (List.sublist_append_left _ _).trans (List.sublist_append_right _ _)
    · exact ((ih h).trans (List.sublist_append_left _ _)).trans (List.sublist_append_right _ _)
    · exact ((ih' h).trans (List.sublist_append_right _ _)).trans (List.sublist_append_right _ _)

theorem children_ids_sublist (w : Walk Opened) :
    (w.children.map (·.1.note.id)).Sublist w.ids := by
  rw [ids_eq]
  induction w.children with
  | nil => exact .slnil
  | cons x xs ih =>
    rw [List.map_cons, List.flatMap_cons, List.cons_append]
    exact (ih.trans (List.sublist_append_right _ _)).cons_cons _

/-- Of two declarations directly inside a component, the one with the smaller id comes first. -/
theorem apart_of_lt (hids : w.ids.Pairwise (· < ·)) {x y : Noted Opened × Walk Opened}
    (hx : x ∈ w.children) (hy : y ∈ w.children) (hlt : x.1.note.id < y.1.note.id) :
    Apart w.events x.2.events y.2.events := by
  let Ordered (x y : Noted Opened × Walk Opened) : Prop :=
    (x.1.note.id < y.1.note.id → Apart w.events x.2.events y.2.events) ∧
      (y.1.note.id < x.1.note.id → Apart w.events y.2.events x.2.events)
  have : Std.Symm Ordered := ⟨fun _ _ h => ⟨h.2, h.1⟩⟩
  have hincreasing : w.children.Pairwise fun x y => x.1.note.id < y.1.note.id :=
    List.pairwise_map.mp (hids.sublist w.children_ids_sublist)
  have hordered : w.children.Pairwise Ordered := by
    refine (hincreasing.and w.children_apart).imp fun ⟨hlt, hapart⟩ => ⟨fun _ => hapart, ?_⟩
    intro hgt
    omega
  refine (hordered.forall_of_forall (fun z _ => ?_) hx hy).1 hlt
  exact ⟨fun h => absurd h (Nat.lt_irrefl _), fun h => absurd h (Nat.lt_irrefl _)⟩

end Walk

namespace FileContext

open Walk

variable {c : FileContext} {document : Nat} {s s' : Session} {summary : FileSummary}

theorem Indexes.mem_components (h : Indexes c document s summary s') {d : Component} :
    d ∈ summary.components ↔ ∃ b ∈ (c.walk s).blocks document, d = ⟨b.1, b.2.tokens⟩ := by
  have hcomponents : summary.components =
      ((c.walk s).blocks document).map fun b => ⟨b.1, b.2.tokens⟩ := by
    rw [h.components]
    simp [blocks, Walk.components, Function.comp_def]
  rw [hcomponents, List.mem_map]
  constructor <;> rintro ⟨b, hb, rfl⟩ <;> exact ⟨b, hb, rfl⟩

theorem block_unique (c : FileContext) (hdocument : document ≤ s.lastId)
    {b b' : Nat × Walk Opened} (hb : b ∈ (c.walk s).blocks document)
    (hb' : b' ∈ (c.walk s).blocks document) (heq : b.1 = b'.1) : b = b' := by
  have hnodup : (((c.walk s).blocks document).map (·.1)).Nodup := by
    rw [blocks_ids]
    exact (c.components_increasing hdocument).imp fun h => Nat.ne_of_lt h
  exact List.inj_on_of_nodup_map hnodup hb hb' heq

theorem enclosed (hdocument : document ≤ s.lastId) (hindexes : Indexes c document s summary s')
    {child parent : Component} (hchild : child ∈ summary.components)
    (hparent : parent ∈ summary.components)
    (h : (child.id, parent.id) ∈ (c.walk s).enclosures document) :
    ∃ b ∈ (c.walk s).blocks document, parent = ⟨b.1, b.2.tokens⟩ ∧
      ∃ x ∈ b.2.children, child = ⟨x.1.note.id, x.2.tokens⟩ := by
  obtain ⟨b, hb, hpair⟩ := List.mem_flatMap.mp h
  obtain ⟨x, hx, hids⟩ := List.mem_map.mp hpair
  obtain ⟨hchildId, hparentId⟩ := Prod.mk.inj hids
  obtain ⟨bp, hbp, rfl⟩ := hindexes.mem_components.mp hparent
  obtain ⟨bc, hbc, rfl⟩ := hindexes.mem_components.mp hchild
  obtain rfl := block_unique c hdocument hb hbp hparentId
  obtain rfl := block_unique c hdocument (mem_blocks_of_mem_children hb hx) hbc hchildId
  exact ⟨b, hb, rfl, x, hx, rfl⟩

theorem ids_increasing_of_mem_blocks {b : Nat × Walk Opened}
    (hb : b ∈ (c.walk s).blocks document) : b.2.ids.Pairwise (· < ·) := by
  obtain ⟨hincreasing, -⟩ := c.ids_walk s
  rcases List.mem_cons.mp hb with rfl | hb
  · exact hincreasing
  · obtain ⟨y, hy, rfl⟩ := List.mem_map.mp hb
    exact hincreasing.sublist (ids_sublist_of_mem_spans hy)

/-- What encloses a component dominates it. In a file that was indexed, take a declaration and the
innermost component around it, which there is exactly one of. Each of the declaration's two lists
of tokens is one stretch of the other's, and no count of the other is smaller; two declarations
directly inside one component have separate stretches, in the order of their ids. The tokens of a
declaration are those met from entering its node to leaving it. -/
theorem enclosing_dominates (hdocument : document ≤ s.lastId)
    (h : (c.index document).run s = (.ok summary, s')) :
    (((c.walk s).enclosures document).map (·.1)).Perm (c.walk s).ids ∧
      (∀ child ∈ summary.components, ∀ parent ∈ summary.components,
        (child.id, parent.id) ∈ (c.walk s).enclosures document →
        child.tokens.operators.toList <:+: parent.tokens.operators.toList ∧
          child.tokens.operands.toList <:+: parent.tokens.operands.toList ∧
          child.tokens.metrics.AtMost parent.tokens.metrics) ∧
      (∀ first ∈ summary.components, ∀ second ∈ summary.components,
        ∀ parent ∈ summary.components,
        (first.id, parent.id) ∈ (c.walk s).enclosures document →
        (second.id, parent.id) ∈ (c.walk s).enclosures document → first.id < second.id →
        (∃ before between after, parent.tokens.operators.toList =
          before ++ (first.tokens.operators.toList ++
            (between ++ (second.tokens.operators.toList ++ after)))) ∧
          ∃ before between after, parent.tokens.operands.toList =
            before ++ (first.tokens.operands.toList ++
              (between ++ (second.tokens.operands.toList ++ after)))) ∧
      ∀ d ∈ summary.components, d.id ≠ document →
        ∃ o inside before after, (o, inside) ∈ (c.walk s).spans ∧ o.note.id = d.id ∧
          c.file.tour.events =
            before ++ .enter o.index o.node :: (inside.events ++ .leave :: after) ∧
          d.tokens.operators.toList = inside.events.filterMap Event.operator? ∧
          d.tokens.operands.toList = inside.events.filterMap Event.operand? := by
  have hindexes := index_indexes hdocument h
  have hcut := (index_run_of_ok h).1
  refine ⟨enclosures_perm document _, ?_, ?_, ?_⟩
  · intro child hchild parent hparent hpair
    obtain ⟨b, hb, rfl, x, hx, rfl⟩ := enclosed hdocument hindexes hchild hparent hpair
    obtain ⟨before, after, hevents⟩ := events_of_mem_spans (mem_spans_of_mem_children hx)
    have hinfix : x.2.events <:+: b.2.events :=
      ⟨before ++ [.enter x.1.index x.1.node], .leave :: after, by simp [hevents]⟩
    have hoperators : x.2.operators <:+: b.2.operators := by
      rw [operators_eq, operators_eq]
      exact hinfix.filterMap _
    have hoperands : x.2.operands <:+: b.2.operands := by
      rw [operands_eq, operands_eq]
      exact hinfix.filterMap _
    exact ⟨hoperators, hoperands, Tokens.metrics_atMost hoperators hoperands⟩
  · intro first hfirst second hsecond parent hparent hpair hpair' hlt
    obtain ⟨b, hb, rfl, x, hx, rfl⟩ := enclosed hdocument hindexes hfirst hparent hpair
    obtain ⟨b', hb', heq, y, hy, rfl⟩ := enclosed hdocument hindexes hsecond hparent hpair'
    obtain rfl := block_unique c hdocument hb hb' (congrArg Component.id heq)
    obtain ⟨before, between, after, hevents⟩ :=
      apart_of_lt (ids_increasing_of_mem_blocks hb) hx hy hlt
    constructor
    · refine ⟨before.filterMap Event.operator?, between.filterMap Event.operator?,
        after.filterMap Event.operator?, ?_⟩
      simp only [tokens, operators_eq, hevents, List.filterMap_append]
    · refine ⟨before.filterMap Event.operand?, between.filterMap Event.operand?,
        after.filterMap Event.operand?, ?_⟩
      simp only [tokens, operands_eq, hevents, List.filterMap_append]
  · intro d hd hne
    obtain ⟨b, hb, rfl⟩ := hindexes.mem_components.mp hd
    rcases List.mem_cons.mp hb with rfl | hb
    · exact absurd rfl hne
    · obtain ⟨x, hx, rfl⟩ := List.mem_map.mp hb
      obtain ⟨before, after, hevents⟩ := events_of_mem_spans hx
      rw [walk_events, SourceFile.walk_events hcut] at hevents
      exact ⟨x.1, x.2, before, after, hx, rfl, hevents, operators_eq x.2, operands_eq x.2⟩

/-- The method is inside its class, and the two classes are apart in the file. -/
theorem nestedAndLone_dominates :
    ∃ summary s' file outer inner other,
      (nestedAndLone.index 1).run { lastId := 1 } = (.ok summary, s') ∧
      summary.components = [file, outer, inner, other] ∧
      inner.tokens.metrics.AtMost outer.tokens.metrics ∧
      ∃ before between after, file.tokens.operators.toList =
        before ++ (outer.tokens.operators.toList ++
          (between ++ (other.tokens.operators.toList ++ after))) := by
  have hids : ((nestedAndLone.index 1).run { lastId := 1 }).1.toOption.map (fun summary =>
      summary.components.map (·.id)) = some [1, 4, 7, 12] := by
    decide +kernel
  have hpairs : (nestedAndLone.walk { lastId := 1 }).enclosures 1 = [(4, 1), (12, 1), (7, 4)] := by
    decide +kernel
  cases hrun : (nestedAndLone.index 1).run { lastId := 1 } with
  | mk result s' =>
    rw [hrun] at hids
    cases result with
    | error e => simp [Except.toOption] at hids
    | ok summary =>
      have hmap : summary.components.map (·.id) = [1, 4, 7, 12] := Option.some.inj hids
      obtain ⟨file, rest, hcomponents, hfile, hmap⟩ := List.map_eq_cons_iff.mp hmap
      obtain ⟨outer, rest, rfl, houter, hmap⟩ := List.map_eq_cons_iff.mp hmap
      obtain ⟨inner, rest, rfl, hinner, hmap⟩ := List.map_eq_cons_iff.mp hmap
      obtain ⟨other, rest, rfl, hother, hmap⟩ := List.map_eq_cons_iff.mp hmap
      obtain rfl := List.map_eq_nil_iff.mp hmap
      obtain ⟨-, hnested, hapart, -⟩ := enclosing_dominates (Nat.le_refl 1) hrun
      refine ⟨summary, s', file, outer, inner, other, rfl, hcomponents, ?_, ?_⟩
      · refine (hnested inner ?_ outer ?_ ?_).2.2
        · simp [hcomponents]
        · simp [hcomponents]
        · simp [hpairs, hinner, houter]
      · refine (hapart outer ?_ other ?_ file ?_ ?_ ?_ ?_).1
        · simp [hcomponents]
        · simp [hcomponents]
        · simp [hcomponents]
        · simp [hpairs, houter, hfile]
        · simp [hpairs, hother, hfile]
        · simp [houter, hother]

end FileContext

end SourceIndex
