import Mathlib.Data.List.Pairwise
import SourceIndex.Proofs.FileRecords

/-! The components of a file are accounted for exactly once: in the summary, among the entries, in
the outline, in the tables and among the questions. Only a declaration that stands alone, neither
inside another one nor around one, is missing in the outline. -/

namespace SourceIndex

theorem flatMap_filter {α β : Type} (p : α → Bool) (f : α → List β) (as : List α) :
    (as.filter p).flatMap f = as.flatMap fun a => if p a then f a else [] := by
  induction as with
  | nil => rfl
  | cons a as ih => cases hp : p a <;> simp [hp, ih]

theorem Outline.forestIds_append (trees trees' : List Outline) :
    Outline.forestIds (trees ++ trees') = Outline.forestIds trees ++ Outline.forestIds trees' := by
  induction trees with
  | nil => rfl
  | cons tree trees ih => rw [List.cons_append, forestIds, forestIds, ih, List.append_assoc]

theorem Outline.forestIds_map {α : Type} (f : α → Outline) (as : List α) :
    Outline.forestIds (as.map f) = as.flatMap fun a => (f a).ids := by
  induction as with
  | nil => rfl
  | cons a as ih => rw [List.map_cons, forestIds, ih, List.flatMap_cons]

namespace Walk

variable {α : Type} {w : Walk Opened}

/-- The declarations that are neither inside another one nor have another one inside. -/
def lone (w : Walk Opened) : List Nat :=
  (w.children.filter fun x => x.2.noted.isEmpty).map (·.1.note.id)

theorem forest_eq (w : Walk Opened) :
    w.forest = w.children.map fun x => .node x.1.note.id x.2.forest := by
  induction w with
  | done => rfl
  | operator token rest ih => exact ih
  | operand token rest ih => exact ih
  | node index n note inside rest ih ih' => cases note <;> simp [forest, children, ih, ih']

theorem spans_eq (w : Walk α) : w.spans = w.children.flatMap fun x => x :: x.2.spans := by
  induction w with
  | done => rfl
  | operator token rest ih => exact ih
  | operand token rest ih => exact ih
  | node index n note inside rest ih ih' => cases note <;> simp [spans, children, ih, ih']

theorem ids_eq (w : Walk Opened) :
    w.ids = w.children.flatMap fun x => x.1.note.id :: x.2.ids := by
  simp only [ids, noted]
  rw [spans_eq, List.map_flatMap, List.map_flatMap]
  rfl

theorem forestIds_forest (w : Walk Opened) : Outline.forestIds w.forest = w.ids := by
  induction w with
  | done => rfl
  | operator token rest ih => exact ih
  | operand token rest ih => exact ih
  | node index n note inside rest ih ih' =>
    rw [forest, Outline.forestIds_append, ih', ids_node]
    cases note with
    | none => exact congrArg (· ++ _) ih
    | some o => simp [Outline.forestIds, Outline.ids, ih]

theorem noted_isEmpty_iff (w : Walk Opened) : w.noted.isEmpty = w.forest.isEmpty := by
  have hids : w.noted.isEmpty = (Outline.forestIds w.forest).isEmpty := by
    simp [forestIds_forest, ids]
  rw [hids]
  cases w.forest with
  | nil => rfl
  | cons tree trees =>
    cases tree
    simp [Outline.forestIds, Outline.ids]

/-- Exactly the lone declarations are missing in the outline. -/
theorem forestIds_outline (hnodup : w.ids.Nodup) :
    Outline.forestIds (w.forest.filter Outline.hasChildren) =
      w.ids.filter fun id => id ∉ w.lone := by
  have hkept : w.forest.filter Outline.hasChildren =
      (w.children.filter fun x => !x.2.noted.isEmpty).map fun x =>
        .node x.1.note.id x.2.forest := by
    rw [forest_eq, List.filter_map]
    simp [Function.comp_def, Outline.hasChildren, Outline.children, noted_isEmpty_iff]
  have hids : ∀ x : Noted Opened × Walk Opened, Outline.ids (.node x.1.note.id x.2.forest) =
      x.1.note.id :: x.2.ids := fun x => by rw [Outline.ids, forestIds_forest]
  rw [hkept, Outline.forestIds_map]
  simp only [hids]
  rw [ids_eq, List.filter_flatMap, flatMap_filter]
  rw [ids_eq] at hnodup
  obtain ⟨-, hdisjoint⟩ := List.nodup_flatMap.mp hnodup
  refine List.flatMap_congr fun x hx => ?_
  cases hempty : x.2.noted.isEmpty with
  | true =>
    have hlone : x.1.note.id ∈ w.lone :=
      List.mem_map.mpr ⟨x, List.mem_filter.mpr ⟨hx, hempty⟩, rfl⟩
    have hnone : x.2.ids = [] := by
      rw [ids, List.isEmpty_iff.mp hempty, List.map_nil]
    simp [hlone, hnone]
  | false =>
    simp only [Bool.not_false, if_true]
    refine (List.filter_eq_self.mpr fun id hid => ?_).symm
    rw [decide_eq_true_eq]
    intro hlone
    obtain ⟨y, hy, rfl⟩ := List.mem_map.mp hlone
    obtain ⟨hy, hyempty⟩ := List.mem_filter.mp hy
    have hne : x ≠ y := by
      rintro rfl
      simp [hempty] at hyempty
    have : Std.Symm (Function.onFun List.Disjoint
        fun x : Noted Opened × Walk Opened => x.1.note.id :: x.2.ids) :=
      ⟨fun _ _ h _ ha hb => h hb ha⟩
    exact hdisjoint.forall hx hy hne hid List.mem_cons_self

theorem events_number (closing last : Nat) (w : Walk Symbol) :
    (w.number closing last).events = w.events := by
  induction w generalizing last with
  | done => rfl
  | operator token rest ih => rw [number, events, events, ih]
  | operand token rest ih => rw [number, events, events, ih]
  | node index n note inside rest ih ih' =>
    cases note <;> rw [number, events, events, ih, ih']

end Walk

namespace Table

variable {κ α β : Type} [DecidableEq κ] {key : β → κ} {value : β → α} {bs : List β}

theorem get?_foldl_insert (t : Table κ α) {k : κ} (h : k ∉ bs.map key) :
    (bs.foldl (fun t b => t.insert (key b) (value b)) t).get? k = t.get? k := by
  induction bs generalizing t with
  | nil => rfl
  | cons b bs ih =>
    rw [List.map_cons, List.mem_cons, not_or] at h
    rw [List.foldl_cons, ih _ h.2, get?_insert, if_neg h.1]

theorem mem_keys_foldl_insert (t : Table κ α) (k : κ) :
    k ∈ (bs.foldl (fun t b => t.insert (key b) (value b)) t).keys ↔
      k ∈ t.keys ∨ k ∈ bs.map key := by
  induction bs generalizing t with
  | nil => simp
  | cons b bs ih =>
    rw [List.foldl_cons, ih, mem_keys_insert, List.map_cons, List.mem_cons]
    tauto

theorem keys_insert_of_not_mem {t : Table κ α} {k : κ} (h : k ∉ t.keys) (v : α) :
    (t.insert k v).keys = t.keys ++ [k] := by
  simp [keys, entries_insert_of_not_mem h]

theorem keys_foldl_insert {t : Table κ α} (hnodup : (bs.map key).Nodup)
    (hfresh : ∀ b ∈ bs, key b ∉ t.keys) :
    (bs.foldl (fun t b => t.insert (key b) (value b)) t).keys = t.keys ++ bs.map key := by
  induction bs generalizing t with
  | nil => simp
  | cons b bs ih =>
    rw [List.map_cons, List.nodup_cons] at hnodup
    have hb : (t.insert (key b) (value b)).keys = t.keys ++ [key b] :=
      keys_insert_of_not_mem (hfresh b List.mem_cons_self) _
    rw [List.foldl_cons, ih hnodup.2, hb, List.append_assoc]
    · rfl
    · intro b' hb' hmem
      rw [hb, List.mem_append, List.mem_singleton] at hmem
      rcases hmem with hmem | hmem
      · exact hfresh b' (List.mem_cons_of_mem _ hb') hmem
      · exact hnodup.1 (hmem ▸ List.mem_map_of_mem hb')

/-- Increasing keys above all that were there come after them. -/
theorem keys_foldl_insert_above {key : β → Nat} {t : Table Nat α} {last : Nat}
    (hincreasing : (last :: bs.map key).Pairwise (· < ·)) (hold : ∀ k ∈ t.keys, k ≤ last) :
    (bs.foldl (fun t b => t.insert (key b) (value b)) t).keys = t.keys ++ bs.map key := by
  obtain ⟨habove, hincreasing⟩ := List.pairwise_cons.mp hincreasing
  refine keys_foldl_insert (hincreasing.imp fun h => Nat.ne_of_lt h) fun b hb hmem => ?_
  have hlt := habove _ (List.mem_map_of_mem hb)
  have hle := hold _ hmem
  omega

end Table

namespace FileContext

variable {c : FileContext} {document : Nat} {s s' : Session} {summary : FileSummary}

theorem survey_events (w : Walk Empty) (m : Memory) :
    ((c.survey w).run m).1.events = w.events := by
  induction w generalizing m with
  | done => rfl
  | operator token rest ih => exact congrArg (_ :: ·) (ih m)
  | operand token rest ih => exact congrArg (_ :: ·) (ih m)
  | node index n note inside rest ih ih' =>
    simp only [survey, run_bind]
    exact congrArg (Event.enter index n :: ·) (congrArg₂ (· ++ .leave :: ·) (ih _) (ih' _))

theorem walk_events (c : FileContext) (s : Session) : (c.walk s).events = c.file.walk.events := by
  simp only [walk, Walk.events_number, Walk.events_mapNotes, survey_events]

/-- Every component is accounted for, with these entries written. -/
structure Accounts (c : FileContext) (document : Nat) (s : Session) (summary : FileSummary)
    (s' : Session) (written : List Entry) : Prop where
  entries : s'.journal.entries = s.journal.entries ++ written
  increasing : (summary.components.map (·.id)).Pairwise (· < ·)
  components : summary.components.map (·.id) =
    document :: (written.filter Entry.isRange).map (·.id)
  measures : c.options.emitComplexity = true →
    (written.filterMap Entry.measures?).Perm
      (summary.components.map fun d => (d.id, d.tokens.metrics))
  outline : Outline.forestIds summary.outline =
    ((written.filter Entry.isRange).map (·.id)).filter fun id => id ∉ (c.walk s).lone
  definitions : ∀ id, id ∈ s'.definitions.keys ↔
    id ∈ s.definitions.keys ∨ id ∈ summary.components.map (·.id)
  references : ∀ id, id ∈ s'.references.keys ↔
    id ∈ s.references.keys ∨ id ∈ (written.filter Entry.isRange).map (·.id)
  kept : ∀ id, id ∉ summary.components.map (·.id) →
    s'.definitions.get? id = s.definitions.get? id ∧ s'.references.get? id = s.references.get? id
  gained : (∀ id, id ∈ s.definitions.keys ∨ id ∈ s.references.keys → id < document) →
    s'.definitions.keys = s.definitions.keys ++ summary.components.map (·.id) ∧
      s'.references.keys = s.references.keys ++ (written.filter Entry.isRange).map (·.id)
  ranges : written.filter Entry.isRange = (c.walk s).noted.map c.rangeEntry
  questions : s'.journal.referenceQueries =
    s.journal.referenceQueries ++ (c.walk s).noted.map c.question

namespace Indexes

/-- The entries that are written tell of each declaration and of the file. -/
theorem exists_written (h : Indexes c document s summary s') :
    ∃ written, s'.journal.entries = s.journal.entries ++ written ∧
      written.filter Entry.isRange = (c.walk s).noted.map c.rangeEntry ∧
      (c.options.emitComplexity = true → (written.filterMap Entry.measures?).Perm
        (summary.components.map fun d => (d.id, d.tokens.metrics))) := by
  refine ⟨_, h.entries, ?_, fun hemit => ?_⟩
  · rw [List.filter_append, List.filter_append, entries_ranges, closingEntries_ranges,
      outlineEntries_ranges, List.append_nil, List.append_nil]
  · rw [List.filterMap_append, List.filterMap_append, entries_measures, closingEntries_measures,
      outlineEntries_measures, if_pos hemit, if_pos hemit, List.append_nil, h.components,
      List.map_cons]
    exact (List.perm_append_singleton _ _).trans
      (((c.walk s).closings_perm.map fun d => (d.id, d.tokens.metrics)).cons _)

theorem ids (h : Indexes c document s summary s') :
    summary.components.map (·.id) = document :: (c.walk s).ids := by
  rw [h.components, List.map_cons, Walk.components_ids]

theorem get?_of_not_mem (h : Indexes c document s summary s') {id : Nat} (hne : id ≠ document)
    (hid : id ∉ (c.walk s).ids) :
    s'.definitions.get? id = s.definitions.get? id ∧
      s'.references.get? id = s.references.get? id := by
  rw [h.definitions, h.references, Table.get?_foldl_insert _ hid, Table.get?_foldl_insert _ hid,
    Table.get?_insert_of_ne _ hne _]
  exact ⟨rfl, rfl⟩

theorem keys_definitions (h : Indexes c document s summary s') (hdocument : document ≤ s.lastId)
    (hfresh : ∀ id ∈ s.definitions.keys, id < document) :
    s'.definitions.keys = s.definitions.keys ++ document :: (c.walk s).ids := by
  have hkeys : (s.definitions.insert document
      ⟨c.file.name, c.file.nodeRange c.file.root⟩).keys = s.definitions.keys ++ [document] :=
    Table.keys_insert_of_not_mem (fun hmem => Nat.lt_irrefl _ (hfresh _ hmem)) _
  rw [h.definitions, Table.keys_foldl_insert_above (c.components_increasing hdocument), hkeys,
    List.append_assoc]
  · rfl
  · intro id hid
    rw [hkeys, List.mem_append, List.mem_singleton] at hid
    rcases hid with hid | rfl
    · exact (hfresh _ hid).le
    · exact Nat.le_refl _

theorem keys_references (h : Indexes c document s summary s') (hdocument : document ≤ s.lastId)
    (hfresh : ∀ id ∈ s.references.keys, id < document) :
    s'.references.keys = s.references.keys ++ (c.walk s).ids := by
  rw [h.references, Table.keys_foldl_insert_above (c.components_increasing hdocument)]
  · rfl
  · exact fun id hid => (hfresh id hid).le

end Indexes

/-- Every component of a file that was indexed is accounted for exactly once. The ids of the
components are that of the document and those of the range vertices that were written, in order;
each component was measured once, at its end; the outline has all declarations but the lone ones;
the tables gained the components and nothing else; and each declaration was asked about once. -/
theorem index_accounts (hdocument : document ≤ s.lastId)
    (h : (c.index document).run s = (.ok summary, s')) :
    ∃ written, Accounts c document s summary s' written := by
  have hindexes := index_indexes hdocument h
  have hincreasing := c.components_increasing hdocument
  have hcomponents := hindexes.ids
  obtain ⟨written, hentries, hranges, hmeasures⟩ := hindexes.exists_written
  have hids : (written.filter Entry.isRange).map (·.id) = (c.walk s).ids := by
    rw [hranges, List.map_map]
    rfl
  have hnodup : (c.walk s).ids.Nodup :=
    (List.pairwise_cons.mp hincreasing).2.imp fun h => Nat.ne_of_lt h
  refine ⟨written, hentries, ?_, ?_, hmeasures, ?_, ?_, ?_, ?_, ?_, hranges, hindexes.questions⟩
  · rw [hcomponents]
    exact hincreasing
  · rw [hcomponents, hids]
  · rw [hids, hindexes.outline]
    exact Walk.forestIds_outline hnodup
  · intro id
    rw [hindexes.definitions, Table.mem_keys_foldl_insert, Table.mem_keys_insert, hcomponents,
      List.mem_cons]
    change _ ∨ id ∈ (c.walk s).ids ↔ _
    rw [or_comm (a := id = document), or_assoc]
  · intro id
    rw [hindexes.references, Table.mem_keys_foldl_insert, hids]
    rfl
  · intro id hid
    rw [hcomponents, List.mem_cons, not_or] at hid
    exact hindexes.get?_of_not_mem hid.1 hid.2
  · intro hfresh
    rw [hcomponents, hids]
    exact ⟨hindexes.keys_definitions hdocument fun id hid => hfresh id (.inl hid),
      hindexes.keys_references hdocument fun id hid => hfresh id (.inr hid)⟩

/-- A class with a method, and a class on its own. -/
def nestedAndLone : FileContext where
  world := ⟨⟨#[file]⟩, .none⟩
  options := {}
  fileId := 0
  file
where
  file : SourceFile :=
    { name := "a.ts"
      text := "class A{m(){}}class B{}".toList
      arena := ((((((Arena.empty.add .identifier 8 9 (.identifier "m")).add .methodDeclaration 8 13
        (.declaration (.method none false (some 0) false none [] none none))).add .identifier 6 7
        (.identifier "A")).add .classDeclaration 0 14
        (.declaration (.classLike none (some 2) none none [some 1]))).add .identifier 20 21
        (.identifier "B")).add .classDeclaration 14 23
        (.declaration (.classLike none (some 4) none none []))).add .sourceFile 0 23
        (.sourceFile [some 3, some 5] "a.ts" .ts false)
      root := some 6 }

theorem nestedAndLone_accounts :
    ∃ summary s' written,
      (nestedAndLone.index 1).run { lastId := 1 } = (.ok summary, s') ∧
      summary.components.map (·.id) = [1, 4, 7, 12] ∧ Outline.forestIds summary.outline = [4, 7] ∧
      Accounts nestedAndLone 1 { lastId := 1 } summary s' written := by
  have hids : ((nestedAndLone.index 1).run { lastId := 1 }).1.toOption.map (fun summary =>
      (summary.components.map (·.id), Outline.forestIds summary.outline)) =
      some ([1, 4, 7, 12], [4, 7]) := by
    decide +kernel
  cases hrun : (nestedAndLone.index 1).run { lastId := 1 } with
  | mk result s' =>
    rw [hrun] at hids
    cases result with
    | error e => simp [Except.toOption] at hids
    | ok summary =>
      obtain ⟨hcomponents, houtline⟩ := Prod.mk.inj (Option.some.inj hids)
      obtain ⟨written, haccounts⟩ := index_accounts (Nat.le_refl 1) hrun
      exact ⟨summary, s', written, rfl, hcomponents, houtline, haccounts⟩

end FileContext

end SourceIndex
