import SourceIndex.Proofs.FileRecords
import SourceIndex.Proofs.Linkage

/-! Entries, tables and links under new ids. Which definition a reference is attributed to depends
on the order of the ids and on nothing else about them. So if new ids are given out in the order of
the old ones, the links are the old ones under the new ids. -/

namespace SourceIndex

mutual

def Outline.rename (f : Nat → Nat) : Outline → Outline
  | .node id children => .node (f id) (Outline.renameForest f children)

def Outline.renameForest (f : Nat → Nat) : List Outline → List Outline
  | [] => []
  | tree :: trees => tree.rename f :: Outline.renameForest f trees

end

theorem Outline.renameForest_eq (f : Nat → Nat) (trees : List Outline) :
    Outline.renameForest f trees = trees.map (·.rename f) := by
  induction trees with
  | nil => rfl
  | cons tree trees ih => rw [renameForest, ih, List.map_cons]

namespace Outline.Builder

def rename (f : Nat → Nat) (b : Builder) : Builder :=
  ⟨b.stack.map fun x => (f x.1, x.2.map (·.rename f)), b.roots.map (·.rename f)⟩

theorem exit_rename (f : Nat → Nat) (b : Builder) : (b.rename f).exit = b.exit.rename f := by
  have hnode : ∀ id trees, Outline.rename f (.node id trees) =
      .node (f id) (trees.map (·.rename f)) := fun id trees => by
    rw [Outline.rename, renameForest_eq]
  obtain ⟨stack, roots⟩ := b
  match stack with
  | [] => rfl
  | (id, below) :: (parent, siblings) :: outer =>
    simp [rename, exit, hnode, List.map_reverse]
  | [(id, [])] => rfl
  | [(id, tree :: trees)] => simp [rename, exit, hnode, List.map_reverse]

theorem finish_rename (f : Nat → Nat) (b : Builder) :
    (b.rename f).finish = b.finish.map (·.rename f) :=
  (List.map_reverse ..).symm

end Outline.Builder

def Component.rename (f : Nat → Nat) (d : Component) : Component := ⟨f d.id, d.tokens⟩

namespace Element

def rename (f : Nat → Nat) : Element → Element
  | complexity component metrics => complexity (f component) metrics
  | outline tree => outline (tree.rename f)
  | references result => references (f result)
  | item result ids property => item (f result) (ids.map f) property
  | element => element

/-- The ids of other entries that are mentioned. -/
def mentions : Element → List Nat
  | complexity component _ => [component]
  | outline tree => tree.ids
  | references result => [result]
  | item result ids _ => result :: ids
  | _ => []

end Element

/-- Its own id and all ids that it mentions are replaced. -/
def Entry.rename (f : Nat → Nat) (e : Entry) : Entry := ⟨f e.id, e.type, e.element.rename f⟩

/-- The entries of an outline, if new ids are given out one after the other. -/
theorem outlineEntries_rename {f : Nat → Nat} (first first' : Nat) (trees : List Outline)
    (h : ∀ i < trees.length, f (first + i) = first' + i) :
    ((trees.map (·.rename f)).zipIdx first').map
        (fun (tree, id) => (⟨id, .vertex, .outline tree⟩ : Entry)) =
      ((trees.zipIdx first).map fun (tree, id) =>
        (⟨id, .vertex, .outline tree⟩ : Entry)).map (·.rename f) := by
  induction trees generalizing first first' with
  | nil => rfl
  | cons tree trees ih =>
    have hfirst : f first = first' := h 0 (Nat.zero_lt_succ _)
    have hrest := ih (first + 1) (first' + 1) fun i hi => by
      have hi' := h (1 + i) (by rw [List.length_cons]; omega)
      rw [Nat.add_assoc, hi', Nat.add_assoc]
    rw [List.map_cons, List.zipIdx_cons, List.map_cons, hrest, List.zipIdx_cons, List.map_cons,
      List.map_cons, ← hfirst]
    rfl

namespace Table

variable {α : Type}

def rename (f : Nat → Nat) (t : Table Nat α) : Table Nat α :=
  ⟨t.entries.map fun x => (f x.1, x.2)⟩

theorem keys_rename (f : Nat → Nat) (t : Table Nat α) : (t.rename f).keys = t.keys.map f := by
  simp only [keys, rename, List.map_map]
  rfl

/-- The second table is the first one under new ids. No id in them is above the last one that was
given out. -/
structure Renamed (f : Nat → Nat) (last last' : Nat) (t t' : Table Nat α) : Prop where
  eq : t' = t.rename f
  bounded : ∀ id ∈ t.keys, id ≤ last ∧ f id ≤ last'

variable {f : Nat → Nat} {last last' next next' id : Nat} {t t' : Table Nat α}

theorem Renamed.mono (h : Renamed f last last' t t') (hle : last ≤ next) (hle' : last' ≤ next') :
    Renamed f next next' t t' where
  eq := h.eq
  bounded id hid := ⟨(h.bounded id hid).1.trans hle, (h.bounded id hid).2.trans hle'⟩

theorem Renamed.insert (h : Renamed f last last' t t') (hid : last < id) (hid' : last' < f id)
    (v : α) : Renamed f id (f id) (t.insert id v) (t'.insert (f id) v) where
  eq := by
    have hnew : id ∉ t.keys := by
      intro hmem
      have hle := (h.bounded id hmem).1
      omega
    have hnew' : f id ∉ (t.rename f).keys := by
      intro hmem
      rw [keys_rename] at hmem
      obtain ⟨k, hk, heq⟩ := List.mem_map.mp hmem
      have hle := (h.bounded k hk).2
      omega
    have hentries : ((t.rename f).insert (f id) v).entries =
        ((t.insert id v).rename f).entries := by
      rw [entries_insert_of_not_mem hnew', rename, rename, entries_insert_of_not_mem hnew,
        List.map_append]
      rfl
    rw [h.eq]
    exact congrArg Table.mk hentries
  bounded k hk := by
    rcases mem_keys_insert.mp hk with rfl | hk
    · exact ⟨le_rfl, le_rfl⟩
    · have hle := h.bounded k hk
      omega

end Table

section Links

variable {f : Nat → Nat}

/-- The scan for the innermost definition never compares ids. -/
theorem innermost?_rename (f : Nat → Nat) (es : List (Nat × Location)) (r : Location) :
    innermost? (es.map fun d => (f d.1, d.2)) r = (innermost? es r).map f := by
  have hnarrow : ∀ choice d, narrow r (Option.map (fun x => (f x.1, x.2)) choice) (f d.1, d.2) =
      (narrow r choice d).map fun x => (f x.1, x.2) := by
    intro choice d
    unfold narrow
    split
    · cases choice with
      | none => rfl
      | some x =>
        simp only [Option.map_some]
        split <;> rfl
    · rfl
  have hscan : ∀ choice, (es.map fun d => (f d.1, d.2)).foldl (narrow r)
      (Option.map (fun x => (f x.1, x.2)) choice) =
      (es.foldl (narrow r) choice).map fun x => (f x.1, x.2) := by
    induction es with
    | nil => intro choice; rfl
    | cons d es ih =>
      intro choice
      rw [List.map_cons, List.foldl_cons, hnarrow, ih, List.foldl_cons]
  have hall := hscan none
  rw [Option.map_none] at hall
  rw [innermost?, hall, innermost?, Option.map_map, Option.map_map]
  rfl

theorem filter_ne_map {a : Nat} {ids : List Nat} (h : ∀ b ∈ ids, f b = f a → b = a) :
    (ids.map f).filter (fun b => !b == f a) = (ids.filter fun b => !b == a).map f := by
  rw [List.filter_map]
  refine congrArg (List.map f) (List.filter_congr fun b hb => ?_)
  have hiff : f b = f a ↔ b = a := ⟨h b hb, congrArg f⟩
  simp [hiff]

theorem eraseDups_map :
    ∀ {ids : List Nat}, (∀ a ∈ ids, ∀ b ∈ ids, f a = f b → a = b) →
      (ids.map f).eraseDups = ids.eraseDups.map f
  | [], _ => rfl
  | a :: ids, h => by
    have hshorter : (ids.filter fun b => !b == a).length < ids.length + 1 :=
      Nat.lt_succ_of_le (List.length_filter_le _ _)
    have hkept : ∀ b ∈ ids.filter fun b => !b == a, b ∈ a :: ids :=
      fun b hb => List.mem_cons_of_mem _ (List.mem_filter.mp hb).1
    have hrest := eraseDups_map fun b hb c hc => h b (hkept b hb) c (hkept c hc)
    have hfilter := filter_ne_map (a := a) fun b hb => h b (List.mem_cons_of_mem a hb) a (by simp)
    rw [List.map_cons, List.eraseDups_cons, hfilter, hrest, List.eraseDups_cons, List.map_cons]
termination_by ids => ids.length

variable {definitions : Table Nat Location} {references : Table Nat (List Location)}

theorem winner?_rename (hkeys : definitions.keys.Pairwise (· < ·))
    (hkeys' : (definitions.rename f).keys.Pairwise (· < ·)) (r : Location) :
    winner? (definitions.rename f) r = (winner? definitions r).map f := by
  rw [winner?, winner?, sortedByKey, sortBy_of_perm (.refl _) hkeys', sortedByKey,
    sortBy_of_perm (.refl _) hkeys]
  exact innermost?_rename f definitions.entries r

theorem referrers_rename (hkeys : definitions.keys.Pairwise (· < ·))
    (hkeys' : (definitions.rename f).keys.Pairwise (· < ·)) {id : Nat}
    (hid : id ∈ definitions.keys) (raw : List Location) :
    referrers (sortedByKey (definitions.rename f).entries) (f id) raw =
      (referrers (sortedByKey definitions.entries) id raw).map f := by
  have hinj : ∀ a ∈ definitions.keys, ∀ b ∈ definitions.keys, f a = f b → a = b := by
    rw [Table.keys_rename] at hkeys'
    have hnodup := hkeys'.imp fun hlt => Nat.ne_of_lt hlt
    exact fun a ha b hb => List.inj_on_of_nodup_map hnodup ha hb
  have hwinners : ∀ i ∈ raw.filterMap (winner? definitions), i ∈ definitions.keys := by
    intro i hi
    obtain ⟨r, -, hr⟩ := List.mem_filterMap.mp hi
    exact winner?_mem_keys hr
  have hmap : raw.filterMap (winner? (definitions.rename f)) =
      (raw.filterMap (winner? definitions)).map f := by
    rw [List.map_filterMap]
    exact List.filterMap_congr fun r _ => winner?_rename hkeys hkeys' r
  have hne : ∀ a : Nat, (fun b => decide (b ≠ a)) = fun b => !b == a := by
    intro a
    funext b
    by_cases hb : b = a <;> simp [hb]
  change ((raw.filterMap (winner? (definitions.rename f))).filter (· ≠ f id)).eraseDups =
    ((raw.filterMap (winner? definitions)).filter (· ≠ id)).eraseDups.map f
  rw [hmap, hne, hne, filter_ne_map fun b hb => hinj b (hwinners b hb) id hid, eraseDups_map]
  intro a ha b hb
  exact hinj a (hwinners a (List.mem_filter.mp ha).1) b (hwinners b (List.mem_filter.mp hb).1)

/-- The links under new ids, if the definitions are in the order of their ids, the old ones as well
as the new ones. -/
theorem link_rename (hkeys : definitions.keys.Pairwise (· < ·))
    (hkeys' : (definitions.rename f).keys.Pairwise (· < ·))
    (hdefined : ∀ id ∈ references.keys, id ∈ definitions.keys) :
    (link (definitions.rename f) (references.rename f)).entries =
      (link definitions references).entries.map fun x => (f x.1, x.2.map f) := by
  have hentries : (references.rename f).entries =
      references.entries.map fun x => (f x.1, x.2) := rfl
  rw [link_entries, link_entries, hentries, List.filterMap_map, List.map_filterMap]
  refine List.filterMap_congr fun x hx => ?_
  have hid := hdefined x.1 (List.mem_map_of_mem hx)
  simp only [Function.comp, referrers_rename hkeys hkeys' hid]
  cases referrers (sortedByKey definitions.entries) x.1 x.2 <;> rfl

/-- The records of a graph, if new ids are given out one after the other. -/
theorem linkage_rename (last : Nat) (graph : List (Nat × List Nat))
    (h : ∀ i ≤ (linkage last graph).length, f (last + i) = f last + i) :
    linkage (f last) (graph.map fun x => (f x.1, x.2.map f)) =
      (linkage last graph).map (·.rename f) := by
  induction graph generalizing last with
  | nil => rfl
  | cons x graph ih =>
    have hlength : (linkage last (x :: graph)).length = 4 + (linkage (last + 4) graph).length := by
      rw [linkage, List.length_append]
      rfl
    have hnext : f (last + 4) = f last + 4 := h 4 (by omega)
    have hrest := ih (last + 4) fun i hi => by
      have hi' := h (4 + i) (by omega)
      rw [hnext, Nat.add_assoc, hi']
      omega
    have hrecords : linkRecords (f last) (f x.1) (x.2.map f) =
        (linkRecords last x.1 x.2).map (·.rename f) := by
      have h₁ := h 1 (by omega)
      have h₂ := h 2 (by omega)
      have h₃ := h 3 (by omega)
      simp [linkRecords, Entry.rename, Element.rename, h₁, h₂, h₃, hnext]
    rw [List.map_cons, linkage, linkage, List.map_append, ← hrest, ← hrecords, hnext]

end Links

end SourceIndex
