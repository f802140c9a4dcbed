import Mathlib.Logic.Function.Iterate
import SourceIndex.Proofs.VisitDepth

/-! Parents in an arena that was built node by node. The parent of a node is the last one that names
it, which in a tree is the only one. There a tour meets every node after its parent. -/

namespace SourceIndex

namespace Arena

/-- What adding nodes and setting flags can lead to. -/
inductive Built : Arena → Prop where
  | empty : Built .empty
  | add {a : Arena} (h : Built a) (kind : Kind) (start stop : Nat) (payload : Payload) :
    Built (a.add kind start stop payload)
  | addFlags {a : Arena} (h : Built a) (r : NodeRef) (flags : Nat) : Built (a.addFlags r flags)

/-- The first node names the second one, which was there before or is the same. -/
def Adopts (a : Arena) (i j : Nat) : Prop := j ∈ a.children (some i) ∧ j ≤ i

/-- Every child comes before its parent, and no two nodes have a child in common. -/
structure IsTree (a : Arena) : Prop where
  built : a.Built
  smaller : ∀ i j, j ∈ a.children (some i) → j < i
  once : ∀ i i' j, j ∈ a.children (some i) → j ∈ a.children (some i') → i = i'

variable {a : Arena} {i j : Nat}

theorem lt_size_of_mem_children (h : j ∈ a.children (some i)) : i < a.size := by
  by_contra hge
  have hnone : a.nodes[i]? = none := Array.getElem?_eq_none (Nat.le_of_not_lt hge)
  simp [children, get?, hnone] at h

theorem children_add (kind : Kind) (start stop : Nat) (payload : Payload) :
    (a.add kind start stop payload).children (some i) =
      if i = a.size then payload.children else a.children (some i) := by
  unfold children get? add
  simp only [Option.bind_some, Array.getElem?_push]
  by_cases hi : i = a.size
  · simp [hi, size]
  · have hne : i ≠ a.nodes.size := hi
    simp [hi, hne]

theorem children_addFlags (r : NodeRef) (flags : Nat) :
    (a.addFlags r flags).children (some i) = a.children (some i) := by
  cases r with
  | none => rfl
  | some k =>
    unfold children get? addFlags
    simp only [Option.bind_some, Array.getElem?_modify]
    split
    · cases a.nodes[i]? <;> rfl
    · rfl

theorem parent_addFlags (r : NodeRef) (flags : Nat) :
    (a.addFlags r flags).parent (some j) = a.parent (some j) := by
  cases r <;> rfl

theorem size_adopt (children : List Nat) (parents : Array NodeRef) (i : Nat) :
    (children.foldl (fun ps child => ps.setIfInBounds child (some i)) parents).size =
      parents.size := by
  induction children generalizing parents with
  | nil => rfl
  | cons child children ih => rw [List.foldl_cons, ih, Array.size_setIfInBounds]

theorem getElem?_adopt (children : List Nat) (parents : Array NodeRef) (i j : Nat) :
    (children.foldl (fun ps child => ps.setIfInBounds child (some i)) parents)[j]? =
      if j ∈ children ∧ j < parents.size then some (some i) else parents[j]? := by
  induction children generalizing parents with
  | nil => simp
  | cons child children ih =>
    rw [List.foldl_cons, ih, Array.size_setIfInBounds, Array.getElem?_setIfInBounds]
    by_cases hj : j < parents.size <;> by_cases hmem : j ∈ children <;>
      by_cases hchild : child = j <;> grind

theorem Built.size_parents (h : a.Built) : a.parents.size = a.size := by
  induction h with
  | empty => rfl
  | add h kind start stop payload ih =>
    simp only [Arena.add, size] at ih ⊢
    rw [size_adopt, Array.size_push, Array.size_push, ih]
  | @addFlags a h r flags ih =>
    cases r with
    | none => exact ih
    | some k => simpa [Arena.addFlags, size] using ih

theorem Built.parent_add (h : a.Built) (kind : Kind) (start stop : Nat) (payload : Payload) :
    (a.add kind start stop payload).parent (some j) =
      if j ∈ payload.children ∧ j ≤ a.size then some a.size else a.parent (some j) := by
  have hsize := h.size_parents
  unfold parent Arena.add
  simp only [Option.bind_some, getElem?_adopt, Array.size_push, hsize, Nat.lt_succ_iff]
  split
  · rfl
  · rw [Array.getElem?_push, hsize]
    split
    · next heq =>
      have hnone : a.parents[j]? = none := Array.getElem?_eq_none (by omega)
      rw [hnone]
      rfl
    · rfl

theorem adopts_add (kind : Kind) (start stop : Nat) (payload : Payload) :
    (a.add kind start stop payload).Adopts i j ↔
      a.Adopts i j ∨ i = a.size ∧ j ∈ payload.children ∧ j ≤ a.size := by
  unfold Adopts
  rw [children_add]
  by_cases hi : i = a.size
  · subst hi
    have hnone : ¬ j ∈ a.children (some a.size) := fun h => (lt_size_of_mem_children h).false
    simp [hnone]
  · simp [hi]

theorem Built.parent_eq_some_iff (h : a.Built) :
    a.parent (some j) = some i ↔ a.Adopts i j ∧ ∀ i', a.Adopts i' j → i' ≤ i := by
  induction h generalizing i with
  | empty => simp [Adopts, children, get?, parent, Arena.empty]
  | @add a h kind start stop payload ih =>
    rw [h.parent_add]
    -- a node that is named again loses its parent to the new node
    by_cases hnew : j ∈ payload.children ∧ j ≤ a.size
    · have hadopts : ∀ i', (a.add kind start stop payload).Adopts i' j → i' ≤ a.size := by
        intro i' hi'
        rcases (adopts_add ..).mp hi' with hold | ⟨rfl, -⟩
        · exact (lt_size_of_mem_children hold.1).le
        · exact le_rfl
      have hself : (a.add kind start stop payload).Adopts a.size j :=
        (adopts_add ..).mpr (.inr ⟨rfl, hnew⟩)
      rw [if_pos hnew]
      constructor
      · intro hi
        obtain rfl := Option.some.inj hi
        exact ⟨hself, hadopts⟩
      · rintro ⟨hi, hlast⟩
        rw [Nat.le_antisymm (hlast _ hself) (hadopts i hi)]
    · have hsame : ∀ i', (a.add kind start stop payload).Adopts i' j ↔ a.Adopts i' j := by
        intro i'
        rw [adopts_add]
        exact or_iff_left fun hi' => hnew hi'.2
      simp only [if_neg hnew, hsame, ih]
  | @addFlags a h r flags ih =>
    simp only [parent_addFlags, Adopts, children_addFlags, ih]

theorem exists_parent_of_iterate_succ {r : NodeRef} {links : Nat}
    (hchain : a.parent^[links + 1] r = some i) :
    ∃ p, a.parent r = some p ∧ a.parent^[links] (some p) = some i := by
  rw [Function.iterate_succ_apply] at hchain
  cases hparent : a.parent r with
  | none =>
    have hnone : a.parent^[links] none = none := Function.iterate_fixed rfl links
    rw [hparent, hnone] at hchain
    cases hchain
  | some p => exact ⟨p, rfl, hparent ▸ hchain⟩

namespace IsTree

theorem parent_of_mem_children (h : a.IsTree) (hj : j ∈ a.children (some i)) :
    a.parent (some j) = some i := by
  refine h.built.parent_eq_some_iff.mpr ⟨⟨hj, (h.smaller i j hj).le⟩, fun i' hi' => ?_⟩
  exact (h.once i' i j hi'.1 hj).le

theorem lt_of_parent (h : a.IsTree) (hparent : a.parent (some j) = some i) : j < i :=
  h.smaller i j (h.built.parent_eq_some_iff.mp hparent).1.1

theorem add_le_of_iterate_parent (h : a.IsTree) {links : Nat}
    (hchain : a.parent^[links] (some j) = some i) : j + links ≤ i := by
  induction links generalizing j with
  | zero => exact (Option.some.inj hchain).le
  | succ links ih =>
    obtain ⟨p, hparent, hrest⟩ := exists_parent_of_iterate_succ hchain
    have hlt := h.lt_of_parent hparent
    have hle := ih hrest
    omega

end IsTree

end Arena

namespace SourceFile

def Enters (es : List Event) (i : Nat) : Prop := ∃ n, Event.enter i n ∈ es

/-- Every node that is entered is there, and is the root or has a parent that was entered before. -/
inductive ParentsFirst (f : SourceFile) : List Event → Prop where
  | nil : ParentsFirst f []
  | enter {es : List Event} {i : Nat} {n : Node} (h : ParentsFirst f es)
    (hnode : f.arena.get? (some i) = some n)
    (hparent : some i = f.root ∨ ∃ j, Enters es j ∧ f.arena.parent (some i) = some j) :
    ParentsFirst f (es ++ [.enter i n])
  | other {es : List Event} {e : Event} (h : ParentsFirst f es) (he : ∀ i n, e ≠ .enter i n) :
    ParentsFirst f (es ++ [e])

variable {f : SourceFile} {es : List Event}

theorem Enters.append {es' : List Event} {i : Nat} (h : Enters es i) : Enters (es ++ es') i := by
  obtain ⟨n, hn⟩ := h
  exact ⟨n, List.mem_append_left _ hn⟩

theorem ParentsFirst.steps {visit : NodeRef → Tour} {i : Nat} {ss : List Step}
    (h : f.ParentsFirst es) (hi : Enters es i)
    (htargets : ∀ j ∈ Step.targets ss, f.arena.parent (some j) = some i)
    (hvisit : ∀ es j, f.ParentsFirst es → Enters es i → f.arena.parent (some j) = some i →
      f.ParentsFirst (es ++ (visit (some j)).events))
    (hnone : (visit none).events = []) :
    f.ParentsFirst (es ++ (Tour.steps visit ss).events) := by
  induction ss generalizing es with
  | nil => simpa [Tour.steps] using h
  | cons s ss ih =>
    have hstep : f.ParentsFirst (es ++ (Tour.step visit s).events) := by
      cases s with
      | operator token => exact .other h (by simp)
      | operand token => exact .other h (by simp)
      | visit r =>
        cases r with
        | none => simpa [Tour.step, hnone] using h
        | some j => exact hvisit es j h hi (htargets j (by simp))
    have hrest := ih hstep hi.append fun j hj => htargets j ?_
    · unfold Tour.steps Tour.append
      split
      · exact hstep
      · simpa using hrest
    · cases s with
      | operator token => exact hj
      | operand token => exact hj
      | visit r => simp [hj]

theorem visit_of_hasParseError {i : Nat} {n : Node} (hn : f.arena.get? (some i) = some n)
    (herror : n.hasParseError = true) (levels : Nat) : f.visit levels (some i) = {} := by
  unfold visit
  simp [hn, herror]

theorem visit_of_missing {i : Nat} (hn : f.arena.get? (some i) = none) (levels : Nat) :
    f.visit levels (some i) = {} := by
  unfold visit
  simp [hn]

theorem events_visit {i : Nat} {n : Node} (hn : f.arena.get? (some i) = some n)
    (herror : n.hasParseError = false) (levels : Nat) :
    (f.visit (levels + 1) (some i)).events = .enter i n ::
      ((f.inside levels i n).append fun _ => { events := [.leave] }).events := by
  unfold visit
  simp only [hn, herror]
  rfl

theorem mem_children_of_mem_targets {i j : Nat} {n : Node} {inMapped : Bool}
    (hn : f.arena.get? (some i) = some n) (hj : j ∈ Step.targets (n.steps inMapped)) :
    j ∈ f.arena.children (some i) := by
  have hwalked : j ∈ n.payload.childrenIn fun part => !n.passes part := Node.mem_targets_steps.mp hj
  have hchild : j ∈ n.payload.children :=
    (n.payload.childrenIn_perm n.passes).mem_iff.mp (List.mem_append_left _ hwalked)
  simpa [Arena.children, hn] using hchild

theorem ParentsFirst.visit (htree : f.arena.IsTree) (levels : Nat) {i : Nat}
    (h : f.ParentsFirst es)
    (hparent : some i = f.root ∨ ∃ j, Enters es j ∧ f.arena.parent (some i) = some j) :
    f.ParentsFirst (es ++ (f.visit levels (some i)).events) := by
  induction levels generalizing es i with
  | zero =>
    have hnothing : (f.visit 0 (some i)).events = [] := by
      unfold SourceFile.visit
      split
      · split <;> rfl
      · rfl
    simpa [hnothing] using h
  | succ levels ih =>
    cases hn : f.arena.get? (some i) with
    | none => simpa [visit_of_missing hn] using h
    | some n =>
      cases herror : n.hasParseError with
      | true => simpa [visit_of_hasParseError hn herror] using h
      | false =>
        have hentered : f.ParentsFirst (es ++ [.enter i n]) := h.enter hn hparent
        have hinside : f.ParentsFirst (es ++ [.enter i n] ++ (f.inside levels i n).events) := by
          refine hentered.steps (i := i) ⟨n, by simp⟩ (fun j hj => ?_)
            (fun es' j h' hi hj => ih h' (.inr ⟨i, hi, hj⟩)) (by rw [visit_none])
          exact htree.parent_of_mem_children (mem_children_of_mem_targets hn hj)
        rw [events_visit hn herror]
        unfold Tour.append
        split
        · simpa using hinside
        · simpa using hinside.other (e := .leave) (by simp)

theorem parentsFirst_tour (htree : f.arena.IsTree) : f.ParentsFirst f.tour.events := by
  cases hroot : f.root with
  | none => simpa [tour, hroot, visit_none] using ParentsFirst.nil
  | some i =>
    have hvisit := ParentsFirst.nil.visit htree maxVisitDepth (.inl hroot.symm)
    rwa [List.nil_append, ← hroot] at hvisit

namespace ParentsFirst

theorem get?_of_mem (h : f.ParentsFirst es) {i : Nat} {n : Node} (hi : .enter i n ∈ es) :
    f.arena.get? (some i) = some n := by
  induction h with
  | nil => simp at hi
  | enter h hnode hparent ih =>
    rcases List.mem_append.mp hi with hi | hi
    · exact ih hi
    · obtain ⟨rfl, rfl⟩ := Event.enter.inj (List.mem_singleton.mp hi)
      exact hnode
  | other h he ih =>
    rcases List.mem_append.mp hi with hi | hi
    · exact ih hi
    · exact absurd (List.mem_singleton.mp hi).symm (he _ _)

theorem parent_of_enters (h : f.ParentsFirst es) {i : Nat} (hi : Enters es i) :
    some i = f.root ∨ ∃ j, Enters es j ∧ f.arena.parent (some i) = some j := by
  induction h generalizing i with
  | nil =>
    obtain ⟨n, hn⟩ := hi
    simp at hn
  | enter h hnode hparent ih =>
    obtain ⟨n, hn⟩ := hi
    rcases List.mem_append.mp hn with hn | hn
    · exact (ih ⟨n, hn⟩).imp_right fun ⟨j, hj, hparent⟩ => ⟨j, hj.append, hparent⟩
    · obtain ⟨rfl, rfl⟩ := Event.enter.inj (List.mem_singleton.mp hn)
      exact hparent.imp_right fun ⟨j, hj, hparent⟩ => ⟨j, hj.append, hparent⟩
  | other h he ih =>
    obtain ⟨n, hn⟩ := hi
    rcases List.mem_append.mp hn with hn | hn
    · exact (ih ⟨n, hn⟩).imp_right fun ⟨j, hj, hparent⟩ => ⟨j, hj.append, hparent⟩
    · exact absurd (List.mem_singleton.mp hn).symm (he _ _)

theorem exists_chain (h : f.ParentsFirst es) {i : Nat} (hi : Enters es i) :
    ∃ links, f.arena.parent^[links] (some i) = f.root := by
  induction h generalizing i with
  | nil =>
    obtain ⟨n, hn⟩ := hi
    simp at hn
  | enter h hnode hparent ih =>
    obtain ⟨n, hn⟩ := hi
    rcases List.mem_append.mp hn with hn | hn
    · exact ih ⟨n, hn⟩
    · obtain ⟨rfl, rfl⟩ := Event.enter.inj (List.mem_singleton.mp hn)
      rcases hparent with hroot | ⟨j, hj, hparent⟩
      · exact ⟨0, hroot⟩
      · obtain ⟨links, hchain⟩ := ih hj
        refine ⟨links + 1, ?_⟩
        rw [Function.iterate_succ_apply, hparent]
        exact hchain
  | other h he ih =>
    obtain ⟨n, hn⟩ := hi
    rcases List.mem_append.mp hn with hn | hn
    · exact ih ⟨n, hn⟩
    · exact absurd (List.mem_singleton.mp hn).symm (he _ _)

end ParentsFirst

end SourceFile

end SourceIndex
