import Mathlib.Order.Bounds.Defs
import SourceIndex.Proofs.Parents

/-! Climbing from parent to parent. Later nodes take over the children of earlier ones, so which
parent a node has in the end depends on all nodes that were added after it. But a link never leads
back to an earlier node, so a climb can only fail to end at a node that is its own parent. -/

namespace SourceIndex

namespace Arena

/-- The climb from the first node takes so many links. It ends at the second node, which is the
first one on the way without a parent. -/
inductive Climbs (a : Arena) : NodeRef → Nat → NodeRef → Prop where
  | stop {r : NodeRef} (h : a.parent r = none) : Climbs a r 0 r
  | link {r t : NodeRef} {p links : Nat} (h : a.parent r = some p)
    (hrest : Climbs a (some p) links t) : Climbs a r (links + 1) t

/-- On the way up there is a node that is its own parent. -/
def MeetsOwnParent (a : Arena) (r : NodeRef) : Prop :=
  ∃ links j, a.parent^[links] r = some j ∧ a.parent (some j) = some j

variable {a : Arena} {r t : NodeRef} {i j p links : Nat}

namespace Built

theorem exists_parent (h : a.Built) (hadopts : a.Adopts j i) : ∃ p, a.parent (some i) = some p := by
  induction h with
  | empty => simp [Adopts, children, get?, Arena.empty] at hadopts
  | @add a h kind start stop payload ih =>
    rw [h.parent_add]
    by_cases hnew : i ∈ payload.children ∧ i ≤ a.size
    · exact ⟨a.size, if_pos hnew⟩
    · rw [if_neg hnew]
      rcases (adopts_add ..).mp hadopts with hold | ⟨-, hnamed⟩
      · exact ih hold
      · exact absurd hnamed hnew
  | @addFlags a h r flags ih =>
    rw [parent_addFlags]
    unfold Adopts at hadopts ih
    rw [children_addFlags] at hadopts
    exact ih hadopts

theorem parent_eq_none_iff (h : a.Built) : a.parent (some i) = none ↔ ∀ j, ¬ a.Adopts j i := by
  constructor
  · intro hnone j hadopts
    obtain ⟨p, hparent⟩ := h.exists_parent hadopts
    simp [hnone] at hparent
  · intro hnone
    cases hparent : a.parent (some i) with
    | none => rfl
    | some p => exact absurd (h.parent_eq_some_iff.mp hparent).1 (hnone p)

theorem le_of_parent (h : a.Built) (hparent : a.parent (some i) = some p) : i ≤ p :=
  (h.parent_eq_some_iff.mp hparent).1.2

theorem lt_size_of_parent (h : a.Built) (hparent : a.parent r = some p) : p < a.size := by
  cases r with
  | none => cases hparent
  | some i => exact lt_size_of_mem_children (h.parent_eq_some_iff.mp hparent).1.1

theorem le_of_iterate_parent (h : a.Built) (hchain : a.parent^[links] (some i) = some j) :
    i ≤ j := by
  induction links generalizing i with
  | zero => exact (Option.some.inj hchain).le
  | succ links ih =>
    obtain ⟨p, hparent, hrest⟩ := exists_parent_of_iterate_succ hchain
    exact (h.le_of_parent hparent).trans (ih hrest)

theorem parent_of_cycle (h : a.Built) (hcycle : a.parent^[links + 1] (some i) = some i) :
    a.parent (some i) = some i := by
  obtain ⟨p, hparent, hback⟩ := exists_parent_of_iterate_succ hcycle
  have heq : p = i := Nat.le_antisymm (h.le_of_iterate_parent hback) (h.le_of_parent hparent)
  rw [hparent, heq]

end Built

theorem MeetsOwnParent.of_parent (hparent : a.parent r = some p)
    (hmeets : a.MeetsOwnParent (some p)) : a.MeetsOwnParent r := by
  obtain ⟨links, j, hchain, hself⟩ := hmeets
  refine ⟨links + 1, j, ?_, hself⟩
  rw [Function.iterate_succ_apply, hparent]
  exact hchain

namespace Climbs

theorem parent_eq_none (h : a.Climbs r links t) : a.parent t = none := by
  induction h with
  | stop h => exact h
  | link _ _ ih => exact ih

theorem not_meetsOwnParent (h : a.Climbs r links t) : ¬ a.MeetsOwnParent r := by
  rintro ⟨above, j, hchain, hself⟩
  induction h generalizing above with
  | @stop r hnone =>
    cases above with
    | zero =>
      obtain rfl : r = some j := hchain
      simp [hnone] at hself
    | succ above =>
      obtain ⟨p, hparent, -⟩ := exists_parent_of_iterate_succ hchain
      simp [hnone] at hparent
  | @link r t p links hparent hrest ih =>
    cases above with
    | zero =>
      -- the first link leads back to where it starts, so the rest of the climb begins there too
      obtain rfl : r = some j := hchain
      exact ih 0 (hparent.symm.trans hself)
    | succ above =>
      obtain ⟨q, hq, habove⟩ := exists_parent_of_iterate_succ hchain
      obtain rfl : p = q := Option.some.inj (hparent.symm.trans hq)
      exact ih above habove

end Climbs

theorem climbs_iff_of_parent_none (hnone : a.parent r = none) :
    a.Climbs r links t ↔ links = 0 ∧ t = r := by
  constructor
  · intro h
    cases h with
    | stop _ => exact ⟨rfl, rfl⟩
    | link hparent _ => simp [hnone] at hparent
  · rintro ⟨rfl, rfl⟩
    exact .stop hnone

theorem climbs_iff_of_parent_some (hparent : a.parent r = some p) :
    a.Climbs r links t ↔ ∃ rest, links = rest + 1 ∧ a.Climbs (some p) rest t := by
  constructor
  · intro h
    cases h with
    | stop hnone => simp [hnone] at hparent
    | link hq hrest =>
      obtain rfl := Option.some.inj (hparent.symm.trans hq)
      exact ⟨_, rfl, hrest⟩
  · rintro ⟨rest, rfl, hrest⟩
    exact .link hparent hrest

theorem climb_eq_some_iff {limit : Nat} :
    a.climb limit r = some t ↔ ∃ links ≤ limit, a.Climbs r links t := by
  induction limit generalizing r with
  | zero =>
    cases hparent : a.parent r with
    | none => simp [climb, hparent, climbs_iff_of_parent_none hparent, eq_comm]
    | some p => simp [climb, hparent, climbs_iff_of_parent_some hparent]
  | succ limit ih =>
    cases hparent : a.parent r with
    | none => simp [climb, hparent, climbs_iff_of_parent_none hparent, eq_comm]
    | some p =>
      simp only [climb, hparent, climbs_iff_of_parent_some hparent, ih]
      constructor
      · rintro ⟨rest, hle, hrest⟩
        exact ⟨rest + 1, Nat.succ_le_succ hle, rest, rfl, hrest⟩
      · rintro ⟨links, hle, rest, rfl, hrest⟩
        exact ⟨rest, Nat.le_of_succ_le_succ hle, hrest⟩

namespace Built

theorem lt_of_parent (h : a.Built) (hfree : ¬ a.MeetsOwnParent (some i))
    (hparent : a.parent (some i) = some p) : i < p := by
  have hne : i ≠ p := by
    rintro rfl
    exact hfree ⟨0, i, rfl, hparent⟩
  exact Nat.lt_of_le_of_ne (h.le_of_parent hparent) hne

theorem exists_climbs (h : a.Built) (hfree : ¬ a.MeetsOwnParent r) :
    ∃ links t, a.Climbs r links t := by
  cases r with
  | none => exact ⟨0, none, .stop rfl⟩
  | some i =>
    -- every link leads further up, and only so far
    induction hleft : a.size - i using Nat.strong_induction_on generalizing i with
    | _ left ih =>
      cases hparent : a.parent (some i) with
      | none => exact ⟨0, some i, .stop hparent⟩
      | some p =>
        have hlt := h.lt_of_parent hfree hparent
        have hsize := h.lt_size_of_parent hparent
        obtain ⟨links, t, hrest⟩ := ih (a.size - p) (by omega) p
          (fun hmeets => hfree (hmeets.of_parent hparent)) rfl
        exact ⟨links + 1, t, .link hparent hrest⟩

theorem exists_climbs_iff (h : a.Built) :
    (∃ links t, a.Climbs r links t) ↔ ¬ a.MeetsOwnParent r :=
  ⟨fun ⟨_, _, hclimbs⟩ => hclimbs.not_meetsOwnParent, h.exists_climbs⟩

theorem end_of_climbs (h : a.Built) (hclimbs : a.Climbs (some i) links t) :
    ∃ j, t = some j ∧ i + links ≤ j ∧ (i < a.size → j < a.size) := by
  induction links generalizing i with
  | zero =>
    cases hclimbs with
    | stop _ => exact ⟨i, rfl, le_rfl, id⟩
  | succ links ih =>
    have hfree := hclimbs.not_meetsOwnParent
    cases hclimbs with
    | link hparent hrest =>
      have hnext := h.lt_of_parent hfree hparent
      obtain ⟨j, rfl, habove, hlt⟩ := ih hrest
      exact ⟨j, rfl, by omega, fun _ => hlt (h.lt_size_of_parent hparent)⟩

theorem links_le_size (h : a.Built) (hclimbs : a.Climbs r links t) : links ≤ a.size := by
  cases hclimbs with
  | stop _ => exact Nat.zero_le _
  | link hparent hrest =>
    obtain ⟨j, -, habove, hlt⟩ := h.end_of_climbs hrest
    have hend := hlt (h.lt_size_of_parent hparent)
    omega

/-- The limit on the links cuts off no climb that would end. -/
theorem rootOf?_eq_some_iff (h : a.Built) :
    a.rootOf? r = some t ↔ ∃ links, a.Climbs r links t := by
  rw [rootOf?, climb_eq_some_iff]
  constructor
  · rintro ⟨links, -, hclimbs⟩
    exact ⟨links, hclimbs⟩
  · rintro ⟨links, hclimbs⟩
    exact ⟨links, h.links_le_size hclimbs, hclimbs⟩

theorem not_meetsOwnParent_of_smaller (h : a.Built)
    (hsmaller : ∀ i j, j ∈ a.children (some i) → j < i) : ¬ a.MeetsOwnParent r := by
  rintro ⟨links, j, -, hself⟩
  exact (hsmaller j j (h.parent_eq_some_iff.mp hself).1.1).false

end Built

/-- A call that adds a node or sets flags. -/
inductive Call where
  | node (kind : Kind) (start stop : Nat) (payload : Payload)
  | token (kind : Kind) (start stop : Nat)
  | identifier (kind : Kind) (text : String) (start stop : Nat)
  | literal (kind : Kind) (text : String) (start stop : Nat)
  | flags (r : NodeRef) (flags : Nat)

def apply (a : Arena) : Call → Arena
  | .node kind start stop payload => a.add kind start stop payload
  | .token kind start stop => a.add kind start stop .bare
  | .identifier kind text start stop => a.add kind start stop (.identifier text)
  | .literal kind text start stop => a.add kind start stop (.literal text)
  | .flags r flags => a.addFlags r flags

def run (a : Arena) (calls : List Call) : Arena := calls.foldl apply a

theorem Built.apply (h : a.Built) (call : Call) : (a.apply call).Built := by
  cases call with
  | flags r flags => exact h.addFlags r flags
  | _ => exact h.add ..

theorem Built.run (h : a.Built) (calls : List Call) : (a.run calls).Built := by
  induction calls generalizing a with
  | nil => exact h
  | cons call calls ih => exact ih (h.apply call)

/-- Whatever calls an arena is built by, and whatever nodes they name, the parent of a node is the
last of the nodes from itself on that name it, if there are any. Links therefore never lead to an
earlier node, and the only cycles are nodes that are their own parents. A climb ends exactly if it
meets no such node, and the root is where it ends: after no more links than there are nodes, at a
node without a parent. Where nodes only name earlier ones, all climbs end. -/
theorem parent_is_last_adopter (calls : List Call) :
    let a := Arena.empty.run calls
    (∀ i j, a.parent (some i) = some j ↔ IsGreatest {k | a.Adopts k i} j) ∧
    (∀ i, a.parent (some i) = none ↔ ∀ k, ¬ a.Adopts k i) ∧
    (∀ links i j, a.parent^[links] (some i) = some j → i ≤ j) ∧
    (∀ links i, a.parent^[links + 1] (some i) = some i → a.parent (some i) = some i) ∧
    (∀ r, (∃ links t, a.Climbs r links t) ↔ ¬ a.MeetsOwnParent r) ∧
    (∀ r t, a.rootOf? r = some t ↔ ∃ links, a.Climbs r links t) ∧
    (∀ r links t, a.Climbs r links t → links ≤ a.size ∧ a.parent t = none) ∧
    (∀ i links t, i < a.size → a.Climbs (some i) links t →
      ∃ j, t = some j ∧ i + links ≤ j ∧ j < a.size) ∧
    ((∀ i j, j ∈ a.children (some i) → j < i) → ∀ r, ∃ links t, a.Climbs r links t) := by
  intro a
  have hbuilt : a.Built := Built.empty.run calls
  refine ⟨fun i j => hbuilt.parent_eq_some_iff, fun i => hbuilt.parent_eq_none_iff,
    fun links i j hchain => hbuilt.le_of_iterate_parent hchain,
    fun links i hcycle => hbuilt.parent_of_cycle hcycle, fun r => hbuilt.exists_climbs_iff,
    fun r t => hbuilt.rootOf?_eq_some_iff, ?_, ?_, ?_⟩
  · intro r links t hclimbs
    exact ⟨hbuilt.links_le_size hclimbs, hclimbs.parent_eq_none⟩
  · intro i links t hi hclimbs
    obtain ⟨j, rfl, hle, hlt⟩ := hbuilt.end_of_climbs hclimbs
    exact ⟨j, rfl, hle, hlt hi⟩
  · intro hsmaller r
    exact hbuilt.exists_climbs (hbuilt.not_meetsOwnParent_of_smaller hsmaller)

/-- A statement around a name, then a block that takes the name over, twice, and names two nodes
that are not there yet, and a block that takes over the statement and itself. -/
def takenOver : List Call :=
  [.identifier .identifier "x" 0 1,
    .node .expressionStatement 0 1 (.statement (.expression (some 0))),
    .node .block 0 1 (.statement (.block [some 0, none, some 0, some 3, some 9])),
    .flags (some 1) Node.errorFlag,
    .node .block 0 1 (.statement (.block [some 3, some 1]))]

theorem takenOver_climbs :
    let a := Arena.empty.run takenOver
    let before := Arena.empty.run (takenOver.take 2)
    IsGreatest {k | a.Adopts k 0} 2 ∧ (∀ k, ¬ a.Adopts k 2) ∧ a.rootOf? (some 0) = some (some 2) ∧
      (¬ ∃ links t, a.Climbs (some 1) links t) ∧
      before.rootOf? (some 0) = some (some 1) ∧ ∀ r, ∃ links t, before.Climbs r links t := by
  intro a before
  obtain ⟨hsome, hnone, -, -, hends, -⟩ := parent_is_last_adopter takenOver
  obtain ⟨-, -, -, -, -, -, -, -, hall⟩ := parent_is_last_adopter (takenOver.take 2)
  refine ⟨(hsome 0 2).mp rfl, (hnone 2).mp rfl, rfl, ?_, rfl, hall ?_⟩
  · intro hclimbs
    exact (hends (some 1)).mp hclimbs ⟨1, 3, rfl, rfl⟩
  · intro i j hj
    have hi : i < 2 := lt_size_of_mem_children hj
    obtain rfl | rfl : i = 0 ∨ i = 1 := by omega
    · cases hj
    · have hname : j = 0 := List.mem_singleton.mp hj
      omega

end Arena

end SourceIndex
