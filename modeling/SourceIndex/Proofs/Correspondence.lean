import SourceIndex.Proofs.Resolution

/-! Two worlds that are resolved in step. Nodes of the one correspond to nodes of the other, and so
do the memories; if everything that a single rule does respects this, then so does a resolution,
whatever the number of links. -/

namespace SourceIndex

open Memory

/-- Nodes correspond by `K` and memories by `R`, and each rule keeps that. -/
structure World.Corresponds (w w' : World) (K : NodeKey → NodeKey → Prop)
    (R : Memory → Memory → Prop) : Prop where
  node? : ∀ {key key'}, K key key' → w'.node? key' = w.node? key
  node : ∀ {key key'}, K key key' → key'.node = key.node
  inFile : ∀ {key key'}, K key key' → ∀ r, K ⟨key.file, r⟩ ⟨key'.file, r⟩
  known? : ∀ {m m' key key'}, R m m' → K key key' → m'.known? key' = m.known? key
  remember : ∀ {key key'}, K key key' → ∀ s, InStep R Eq (remember key s) (remember key' s)
  newLocal : ∀ {key key'}, K key key' → InStep R Eq (newLocal key) (newLocal key')
  countKey : ∀ spelling, InStep R Eq (countKey spelling) (countKey spelling)
  packageOf : ∀ name,
    InStep R Eq (packageOf w.collaborators name) (packageOf w'.collaborators name)
  setTarget? : ∀ {key key'}, K key key' → ∀ f n,
    InStep R (Option.Rel K) (w.setTarget? f n key) (w'.setTarget? f n key')
  importTarget? : ∀ {key key'}, K key key' → ∀ n,
    InStep R (Option.Rel K) (w.importTarget? n key) (w'.importTarget? n key')

namespace World.Corresponds

variable {w w' : World} {K : NodeKey → NodeKey → Prop} {R : Memory → Memory → Prop}
  {key key' : NodeKey} {other other' : NodeKey → StateM Memory Symbol}

theorem resolveOwned (h : w.Corresponds w' K R)
    (hother : ∀ k k', K k k' → InStep R Eq (other k) (other' k')) (hkey : K key key')
    (f : SourceFile) (n : Node) (owner : Symbol) :
    InStep R Eq (w.resolveOwned other key f n owner) (w'.resolveOwned other' key' f n owner) := by
  cases hc : n.isContainer with
  | true =>
    rw [resolveOwned_container hc, resolveOwned_container hc]
    exact h.remember hkey owner
  | false =>
    rw [resolveOwned_declaration hc, resolveOwned_declaration hc]
    refine (h.importTarget? hkey n).bind fun target target' ht => ?_
    cases ht with
    | some hk => exact hother _ _ hk
    | none =>
      cases descriptor? f n with
      | some d => exact h.remember hkey _
      | none => exact h.newLocal hkey

theorem resolveBelow (h : w.Corresponds w' K R)
    (hother : ∀ k k', K k k' → InStep R Eq (other k) (other' k')) (hkey : K key key')
    (f : SourceFile) (n : Node) :
    InStep R Eq (w.resolveBelow other key f n) (w'.resolveBelow other' key' f n) := by
  unfold World.resolveBelow
  rw [h.node hkey]
  cases f.arena.parent key.node with
  | none => exact h.newLocal hkey
  | some parent =>
    refine (hother _ _ (h.inFile hkey (some parent))).bind_eq fun owner => ?_
    cases owner with
    | global text => exact h.resolveOwned hother hkey f n _
    | empty => exact h.newLocal hkey
    | fileLocal k => exact h.newLocal hkey

theorem resolveByRules (h : w.Corresponds w' K R)
    (hother : ∀ k k', K k k' → InStep R Eq (other k) (other' k')) (hkey : K key key') :
    InStep R Eq (w.resolveByRules other key) (w'.resolveByRules other' key') := by
  rcases w.kinds key with hnode | ⟨f, n, hnode, hkind | hkind | hk | howned⟩
  · rw [resolveByRules_missing hnode, resolveByRules_missing (h.node? hkey ▸ hnode)]
    exact .pure rfl
  · rw [resolveByRules_block hnode hkind, resolveByRules_block (h.node? hkey ▸ hnode) hkind]
    exact .pure rfl
  · rw [resolveByRules_file hnode hkind, resolveByRules_file (h.node? hkey ▸ hnode) hkind]
    exact (h.packageOf f.name).bind_eq fun package => h.remember hkey _
  · rw [resolveByRules_key hnode hk, resolveByRules_key (h.node? hkey ▸ hnode) hk]
    refine (h.countKey _).bind_eq fun number => ?_
    exact (hother _ _ (h.inFile hkey f.root)).bind_eq fun owner => h.remember hkey _
  · rw [resolveByRules_owned hnode howned, resolveByRules_owned (h.node? hkey ▸ hnode) howned]
    refine (h.setTarget? hkey f n).bind fun target target' ht => ?_
    cases ht with
    | some hk => exact hother _ _ hk
    | none => exact h.resolveBelow hother hkey f n

theorem resolveWithin (h : w.Corresponds w' K R) (links : Nat) (hkey : K key key') :
    InStep R Eq (w.resolveWithin links key) (w'.resolveWithin links key') := by
  induction links generalizing key key' with
  | zero =>
    intro m m' hm
    cases hs : m.known? key with
    | some s =>
      rw [resolveWithin_known hs, resolveWithin_known (h.known? hm hkey ▸ hs)]
      exact ⟨rfl, hm⟩
    | none =>
      rw [resolveWithin_zero hs, resolveWithin_zero (h.known? hm hkey ▸ hs)]
      exact h.newLocal hkey m m' hm
  | succ links ih =>
    intro m m' hm
    cases hs : m.known? key with
    | some s =>
      rw [resolveWithin_known hs, resolveWithin_known (h.known? hm hkey ▸ hs)]
      exact ⟨rfl, hm⟩
    | none =>
      rw [resolveWithin_succ hs, resolveWithin_succ (h.known? hm hkey ▸ hs)]
      exact h.resolveByRules (fun k k' hk => ih hk) hkey m m' hm

theorem resolve (h : w.Corresponds w' K R) (maxDepth : Nat) (hkey : K key key') :
    InStep R Eq (w.resolve maxDepth key) (w'.resolve maxDepth key') :=
  h.resolveWithin (maxDepth + 1) hkey

end World.Corresponds

end SourceIndex
