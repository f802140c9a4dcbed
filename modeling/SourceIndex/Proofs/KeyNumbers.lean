import SourceIndex.Proofs.Resolution
import SourceIndex.Proofs.Sorting
import Mathlib.Logic.Function.Basic

/-! The numbers of keys. A key that is resolved during the visit of a file is numbered among the
keys of its spelling that were met on that visit, in whatever file these are. So the numbers of one
visit are different, but a number does not say of which visit it is. -/

namespace SourceIndex

open Memory World

namespace World

def spelling? (w : World) (key : NodeKey) : Option String :=
  match w.node? key with
  | some (f, n) => if n.isKey then some (f.nodeText n.payload.name) else none
  | none => none

def IsFile (w : World) (key : NodeKey) : Prop :=
  ∃ f n, w.node? key = some (f, n) ∧ n.kind = .sourceFile

variable {w : World} {key : NodeKey} {f : SourceFile} {n : Node}

theorem spelling?_of_isKey (hnode : w.node? key = some (f, n)) (hkey : n.isKey = true) :
    w.spelling? key = some (f.nodeText n.payload.name) := by
  simp [spelling?, hnode, hkey]

theorem spelling?_of_hasOwner (hnode : w.node? key = some (f, n)) (howned : n.hasOwner = true) :
    w.spelling? key = none := by
  have hkey : n.isKey = false := by
    simp only [Node.hasOwner, Bool.and_eq_true, Bool.not_eq_true'] at howned
    exact howned.2
  simp [spelling?, hnode, hkey]

theorem spelling?_of_isFile (h : w.IsFile key) : w.spelling? key = none := by
  obtain ⟨f, n, hnode, hkind⟩ := h
  simp [spelling?, hnode, Node.isKey, hkind]

theorem not_isFile_of_hasOwner (hnode : w.node? key = some (f, n)) (howned : n.hasOwner = true) :
    ¬ w.IsFile key := by
  rintro ⟨f', n', hnode', hkind⟩
  obtain ⟨rfl, rfl⟩ := node?_unique hnode hnode'
  simp [Node.hasOwner, hkind] at howned

end World

def Resolver.count (r : Resolver) (spelling : String) : Nat := (r.keyCounts.get? spelling).getD 0

/-- How a key came by its symbol: on which visit it was resolved, with which number, and which
symbol the root of its file had then. -/
structure Tag where
  visit : Nat
  number : Nat
  owner : Symbol

/-- The tags explain the symbols of the keys in the table. Keys of one spelling and one visit have
different numbers, and those of the current visit have been counted. -/
structure Tagged (w : World) (visit : Nat) (tags : NodeKey → Tag) (m : Memory) : Prop where
  symbol : ∀ key spelling s, w.spelling? key = some spelling → m.table.get? key = some s →
    s = (tags key).owner.extend ⟨.metadata, spelling ++ toString (tags key).number⟩
  owner : ∀ key f, w.program.file? key.file = some f → (w.spelling? key).isSome →
    (m.table.get? key).isSome → w.IsFile ⟨key.file, f.root⟩ →
    (∃ n, (tags key).owner = .fileLocal n) ∨
      m.table.get? ⟨key.file, f.root⟩ = some (tags key).owner
  visit_le : ∀ key, (w.spelling? key).isSome → (m.table.get? key).isSome →
    (tags key).visit ≤ visit
  counted : ∀ key spelling, w.spelling? key = some spelling → (m.table.get? key).isSome →
    (tags key).visit = visit → (tags key).number ≤ m.resolver.count spelling
  distinct : ∀ key key' spelling, w.spelling? key = some spelling →
    w.spelling? key' = some spelling → (m.table.get? key).isSome → (m.table.get? key').isSome →
    key ≠ key' → (tags key).visit = (tags key').visit → (tags key).number ≠ (tags key').number

/-- From `m` to `m'` some keys were resolved, with numbers above the counts in `m`. -/
structure Progress (w : World) (visit : Nat) (tags : NodeKey → Tag) (m : Memory)
    (tags' : NodeKey → Tag) (m' : Memory) : Prop where
  tagged : Tagged w visit tags' m'
  counts : ∀ spelling, m.resolver.count spelling ≤ m'.resolver.count spelling
  kept : ∀ key spelling, w.spelling? key = some spelling → (m'.table.get? key).isSome →
    ((m.table.get? key).isSome ∧ tags' key = tags key) ∨
      ((tags' key).visit = visit ∧ m.resolver.count spelling < (tags' key).number)
  files : ∀ key s, w.IsFile key → m.table.get? key = some s → m'.table.get? key = some s

variable {w : World} {visit : Nat} {tags tags₁ tags₂ : NodeKey → Tag} {m m₁ m₂ : Memory}
  {key : NodeKey} {f : SourceFile} {n : Node}

theorem Progress.trans (h : Progress w visit tags m tags₁ m₁)
    (h' : Progress w visit tags₁ m₁ tags₂ m₂) : Progress w visit tags m tags₂ m₂ where
  tagged := h'.tagged
  counts spelling := (h.counts spelling).trans (h'.counts spelling)
  kept key spelling hs hk := by
    rcases h'.kept key spelling hs hk with ⟨hk₁, heq⟩ | ⟨hvisit, hlt⟩
    · rw [heq]
      exact h.kept key spelling hs hk₁
    · exact .inr ⟨hvisit, (h.counts spelling).trans_lt hlt⟩
  files key s hfile hk := h'.files key s hfile (h.files key s hfile hk)

theorem Tagged.unchanged (h : Tagged w visit tags m) (htable : m₁.table = m.table)
    (hcounts : m₁.resolver.keyCounts = m.resolver.keyCounts) :
    Progress w visit tags m tags m₁ := by
  have hcount : ∀ spelling, m₁.resolver.count spelling = m.resolver.count spelling :=
    fun spelling => by rw [Resolver.count, Resolver.count, hcounts]
  refine ⟨⟨?_, ?_, ?_, ?_, ?_⟩, fun spelling => (hcount spelling).ge, fun key spelling hs hk => ?_,
    fun key s _ hk => ?_⟩
  · rw [htable]
    exact h.symbol
  · rw [htable]
    exact h.owner
  · rw [htable]
    exact h.visit_le
  · intro key spelling hs hk hvisit
    rw [hcount]
    exact h.counted key spelling hs (htable ▸ hk) hvisit
  · rw [htable]
    exact h.distinct
  · exact .inl ⟨htable ▸ hk, rfl⟩
  · rw [htable, hk]

theorem Memory.Heard.progress (hheard : Heard m m₁) (h : Tagged w visit tags m) :
    Progress w visit tags m tags m₁ :=
  h.unchanged hheard.table (by rw [hheard.resolver])

theorem Resolver.count_countKey (spelling spelling' : String) (m : Memory) :
    ((countKey spelling).run m).2.resolver.count spelling' =
      if spelling' = spelling then m.resolver.count spelling + 1
      else m.resolver.count spelling' := by
  change ((m.resolver.keyCounts.insert spelling _).get? spelling').getD 0 = _
  rw [Table.get?_insert]
  split <;> rfl

theorem Tagged.countKey (h : Tagged w visit tags m) (spelling : String) :
    Progress w visit tags m tags ((countKey spelling).run m).2 := by
  have hcount : ∀ spelling', m.resolver.count spelling' ≤
      ((Memory.countKey spelling).run m).2.resolver.count spelling' := by
    intro spelling'
    rw [Resolver.count_countKey]
    split
    · next heq => rw [heq]; omega
    · exact Nat.le_refl _
  exact ⟨⟨h.symbol, h.owner, h.visit_le, fun key spelling' hs hk hvisit =>
    (h.counted key spelling' hs hk hvisit).trans (hcount spelling'), h.distinct⟩, hcount,
    fun key _ _ hk => .inl ⟨hk, rfl⟩, fun _ _ _ hk => hk⟩

theorem Tagged.remember_other (h : Tagged w visit tags m) (hspelling : w.spelling? key = none)
    (hfile : ¬ w.IsFile key ∨ m.table.get? key = none) (s : Symbol) :
    Progress w visit tags m tags ((remember key s).run m).2 := by
  have hne : ∀ k, (w.spelling? k).isSome → k ≠ key := by
    rintro k hk rfl
    simp [hspelling] at hk
  have hget : ∀ k, k ≠ key → (m.table.insert key s).get? k = m.table.get? k :=
    fun k hk => Table.get?_insert_of_ne _ hk _
  have hfiles : ∀ k s', w.IsFile k → m.table.get? k = some s' →
      (m.table.insert key s).get? k = some s' := by
    intro k s' hk hs
    rw [hget k ?_, hs]
    rintro rfl
    rcases hfile with hfile | hfile
    · exact hfile hk
    · simp [hfile] at hs
  have hspelled : ∀ k spelling, w.spelling? k = some spelling →
      (m.table.insert key s).get? k = m.table.get? k :=
    fun k spelling hk => hget k (hne k (by rw [hk]; rfl))
  have hspelled' : ∀ k, (w.spelling? k).isSome →
      (m.table.insert key s).get? k = m.table.get? k := fun k hk => hget k (hne k hk)
  refine ⟨⟨?_, ?_, ?_, ?_, ?_⟩, fun _ => Nat.le_refl _, ?_, hfiles⟩
  · intro k spelling s' hk hs
    exact h.symbol k spelling s' hk (hspelled k spelling hk ▸ hs)
  · intro k f hf hk hs hroot
    rcases h.owner k f hf hk (hspelled' k hk ▸ hs) hroot with hlocal | htable
    · exact .inl hlocal
    · exact .inr (hfiles _ _ hroot htable)
  · intro k hk hs
    exact h.visit_le k hk (hspelled' k hk ▸ hs)
  · intro k spelling hk hs
    exact h.counted k spelling hk (hspelled k spelling hk ▸ hs)
  · intro k k' spelling hk hk' hs hs'
    exact h.distinct k k' spelling hk hk' (hspelled k spelling hk ▸ hs)
      (hspelled k' spelling hk' ▸ hs')
  · intro k spelling hk hs
    exact .inl ⟨hspelled k spelling hk ▸ hs, rfl⟩

/-- A key may be remembered with a number that has been counted and that no other key of its
spelling has on the same visit. -/
theorem Tagged.remember_fresh {spelling : String} {owner : Symbol} {number : Nat}
    (h : Tagged w visit tags m) (hspelling : w.spelling? key = some spelling)
    (hnumber : number ≤ m.resolver.count spelling)
    (hfresh : ∀ k, w.spelling? k = some spelling → (m.table.get? k).isSome →
      (tags k).visit = visit → (tags k).number ≠ number)
    (hroot : ∀ f, w.program.file? key.file = some f → w.IsFile ⟨key.file, f.root⟩ →
      (∃ n, owner = .fileLocal n) ∨ m.table.get? ⟨key.file, f.root⟩ = some owner) :
    Tagged w visit (Function.update tags key ⟨visit, number, owner⟩)
      ((remember key (owner.extend ⟨.metadata, spelling ++ toString number⟩)).run m).2 := by
  let s := owner.extend ⟨.metadata, spelling ++ toString number⟩
  let tags' := Function.update tags key ⟨visit, number, owner⟩
  have hkey : tags' key = ⟨visit, number, owner⟩ := Function.update_self ..
  have htags : ∀ k, k ≠ key → tags' k = tags k := fun k hk => Function.update_of_ne hk _ _
  have hself : (m.table.insert key s).get? key = some s := Table.get?_insert_self _ _ _
  have hget : ∀ k, k ≠ key → (m.table.insert key s).get? k = m.table.get? k :=
    fun k hk => Table.get?_insert_of_ne _ hk _
  change Tagged w visit tags' ((Memory.remember key s).run m).2
  refine ⟨?_, ?_, ?_, ?_, ?_⟩
  · intro k spelling' s' hk hs
    by_cases hne : k = key
    · subst hne
      obtain rfl := Option.some.inj (hspelling.symm.trans hk)
      rw [hkey]
      exact (Option.some.inj (hself.symm.trans hs)).symm
    · rw [htags k hne]
      exact h.symbol k spelling' s' hk (hget k hne ▸ hs)
  · intro k f hf hk hs hfile
    have hne : (⟨k.file, f.root⟩ : NodeKey) ≠ key := by
      rintro rfl
      simp [spelling?_of_isFile hfile] at hspelling
    change _ ∨ (m.table.insert key s).get? _ = _
    rw [hget _ hne]
    by_cases hne : k = key
    · subst hne
      rw [hkey]
      exact hroot f hf hfile
    · rw [htags k hne]
      exact h.owner k f hf hk (hget k hne ▸ hs) hfile
  · intro k hk hs
    by_cases hne : k = key
    · rw [hne, hkey]
    · rw [htags k hne]
      exact h.visit_le k hk (hget k hne ▸ hs)
  · intro k spelling' hk hs hvisit
    by_cases hne : k = key
    · subst hne
      obtain rfl := Option.some.inj (hspelling.symm.trans hk)
      rw [hkey]
      exact hnumber
    · rw [htags k hne] at hvisit ⊢
      exact h.counted k spelling' hk (hget k hne ▸ hs) hvisit
  · intro k k' spelling' hk hk' hs hs' hkk hvisit
    by_cases hne : k = key <;> by_cases hne' : k' = key
    · exact absurd (hne.trans hne'.symm) hkk
    · subst hne
      obtain rfl := Option.some.inj (hspelling.symm.trans hk)
      rw [hkey, htags k' hne'] at hvisit ⊢
      exact (hfresh k' hk' (hget k' hne' ▸ hs') hvisit.symm).symm
    · subst hne'
      obtain rfl := Option.some.inj (hspelling.symm.trans hk')
      rw [hkey, htags k hne] at hvisit ⊢
      exact hfresh k hk (hget k hne ▸ hs) hvisit
    · rw [htags k hne, htags k' hne'] at hvisit ⊢
      exact h.distinct k k' spelling' hk hk' (hget k hne ▸ hs) (hget k' hne' ▸ hs') hkk hvisit

/-- The number of a key is drawn first. What is resolved before the key is remembered takes greater
numbers of its spelling. -/
theorem Tagged.remember_key {spelling : String} {owner : Symbol} (h : Tagged w visit tags m)
    (hspelling : w.spelling? key = some spelling)
    (howner : Progress w visit tags ((Memory.countKey spelling).run m).2 tags₂ m₂)
    (hroot : ∀ f, w.program.file? key.file = some f → w.IsFile ⟨key.file, f.root⟩ →
      (∃ n, owner = .fileLocal n) ∨ m₂.table.get? ⟨key.file, f.root⟩ = some owner) :
    Progress w visit tags m
      (Function.update tags₂ key ⟨visit, m.resolver.count spelling + 1, owner⟩)
      ((remember key (owner.extend
        ⟨.metadata, spelling ++ toString (m.resolver.count spelling + 1)⟩)).run m₂).2 := by
  let number := m.resolver.count spelling + 1
  have hnumber : ((Memory.countKey spelling).run m).2.resolver.count spelling = number := by
    rw [Resolver.count_countKey, if_pos rfl]
  have hfresh : ∀ k, w.spelling? k = some spelling → (m₂.table.get? k).isSome →
      (tags₂ k).visit = visit → (tags₂ k).number ≠ number := by
    intro k hk hs hvisit
    rcases howner.kept k spelling hk hs with ⟨hs, heq⟩ | ⟨-, hlt⟩
    · have hle := h.counted k spelling hk hs (heq ▸ hvisit)
      rw [heq]
      omega
    · rw [hnumber] at hlt
      omega
  have hcounted : number ≤ m₂.resolver.count spelling := hnumber ▸ howner.counts spelling
  have hbefore := (h.countKey spelling).trans howner
  refine ⟨howner.tagged.remember_fresh hspelling hcounted hfresh hroot,
    hbefore.counts, ?_, ?_⟩
  · intro k spelling' hk hs
    by_cases hne : k = key
    · subst hne
      obtain rfl := Option.some.inj (hspelling.symm.trans hk)
      rw [Function.update_self]
      exact .inr ⟨rfl, Nat.lt_succ_self _⟩
    · rw [Function.update_of_ne hne]
      exact hbefore.kept k spelling' hk ((Table.isSome_get?_insert.mp hs).resolve_left hne)
  · intro k s' hfile hs
    refine (Table.get?_insert_of_ne _ ?_ _).trans (hbefore.files k s' hfile hs)
    rintro rfl
    simp [spelling?_of_isFile hfile] at hspelling

/-- A resolution leaves the symbol of a file known, also where it was cut off there. -/
theorem Resolves.known_of_isFile {mayCut : Prop} {links : Nat} {s : Symbol}
    (h : Resolves w mayCut links key m s m₁) (hfile : w.IsFile key) : m₁.known? key = some s := by
  obtain ⟨f, n, hnode, hkind⟩ := hfile
  have hasks : ∀ {m m₁ f n}, ¬ AsksOwner w key m f n m₁ :=
    fun hasks => not_isFile_of_hasOwner hasks.node hasks.hasOwner ⟨f, n, hnode, hkind⟩
  cases h with
  | known h => exact h
  | cut _ h =>
    have htable : ((newLocal key).run m).2.table.get? key = none := (known?_eq_none_iff.mp h).1
    have hlocal : ((newLocal key).run m).2.resolver.locals.get? key =
        some (m.resolver.lastLocal + 1) := Table.get?_insert_self _ _ _
    simp only [Memory.known?, htable, Resolver.local?, hlocal]
    rfl
  | missing _ hnode' => simp [hnode] at hnode'
  | block _ hnode' hblock =>
    obtain ⟨rfl, rfl⟩ := node?_unique hnode hnode'
    simp [hkind] at hblock
  | file => exact congrArg (· <|> _) (Table.get?_insert_self _ _ _)
  | counted _ hnode' hkey =>
    obtain ⟨rfl, rfl⟩ := node?_unique hnode hnode'
    simp [Node.isKey, hkind] at hkey
  | property _ hnode' howned =>
    exact absurd ⟨f, n, hnode, hkind⟩ (not_isFile_of_hasOwner hnode' howned)
  | orphan h => exact absurd h hasks
  | unowned h => exact absurd h hasks
  | container h => exact absurd h hasks
  | imported h => exact absurd h hasks
  | declared h => exact absurd h hasks
  | undeclared h => exact absurd h hasks

theorem AsksOwner.progress (hasks : AsksOwner w key m f n m₁) (h : Tagged w visit tags m) :
    Progress w visit tags m tags m₁ :=
  hasks.heard.progress h

theorem Tagged.remember_owned (h : Tagged w visit tags m₁) (hasks : AsksOwner w key m f n m₂)
    (s : Symbol) : Progress w visit tags m₁ tags ((remember key s).run m₁).2 :=
  h.remember_other (spelling?_of_hasOwner hasks.node hasks.hasOwner)
    (.inl (not_isFile_of_hasOwner hasks.node hasks.hasOwner)) s

theorem Tagged.newLocal (h : Tagged w visit tags m) (key : NodeKey) :
    Progress w visit tags m tags ((newLocal key).run m).2 :=
  h.unchanged rfl rfl

/-- One resolution keeps the tags of the keys that were resolved before, and tags the others. -/
theorem Resolves.progress {mayCut : Prop} {links : Nat} {s : Symbol}
    (h : Resolves w mayCut links key m s m₁) (hm : Tagged w visit tags m) :
    ∃ tags₁, Progress w visit tags m tags₁ m₁ := by
  induction h generalizing tags with
  | known => exact ⟨tags, hm.unchanged rfl rfl⟩
  | cut => exact ⟨tags, hm.newLocal _⟩
  | missing => exact ⟨tags, hm.unchanged rfl rfl⟩
  | block => exact ⟨tags, hm.unchanged rfl rfl⟩
  | @file _ key m f n _ _ h hnode hkind hpackage =>
    obtain ⟨-, rfl⟩ := Prod.mk.inj hpackage
    have hfile : w.IsFile key := ⟨f, n, hnode, hkind⟩
    have hp : Progress w visit tags m tags ((packageOf w.collaborators f.name).run m).2 :=
      hm.unchanged rfl rfl
    have hnone := (known?_eq_none_iff.mp h).1
    exact ⟨tags, hp.trans (hp.tagged.remember_other (spelling?_of_isFile hfile) (.inr hnone) _)⟩
  | counted h hnode hkey hnumber howner ih =>
    obtain ⟨rfl, rfl⟩ := Prod.mk.inj hnumber
    have hspelling := spelling?_of_isKey hnode hkey
    obtain ⟨tags₂, hp⟩ := ih (hm.countKey _).tagged
    refine ⟨_, hm.remember_key hspelling hp fun f' hf' hfile => ?_⟩
    obtain rfl := Option.some.inj ((node?_eq_some_iff.mp hnode).1.symm.trans hf')
    rcases known?_eq_some (howner.known_of_isFile hfile) with htable | ⟨number, -, rfl⟩
    · exact .inr htable
    · exact .inl ⟨number, rfl⟩
  | property _ _ _ htarget _ ih =>
    have hp := (setTarget?_spec htarget).2.progress hm
    obtain ⟨tags₁, hs⟩ := ih hp.tagged
    exact ⟨tags₁, hp.trans hs⟩
  | orphan hasks _ =>
    have hp := hasks.progress hm
    exact ⟨tags, hp.trans (hp.tagged.newLocal _)⟩
  | unowned hasks _ _ _ ih =>
    have hp := hasks.progress hm
    obtain ⟨tags₁, ho⟩ := ih hp.tagged
    exact ⟨tags₁, (hp.trans ho).trans (ho.tagged.newLocal _)⟩
  | container hasks _ _ _ ih =>
    have hp := hasks.progress hm
    obtain ⟨tags₁, ho⟩ := ih hp.tagged
    exact ⟨tags₁, (hp.trans ho).trans (ho.tagged.remember_owned hasks _)⟩
  | imported hasks _ _ _ himport _ ih ih' =>
    have hp := hasks.progress hm
    obtain ⟨tags₁, ho⟩ := ih hp.tagged
    have hi := (importTarget?_spec himport).2.progress ho.tagged
    obtain ⟨tags₂, hs⟩ := ih' hi.tagged
    exact ⟨tags₂, ((hp.trans ho).trans hi).trans hs⟩
  | declared hasks _ _ _ himport _ ih =>
    have hp := hasks.progress hm
    obtain ⟨tags₁, ho⟩ := ih hp.tagged
    have hi := (importTarget?_spec himport).2.progress ho.tagged
    exact ⟨tags₁, ((hp.trans ho).trans hi).trans (hi.tagged.remember_owned hasks _)⟩
  | undeclared hasks _ _ _ himport _ ih =>
    have hp := hasks.progress hm
    obtain ⟨tags₁, ho⟩ := ih hp.tagged
    have hi := (importTarget?_spec himport).2.progress ho.tagged
    exact ⟨tags₁, ((hp.trans ho).trans hi).trans (hi.tagged.newLocal _)⟩

structure Resolver.LocalsDistinct (r : Resolver) : Prop where
  le_lastLocal : ∀ key n, r.locals.get? key = some n → n ≤ r.lastLocal
  injective : ∀ key key' n, r.locals.get? key = some n → r.locals.get? key' = some n → key = key'

theorem Resolver.localsDistinct_empty : Resolver.LocalsDistinct {} :=
  ⟨by simp [Table.get?], by simp [Table.get?]⟩

theorem Resolver.LocalsDistinct.newLocal (h : m.resolver.LocalsDistinct) (key : NodeKey) :
    ((newLocal key).run m).2.resolver.LocalsDistinct := by
  have hnew : ∀ k, m.resolver.locals.get? k ≠ some (m.resolver.lastLocal + 1) := by
    intro k hk
    have hle := h.le_lastLocal k _ hk
    omega
  refine ⟨fun k n hk => ?_, fun k k' n hk hk' => ?_⟩
  · rcases eq_or_of_get?_newLocal hk with ⟨-, rfl⟩ | hk
    · exact Nat.le_refl _
    · exact (h.le_lastLocal k n hk).trans (Nat.le_succ _)
  · rcases eq_or_of_get?_newLocal hk with ⟨rfl, rfl⟩ | hk
    · rcases eq_or_of_get?_newLocal hk' with ⟨rfl, -⟩ | hk'
      · rfl
      · exact absurd hk' (hnew k')
    · rcases eq_or_of_get?_newLocal hk' with ⟨-, rfl⟩ | hk'
      · exact absurd hk (hnew k)
      · exact h.injective k k' n hk hk'

theorem Resolver.LocalsDistinct.heard (h : m.resolver.LocalsDistinct) (hheard : Heard m m₁) :
    m₁.resolver.LocalsDistinct :=
  hheard.resolver ▸ h

theorem Resolves.localsDistinct {mayCut : Prop} {links : Nat} {s : Symbol}
    (h : Resolves w mayCut links key m s m₁) (hm : m.resolver.LocalsDistinct) :
    m₁.resolver.LocalsDistinct := by
  induction h with
  | known => exact hm
  | cut => exact hm.newLocal _
  | missing => exact hm
  | block => exact hm
  | file _ _ _ hpackage =>
    obtain ⟨-, rfl⟩ := Prod.mk.inj hpackage
    exact hm
  | counted _ _ _ hnumber _ ih =>
    obtain ⟨-, rfl⟩ := Prod.mk.inj hnumber
    exact ih ⟨hm.le_lastLocal, hm.injective⟩
  | property _ _ _ htarget _ ih => exact ih (hm.heard (setTarget?_spec htarget).2)
  | orphan hasks _ => exact (hm.heard hasks.heard).newLocal _
  | unowned hasks _ _ _ ih => exact (ih (hm.heard hasks.heard)).newLocal _
  | container hasks _ _ _ ih => exact ih (hm.heard hasks.heard)
  | imported hasks _ _ _ himport _ ih ih' =>
    have hm₂ := ih (hm.heard hasks.heard)
    exact ih' (hm₂.heard (importTarget?_spec himport).2)
  | declared hasks _ _ _ himport _ ih =>
    have hm₂ := ih (hm.heard hasks.heard)
    have hm₃ := hm₂.heard (importTarget?_spec himport).2
    exact hm₃
  | undeclared hasks _ _ _ himport _ ih =>
    exact ((ih (hm.heard hasks.heard)).heard (importTarget?_spec himport).2).newLocal _

end SourceIndex
