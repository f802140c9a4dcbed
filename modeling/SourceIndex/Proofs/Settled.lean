import SourceIndex.Proofs.Memoised

/-! What is left to do when a node is resolved again: nothing, as long as no chain of owners is too
long. Some symbols are not remembered under the node itself, but then those are that it depends
on. -/

namespace SourceIndex

open Memory World

/-- All that a node needs is remembered, so that asking again finds nothing new. -/
inductive Settled (w : World) (package : String → Option Symbol) (m : Memory) : NodeKey → Prop where
  | known {key} (h : (m.known? key).isSome) : Settled w package m key
  | missing {key} (hnode : w.node? key = none) : Settled w package m key
  | block {key f n} (hnode : w.node? key = some (f, n)) (hkind : n.kind = .block) :
    Settled w package m key
  | property {key f n target} (hnode : w.node? key = some (f, n)) (howned : n.hasOwner = true)
    (hproperty : w.declaredProperty? f n key = some target) (hs : Settled w package m target) :
    Settled w package m key
  | imported {key f n parent pieces target} (hnode : w.node? key = some (f, n))
    (howned : n.hasOwner = true) (hproperty : w.declaredProperty? f n key = none)
    (hparent : f.arena.parent key.node = some parent)
    (howner : Settled w package m ⟨key.file, some parent⟩)
    (hglobal : w.Means package ⟨key.file, some parent⟩ (.global pieces))
    (hcontainer : n.isContainer = false) (himport : w.declaredImport? n key = some target)
    (hs : Settled w package m target) : Settled w package m key

section Settled

variable {w : World} {package : String → Option Symbol} {labels : NodeKey → Label}
  {links : Nat} {key : NodeKey} {m m₀ m' : Memory} {s : Symbol}

theorem Settled.mono (hknown : ∀ k, (m.known? k).isSome → (m'.known? k).isSome)
    (h : Settled w package m key) : Settled w package m' key := by
  induction h with
  | known h => exact .known (hknown _ h)
  | missing hnode => exact .missing hnode
  | block hnode hkind => exact .block hnode hkind
  | property hnode howned hproperty _ ih => exact .property hnode howned hproperty ih
  | imported hnode howned hproperty hparent _ hglobal hcontainer himport _ ih ih' =>
    exact .imported hnode howned hproperty hparent ih hglobal hcontainer himport ih'

theorem Memory.Extends.known?_isSome {labels' : NodeKey → Label}
    (h : Extends w package labels key labels' m m') (k : NodeKey) (hk : (m.known? k).isSome) :
    (m'.known? k).isSome := by
  rw [known?_isSome_iff] at hk ⊢
  rcases hk with hk | hk
  · exact .inl (h.isSome_table hk)
  · obtain ⟨n, hn⟩ := Option.isSome_iff_exists.mp hk
    exact .inr (by rw [h.locals k n hn]; rfl)

theorem Memory.remember_known (key : NodeKey) (s : Symbol) (m : Memory) :
    (((remember key s).run m).2.known? key).isSome :=
  known?_isSome_iff.mpr (.inl (Table.isSome_get?_insert.mpr (.inl rfl)))

theorem Memory.newLocal_known (key : NodeKey) (m : Memory) :
    (((newLocal key).run m).2.known? key).isSome :=
  known?_isSome_iff.mpr (.inr (Table.isSome_get?_insert.mpr (.inl rfl)))

/-- A node that has been resolved is settled. -/
theorem Resolves.settled (hp : w.FixedPackages package) (h : Resolves w False links key m s m')
    (hm : m.Sound w package labels) : Settled w package m' key := by
  induction h generalizing labels with
  | known h => exact .known (by rw [h]; rfl)
  | cut hcut => exact hcut.elim
  | missing _ hnode => exact .missing hnode
  | block _ hnode hkind => exact .block hnode hkind
  | file => exact .known (remember_known _ _ _)
  | counted => exact .known (remember_known _ _ _)
  | property _ hnode howned htarget _ ih =>
    obtain ⟨hproperty, hheard⟩ := setTarget?_spec htarget
    exact .property hnode howned hproperty.symm (ih (hm.congr hheard.sameSymbols))
  | orphan => exact .known (newLocal_known _ _)
  | unowned => exact .known (newLocal_known _ _)
  | container => exact .known (remember_known _ _ _)
  | imported hasks hparent howner hcontainer himport hs ih ih' =>
    have hm₁ := hm.congr hasks.sameSymbols
    obtain ⟨labels', hfinds⟩ := howner.finds hp hm₁
    obtain ⟨ν, hν, -, hfits⟩ := hfinds.answers
    obtain ⟨pieces, rfl, -⟩ := hfits.global_iff
    obtain ⟨hdeclared, hheard⟩ := importTarget?_spec himport
    have hm₃ := hfinds.sound.congr hheard.sameSymbols
    obtain ⟨labels'', hfinds'⟩ := hs.finds hp hm₃
    refine .imported hasks.node hasks.hasOwner hasks.declaredProperty? hparent
      ((ih hm₁).mono fun k hk => ?_) hν hcontainer hdeclared.symm (ih' hm₃)
    exact hfinds'.grows.known?_isSome k ((hheard.known? k).symm ▸ hk)
  | declared => exact .known (remember_known _ _ _)
  | undeclared => exact .known (newLocal_known _ _)

theorem Settled.of_unknown {f : SourceFile} {n : Node} (h : Settled w package m key)
    (hunknown : m.known? key = none) (hnode : w.node? key = some (f, n)) :
    n.kind = .block ∨
      (n.hasOwner = true ∧ ∃ target, w.declaredProperty? f n key = some target ∧
        Settled w package m target) ∨
      (n.hasOwner = true ∧ w.declaredProperty? f n key = none ∧ n.isContainer = false ∧
        ∃ parent pieces target, f.arena.parent key.node = some parent ∧
          Settled w package m ⟨key.file, some parent⟩ ∧
          w.Means package ⟨key.file, some parent⟩ (.global pieces) ∧
          w.declaredImport? n key = some target ∧ Settled w package m target) := by
  cases h with
  | known h => simp [hunknown] at h
  | missing hnode' => simp [hnode] at hnode'
  | block hnode' hkind =>
    obtain ⟨rfl, rfl⟩ := node?_unique hnode hnode'
    exact .inl hkind
  | property hnode' howned hproperty hs =>
    obtain ⟨rfl, rfl⟩ := node?_unique hnode hnode'
    exact .inr (.inl ⟨howned, _, hproperty, hs⟩)
  | imported hnode' howned hproperty hparent howner hglobal hcontainer himport hs =>
    obtain ⟨rfl, rfl⟩ := node?_unique hnode hnode'
    exact .inr (.inr
      ⟨howned, hproperty, hcontainer, _, _, _, hparent, howner, hglobal, himport, hs⟩)

/-- A settled node that asks its owner is an import. -/
theorem Settled.of_asks {f : SourceFile} {n : Node} {m₁ : Memory} (h : Settled w package m₀ key)
    (hsame : SameSymbols m₀ m) (hasks : AsksOwner w key m f n m₁) :
    ∃ parent pieces target, f.arena.parent key.node = some parent ∧
      Settled w package m₀ ⟨key.file, some parent⟩ ∧
      w.Means package ⟨key.file, some parent⟩ (.global pieces) ∧ n.isContainer = false ∧
      w.declaredImport? n key = some target ∧ Settled w package m₀ target := by
  have hunknown := (hsame.known? key).symm.trans hasks.unknown
  rcases h.of_unknown hunknown hasks.node with hblock | ⟨-, target, htarget, -⟩ |
    ⟨-, -, hcontainer, parent, pieces, target, hparent, howner, hglobal, himport, hs⟩
  · have howned := hasks.hasOwner
    simp [Node.hasOwner, hblock] at howned
  · simp [hasks.declaredProperty?] at htarget
  · exact ⟨parent, pieces, target, hparent, howner, hglobal, hcontainer, himport, hs⟩

structure Memory.Unchanged (m m' : Memory) : Prop where
  table : m'.table = m.table
  resolver : m'.resolver = m.resolver

theorem Memory.Unchanged.sameSymbols (h : Unchanged m m') : SameSymbols m m' :=
  ⟨h.table, by rw [h.resolver]⟩

theorem Memory.Unchanged.heard {m'' : Memory} (h : Unchanged m m') (h' : Heard m' m'') :
    Unchanged m m'' :=
  ⟨h'.table.trans h.table, h'.resolver.trans h.resolver⟩

/-- Resolving a settled node leaves the memory as it is. -/
theorem Resolves.unchanged (hp : w.FixedPackages package) (hm₀ : m₀.Sound w package labels)
    (h : Resolves w False links key m s m') (hm : Unchanged m₀ m)
    (hsettled : Settled w package m₀ key) : Unchanged m₀ m' := by
  induction h with
  | known => exact hm
  | cut hcut => exact hcut.elim
  | missing => exact hm
  | block => exact hm
  | @file _ key _ _ n _ _ h hnode hkind =>
    have hunknown := (hm.sameSymbols.known? key).symm.trans h
    rcases hsettled.of_unknown hunknown hnode with hblock | ⟨howned, -⟩ | ⟨howned, -⟩
    · simp [hkind] at hblock
    · simp [Node.hasOwner, hkind] at howned
    · simp [Node.hasOwner, hkind] at howned
  | @counted _ key _ _ n _ _ _ _ h hnode hkey =>
    have hunknown := (hm.sameSymbols.known? key).symm.trans h
    rcases hsettled.of_unknown hunknown hnode with hblock | ⟨howned, -⟩ | ⟨howned, -⟩
    · simp [Node.isKey, hblock] at hkey
    · simp [Node.hasOwner, hkey] at howned
    · simp [Node.hasOwner, hkey] at howned
  | @property _ key _ _ n _ _ _ _ h hnode howned htarget _ ih =>
    have hunknown := (hm.sameSymbols.known? key).symm.trans h
    obtain ⟨hproperty, hheard⟩ := setTarget?_spec htarget
    rcases hsettled.of_unknown hunknown hnode with
      hblock | ⟨-, target, htarget', hs⟩ | ⟨-, hnone, -⟩
    · simp [Node.hasOwner, hblock] at howned
    · obtain rfl := Option.some.inj (hproperty.trans htarget')
      exact ih (hm.heard hheard) hs
    · simp [hnone] at hproperty
  | @orphan _ key _ _ n _ hasks hparent =>
    obtain ⟨parent, _, _, hparent', -⟩ := hsettled.of_asks hm.sameSymbols hasks
    simp [hparent] at hparent'
  | @unowned _ key _ _ n _ _ owner _ hasks hparent howner hlocal =>
    obtain ⟨parent, pieces, _, hparent', -, hglobal, -⟩ := hsettled.of_asks hm.sameSymbols hasks
    obtain rfl := Option.some.inj (hparent.symm.trans hparent')
    have hm₁ := hm.heard hasks.heard
    obtain ⟨labels', hfinds⟩ := howner.finds hp (hm₀.congr hm₁.sameSymbols)
    obtain ⟨ν, hν, -, hfits⟩ := hfinds.answers
    obtain rfl := hν.unique hglobal
    exact absurd hfits (hlocal _)
  | container hasks _ _ hcontainer =>
    obtain ⟨_, _, _, -, -, -, hcontainer', -⟩ := hsettled.of_asks hm.sameSymbols hasks
    simp [hcontainer] at hcontainer'
  | imported hasks hparent _ _ himport _ ih ih' =>
    obtain ⟨parent, pieces, target, hparent', howner', -, -, himport', hs'⟩ :=
      hsettled.of_asks hm.sameSymbols hasks
    obtain rfl := Option.some.inj (hparent.symm.trans hparent')
    obtain ⟨hdeclared, hheard⟩ := importTarget?_spec himport
    obtain rfl := Option.some.inj (hdeclared.trans himport')
    have hm₂ := ih (hm.heard hasks.heard) howner'
    exact ih' (hm₂.heard hheard) hs'
  | declared hasks _ _ _ himport =>
    obtain ⟨_, _, _, -, -, -, -, himport', -⟩ := hsettled.of_asks hm.sameSymbols hasks
    simp [← (importTarget?_spec himport).1] at himport'
  | undeclared hasks _ _ _ himport =>
    obtain ⟨_, _, _, -, -, -, -, himport', -⟩ := hsettled.of_asks hm.sameSymbols hasks
    simp [← (importTarget?_spec himport).1] at himport'

end Settled

end SourceIndex
