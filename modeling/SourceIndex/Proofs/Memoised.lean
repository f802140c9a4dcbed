import SourceIndex.Proofs.Meaning
import SourceIndex.Proofs.Sorting

/-! Remembering does not change what is found. What a memory holds are meanings, with the gaps
filled when a key was first resolved. As long as no chain of owners is too long, a resolution only
adds such entries, and only for nodes that it needs; it never needs the node at which it is. -/

namespace SourceIndex

open Memory World

/-- The symbol is what the meaning says, given what fills the gaps and the local symbols made. -/
def Meaning.Fits (labels : NodeKey → Label) (locals : Table NodeKey Nat) : Meaning → Symbol → Prop
  | .empty, s => s = .empty
  | .given n, s => s = .fileLocal n
  | .fileLocal home, s => ∃ n, locals.get? home = some n ∧ s = .fileLocal n
  | .global pieces, s => s = .global (Piece.fillAll labels pieces)

namespace Meaning.Fits

variable {labels labels' : NodeKey → Label} {locals locals' : Table NodeKey Nat} {μ : Meaning}
  {s s' : Symbol}

theorem unique (h : μ.Fits labels locals s) (h' : μ.Fits labels locals s') : s = s' := by
  cases μ with
  | fileLocal home =>
    obtain ⟨n, hn, rfl⟩ := h
    obtain ⟨n', hn', rfl⟩ := h'
    rw [hn] at hn'
    rw [Option.some.inj hn']
  | empty => exact Eq.trans h h'.symm
  | given n => exact Eq.trans h h'.symm
  | global pieces => exact Eq.trans h h'.symm

theorem mono (h : μ.Fits labels locals s) (hlabels : ∀ k ∈ μ.keys, labels' k = labels k)
    (hlocals : ∀ k n, locals.get? k = some n → locals'.get? k = some n) :
    μ.Fits labels' locals' s := by
  cases μ with
  | fileLocal home =>
    obtain ⟨n, hn, rfl⟩ := h
    exact ⟨n, hlocals home n hn, rfl⟩
  | global pieces =>
    have hfill : Piece.fillAll labels' pieces = Piece.fillAll labels pieces :=
      Piece.fillAll_congr fun p hp => Piece.fill_congr fun k hk =>
        hlabels k (List.mem_filterMap.mpr ⟨p, hp, hk⟩)
    exact Eq.trans h (congrArg Symbol.global hfill.symm)
  | empty => exact h
  | given n => exact h

theorem global_iff {text : String} (h : μ.Fits labels locals (.global text)) :
    ∃ pieces, μ = .global pieces ∧ text = Piece.fillAll labels pieces := by
  cases μ with
  | global pieces => exact ⟨pieces, rfl, Symbol.global.inj h⟩
  | empty => exact Symbol.noConfusion h
  | given n => exact Symbol.noConfusion h
  | fileLocal home =>
    obtain ⟨n, -, h⟩ := h
    exact Symbol.noConfusion h

end Meaning.Fits

/-- The package of a file is the same at every question. -/
def World.FixedPackages (w : World) (package : String → Option Symbol) : Prop :=
  ∀ file cache, ((w.collaborators.package file).run cache).1 = package file

section Sound

variable (w : World) (package : String → Option Symbol) (labels : NodeKey → Label)

/-- What the table says of a node fits its meaning, which is not that of a local symbol, and the
keys in its text are in the table. -/
def SymbolTable.Sound (t : SymbolTable) : Prop :=
  ∀ key s, t.get? key = some s → ∃ μ, w.Means package key μ ∧ (∀ home, μ ≠ .fileLocal home) ∧
    (∀ k ∈ μ.keys, (t.get? k).isSome) ∧ μ.Fits labels {} s

def Resolver.Sound (r : Resolver) : Prop :=
  ∀ key n, r.locals.get? key = some n → w.Means package key (.fileLocal key)

structure Memory.Sound (m : Memory) : Prop where
  table : m.table.Sound w package labels
  resolver : m.resolver.Sound w package

/-- The symbol is that of the node's meaning, and the keys in its text are in the table. -/
def Memory.Answers (m : Memory) (key : NodeKey) (s : Symbol) : Prop :=
  ∃ μ, w.Means package key μ ∧ (∀ k ∈ μ.keys, (m.table.get? k).isSome) ∧
    μ.Fits labels m.resolver.locals s

/-- The memory `m'` holds what `m` does, with the same labels, and beyond that only nodes that are
not deeper than `key`. -/
structure Memory.Extends (key : NodeKey) (labels' : NodeKey → Label) (m m' : Memory) : Prop where
  labels : ∀ k, (m.table.get? k).isSome → labels' k = labels k
  table : ∀ k s, m.table.get? k = some s → m'.table.get? k = some s
  locals : ∀ k n, m.resolver.locals.get? k = some n → m'.resolver.locals.get? k = some n
  new : ∀ k, (m'.known? k).isSome → (m.known? k).isSome ∨ w.NoDeeper package k key

end Sound

structure Memory.SameSymbols (m m' : Memory) : Prop where
  table : m'.table = m.table
  locals : m'.resolver.locals = m.resolver.locals

theorem Memory.Heard.sameSymbols {m m' : Memory} (h : Heard m m') : SameSymbols m m' :=
  ⟨h.table, by rw [h.resolver]⟩

theorem Memory.countKey_sameSymbols {spelling : String} {m m₁ : Memory} {number : Nat}
    (h : (countKey spelling).run m = (number, m₁)) : SameSymbols m m₁ := by
  obtain ⟨-, rfl⟩ := Prod.mk.inj h
  exact ⟨rfl, rfl⟩

namespace Memory

variable {w : World} {package : String → Option Symbol} {labels labels' labels'' : NodeKey → Label}
  {key target k : NodeKey} {m m' m'' : Memory} {s : Symbol} {μ : Meaning}

theorem Sound.congr (h : m.Sound w package labels) (hsame : SameSymbols m m') :
    m'.Sound w package labels where
  table := hsame.table ▸ h.table
  resolver k n hk := h.resolver k n (hsame.locals ▸ hk)

theorem SameSymbols.known? (h : SameSymbols m m') (key : NodeKey) :
    m'.known? key = m.known? key := by
  rw [Memory.known?, Memory.known?, Resolver.local?, Resolver.local?, h.table, h.locals]

theorem SameSymbols.extends (h : SameSymbols m m') (labels : NodeKey → Label) (key : NodeKey) :
    Extends w package labels key labels m m' where
  labels _ _ := rfl
  table k s hk := by rw [h.table, hk]
  locals k n hk := by rw [h.locals, hk]
  new k hk := by
    rw [h.known?] at hk
    exact .inl hk

theorem Extends.weaken (h : Extends w package labels target labels' m m')
    (hdeep : w.NoDeeper package target key) : Extends w package labels key labels' m m' where
  labels := h.labels
  table := h.table
  locals := h.locals
  new k hk := (h.new k hk).imp_right fun hk => hk.trans hdeep

theorem Extends.trans (h : Extends w package labels key labels' m m')
    (h' : Extends w package labels' key labels'' m' m'') :
    Extends w package labels key labels'' m m'' where
  labels k hk := by
    obtain ⟨s, hs⟩ := Option.isSome_iff_exists.mp hk
    rw [h'.labels k (by rw [h.table k s hs]; rfl), h.labels k hk]
  table k s hk := h'.table k s (h.table k s hk)
  locals k n hk := h'.locals k n (h.locals k n hk)
  new k hk := by
    rcases h'.new k hk with hk | hdeep
    · exact h.new k hk
    · exact .inr hdeep

theorem Extends.isSome_table (h : Extends w package labels key labels' m m')
    (hk : (m.table.get? k).isSome) : (m'.table.get? k).isSome := by
  obtain ⟨s, hs⟩ := Option.isSome_iff_exists.mp hk
  rw [h.table k s hs]
  rfl

theorem Answers.extend (h : m.Answers w package labels k s)
    (he : Extends w package labels key labels' m m') : m'.Answers w package labels' k s := by
  obtain ⟨μ, hmeans, hkeys, hfits⟩ := h
  exact ⟨μ, hmeans, fun k hk => he.isSome_table (hkeys k hk),
    hfits.mono (fun k hk => he.labels k (hkeys k hk)) he.locals⟩

theorem Sound.answers (h : m.Sound w package labels) (hk : m.known? key = some s) :
    m.Answers w package labels key s := by
  rcases known?_eq_some hk with ht | ⟨n, hn, rfl⟩
  · obtain ⟨μ, hmeans, -, hkeys, hfits⟩ := h.table key s ht
    exact ⟨μ, hmeans, hkeys, hfits.mono (fun _ _ => rfl) fun k n hn => by simp [Table.get?] at hn⟩
  · exact ⟨.fileLocal key, h.resolver key n hn, by simp [Meaning.keys], n, hn, rfl⟩

/-- While a resolution asks about a node that it needs, nothing is found out about its own. -/
theorem Extends.unknown (h : Extends w package labels target labels' m m')
    (hasks : w.Asks package key target) (hmeans : w.Means package key μ)
    (hunknown : m.known? key = none) : m'.known? key = none := by
  by_contra hknown
  rcases h.new key (Option.isSome_iff_ne_none.mpr hknown) with hk | hdeep
  · rw [hunknown] at hk
    exact Bool.noConfusion hk
  · exact hasks.not_noDeeper hmeans hdeep

/-- What a resolution does to a memory: it finds the symbol of the node's meaning, and all that it
adds is sound. -/
structure Finds (w : World) (package : String → Option Symbol) (labels : NodeKey → Label)
    (key : NodeKey) (m : Memory) (labels' : NodeKey → Label) (s : Symbol) (m' : Memory) : Prop where
  sound : m'.Sound w package labels'
  grows : Extends w package labels key labels' m m'
  answers : m'.Answers w package labels' key s

theorem Finds.after (h : Finds w package labels' key m' labels'' s m'')
    (he : Extends w package labels key labels' m m') :
    Finds w package labels key m labels'' s m'' :=
  ⟨h.sound, he.trans h.grows, h.answers⟩

theorem Sound.newLocal (h : m.Sound w package labels)
    (hmeans : w.Means package key (.fileLocal key)) (hunknown : m.known? key = none) :
    Finds w package labels key m labels ((newLocal key).run m).1 ((newLocal key).run m).2 := by
  let n := m.resolver.lastLocal + 1
  have hnone := (known?_eq_none_iff.mp hunknown).2
  have hlocals : ((Memory.newLocal key).run m).2.resolver.locals =
      m.resolver.locals.insert key n := rfl
  have hself : (m.resolver.locals.insert key n).get? key = some n := Table.get?_insert_self _ _ _
  refine ⟨⟨h.table, fun k n' hk => ?_⟩, ⟨fun _ _ => rfl, fun _ _ hk => hk, fun k n' hk => ?_,
    fun k hk => ?_⟩, .fileLocal key, hmeans, by simp [Meaning.keys], n, hself, rfl⟩
  · rcases eq_or_of_get?_newLocal hk with ⟨rfl, -⟩ | hk
    · exact hmeans
    · exact h.resolver k n' hk
  · rw [hlocals, Table.get?_insert_of_ne _ (by rintro rfl; simp [hnone] at hk), hk]
  · rcases known?_isSome_iff.mp hk with hk | hk
    · exact .inl (known?_isSome_iff.mpr (.inl hk))
    · rw [hlocals] at hk
      rcases Table.isSome_get?_insert.mp hk with rfl | hk
      · exact .inr (.refl k)
      · exact .inl (known?_isSome_iff.mpr (.inr hk))

theorem Sound.remember (h : m.Sound w package labels) (hmeans : w.Means package key μ)
    (hglobal : ∀ home, μ ≠ .fileLocal home) (hunknown : m.known? key = none)
    (hlabels : ∀ k, (m.table.get? k).isSome → labels' k = labels k)
    (hkeys : ∀ k ∈ μ.keys, k = key ∨ (m.table.get? k).isSome) (hfits : μ.Fits labels' {} s) :
    Finds w package labels key m labels' s ((remember key s).run m).2 := by
  have hnone := (known?_eq_none_iff.mp hunknown).1
  have htable : ((Memory.remember key s).run m).2.table = m.table.insert key s := rfl
  have hkeys' : ∀ k ∈ μ.keys, ((m.table.insert key s).get? k).isSome :=
    fun k hk => Table.isSome_get?_insert.mpr (hkeys k hk)
  refine ⟨⟨fun k s' hk => ?_, h.resolver⟩, ⟨hlabels, fun k s' hk => ?_, fun _ _ hk => hk,
    fun k hk => ?_⟩, μ, hmeans, hkeys', hfits.mono (fun _ _ => rfl) ?_⟩
  · rcases eq_or_of_get?_remember hk with ⟨rfl, rfl⟩ | hk
    · exact ⟨μ, hmeans, hglobal, hkeys', hfits⟩
    · obtain ⟨ν, hν, hνglobal, hνkeys, hνfits⟩ := h.table k s' hk
      exact ⟨ν, hν, hνglobal, fun k hk => Table.isSome_get?_insert.mpr (.inr (hνkeys k hk)),
        hνfits.mono (fun k hk => hlabels k (hνkeys k hk)) fun _ _ hn => hn⟩
  · rw [htable, Table.get?_insert_of_ne _ (by rintro rfl; simp [hnone] at hk), hk]
  · rcases known?_isSome_iff.mp hk with hk | hk
    · rw [htable] at hk
      rcases Table.isSome_get?_insert.mp hk with rfl | hk
      · exact .inr (.refl k)
      · exact .inl (known?_isSome_iff.mpr (.inl hk))
    · exact .inl (known?_isSome_iff.mpr (.inr hk))
  · intro k n hn
    simp [Table.get?] at hn

end Memory

theorem AsksOwner.declaredProperty? {w : World} {key : NodeKey} {m m₁ : Memory} {f : SourceFile}
    {n : Node} (h : AsksOwner w key m f n m₁) : w.declaredProperty? f n key = none :=
  (setTarget?_spec h.target).1.symm

theorem AsksOwner.sameSymbols {w : World} {key : NodeKey} {m m₁ : Memory} {f : SourceFile}
    {n : Node} (h : AsksOwner w key m f n m₁) : SameSymbols m m₁ :=
  (setTarget?_spec h.target).2.sameSymbols

namespace Meaning

variable {labels labels' : NodeKey → Label} {locals : Table NodeKey Nat} {key k : NodeKey}
  {μ : Meaning} {s : Symbol}

theorem ofPackage_fits (labels : NodeKey → Label) (locals : Table NodeKey Nat)
    (package : Option Symbol) : (ofPackage package).Fits labels locals (package.getD .empty) := by
  match package with
  | none => rfl
  | some .empty => rfl
  | some (.fileLocal n) => rfl
  | some (.global text) => simp [ofPackage, Fits, Piece.fill]

theorem keys_ofPackage (package : Option Symbol) : (ofPackage package).keys = [] := by
  match package with
  | none => rfl
  | some .empty => rfl
  | some (.fileLocal n) => rfl
  | some (.global text) => rfl

def labelOf (number : Nat) : Symbol → Label
  | .fileLocal n => ⟨number, n⟩
  | _ => ⟨number, 0⟩

theorem mem_keys_numbered {spelling : String}
    (hk : k ∈ (global (μ.rootPieces key ++ [.numbered key spelling])).keys) :
    k = key ∨ k ∈ μ.keys := by
  simp only [keys, List.filterMap_append, List.mem_append] at hk
  rcases hk with hk | hk
  · cases μ with
    | global pieces => exact .inr hk
    | empty => simp [rootPieces] at hk
    | given n => simp [rootPieces, Piece.key?] at hk
    | fileLocal home =>
      simp only [rootPieces, List.mem_filterMap, List.mem_singleton] at hk
      obtain ⟨_, rfl, hk⟩ := hk
      exact .inl (Option.some.inj hk).symm
  · simp only [List.mem_filterMap, List.mem_singleton] at hk
    obtain ⟨_, rfl, hk⟩ := hk
    exact .inl (Option.some.inj hk).symm

theorem numbered_fits {number : Nat} (h : μ.Fits labels locals s) (hkey : key ∉ μ.keys)
    (spelling : String) :
    (global (μ.rootPieces key ++ [.numbered key spelling])).Fits
      (Function.update labels key (labelOf number s)) {}
      (s.extend ⟨.metadata, spelling ++ toString number⟩) := by
  let labels' := Function.update labels key (labelOf number s)
  have hlabel : labels' key = labelOf number s := Function.update_self ..
  have hnumber : (labels' key).number = number := by
    rw [hlabel]
    cases s <;> rfl
  have hroot : Piece.fillAll labels' (μ.rootPieces key) = s.render := by
    cases μ with
    | empty =>
      obtain rfl : s = .empty := h
      rfl
    | given n =>
      obtain rfl : s = .fileLocal n := h
      simp [rootPieces, Piece.fill]
    | fileLocal home =>
      obtain ⟨n, -, rfl⟩ := h
      simp [rootPieces, Piece.fill, hlabel, labelOf]
    | global pieces =>
      obtain rfl : s = .global (Piece.fillAll labels pieces) := h
      refine Piece.fillAll_congr fun p hp => Piece.fill_congr fun k hk => ?_
      refine Function.update_of_ne ?_ _ _
      rintro rfl
      exact hkey (List.mem_filterMap.mpr ⟨p, hp, hk⟩)
  change s.extend _ = .global (Piece.fillAll labels' _)
  rw [Piece.fillAll_append, hroot, Piece.fillAll_singleton, Piece.fill, hnumber]
  rfl

end Meaning

section Step

variable {w : World} {package : String → Option Symbol} {labels : NodeKey → Label}
  {links : Nat} {key : NodeKey} {m m₁ m₂ : Memory} {f : SourceFile} {n : Node}

theorem finds_file (hp : w.FixedPackages package) (hm : m.Sound w package labels)
    (hunknown : m.known? key = none) (hnode : w.node? key = some (f, n))
    (hkind : n.kind = .sourceFile) {found : Option Symbol}
    (hpackage : (packageOf w.collaborators f.name).run m = (found, m₁)) :
    Finds w package labels key m labels (found.getD .empty)
      ((remember key (found.getD .empty)).run m₁).2 := by
  obtain ⟨hfound, rfl⟩ := Prod.mk.inj hpackage
  obtain rfl : package f.name = found := (hp f.name m.packages).symm.trans hfound
  let m₁ := ((packageOf w.collaborators f.name).run m).2
  have hsame : SameSymbols m m₁ := ⟨rfl, rfl⟩
  have hremember := (hm.congr hsame).remember (means_file hnode hkind)
    (Meaning.ofPackage_ne_fileLocal _) ((hsame.known? key).trans hunknown) (fun _ _ => rfl)
    (by simp [Meaning.keys_ofPackage]) (Meaning.ofPackage_fits labels {} (package f.name))
  exact hremember.after (hsame.extends labels key)

theorem finds_counted (hunknown : m.known? key = none) (hnode : w.node? key = some (f, n))
    (hkey : n.isKey = true)
    {number : Nat} {owner : Symbol} {labels' : NodeKey → Label}
    (hnumber : (countKey (f.nodeText n.payload.name)).run m = (number, m₁))
    (howner : Finds w package labels ⟨key.file, f.root⟩ m₁ labels' owner m₂) :
    Finds w package labels key m
      (Function.update labels' key (Meaning.labelOf number owner))
      (owner.extend ⟨.metadata, f.nodeText n.payload.name ++ toString number⟩)
      ((remember key
        (owner.extend ⟨.metadata, f.nodeText n.payload.name ++ toString number⟩)).run m₂).2 := by
  have hsame := countKey_sameSymbols hnumber
  let label := Meaning.labelOf number owner
  obtain ⟨root, hroot, hrootKeys, hfits⟩ := howner.answers
  have hasks : w.Asks package key ⟨key.file, f.root⟩ := asks_root hnode hkey
  have hmeans := means_key hnode hkey hroot
  have hunknown₂ := howner.grows.unknown hasks hmeans ((hsame.known? key).trans hunknown)
  have hnone := (known?_eq_none_iff.mp hunknown₂).1
  have hfresh : key ∉ root.keys := fun hk => by simpa [hnone] using hrootKeys key hk
  have hlabels : ∀ k, (m₂.table.get? k).isSome →
      Function.update labels' key label k = labels' k := by
    intro k hk
    refine Function.update_of_ne ?_ _ _
    rintro rfl
    simp [hnone] at hk
  have hremember := howner.sound.remember hmeans (by simp) hunknown₂ hlabels
    (fun k hk => (Meaning.mem_keys_numbered hk).imp_right (hrootKeys k))
    (Meaning.numbered_fits hfits hfresh _)
  exact hremember.after ((hsame.extends labels key).trans (howner.grows.weaken hasks.noDeeper))

theorem finds_property (hnode : w.node? key = some (f, n)) (howned : n.hasOwner = true)
    {target : NodeKey} {s : Symbol} {labels' : NodeKey → Label}
    (htarget : (w.setTarget? f n key).run m = (some target, m₁))
    (hs : Finds w package labels target m₁ labels' s m₂) :
    Finds w package labels key m labels' s m₂ := by
  obtain ⟨hproperty, hheard⟩ := setTarget?_spec htarget
  obtain ⟨μ, hμ, hkeys, hfits⟩ := hs.answers
  have hneeds : w.Asks package key target := asks_property hnode howned hproperty.symm
  have hmeans := means_property hnode howned hproperty.symm hμ
  exact ⟨hs.sound, (hheard.sameSymbols.extends labels key).trans
    (hs.grows.weaken hneeds.noDeeper), μ, hmeans, hkeys, hfits⟩

theorem finds_orphan (hm : m.Sound w package labels) (hasks : AsksOwner w key m f n m₁)
    (hparent : f.arena.parent key.node = none) :
    Finds w package labels key m labels ((newLocal key).run m₁).1 ((newLocal key).run m₁).2 := by
  have hmeans : w.Means package key (.fileLocal key) :=
    means_orphan hasks.node hasks.hasOwner hasks.declaredProperty? hparent
  have hunknown : m₁.known? key = none := (hasks.sameSymbols.known? key).trans hasks.unknown
  exact ((hm.congr hasks.sameSymbols).newLocal hmeans hunknown).after
    (hasks.sameSymbols.extends labels key)

section Owner

variable {parent : Nat} {labels' : NodeKey → Label} (hasks : AsksOwner w key m f n m₁)
  (hparent : f.arena.parent key.node = some parent)

include hasks hparent

theorem AsksOwner.found {owner : Symbol} {μ ν : Meaning} {links : Nat}
    (howner : Finds w package labels ⟨key.file, some parent⟩ m₁ labels' owner m₂)
    (hν : w.Means package ⟨key.file, some parent⟩ ν)
    (hbelow : w.meaningBelow (w.meaning? package links) key f n ν = some μ) :
    w.Means package key μ ∧ m₂.known? key = none ∧ Extends w package labels key labels' m m₂ := by
  have hmeans : w.Means package key μ :=
    means_below hasks.node hasks.hasOwner hasks.declaredProperty? hparent hν hbelow
  have hneeds : w.Asks package key ⟨key.file, some parent⟩ :=
    asks_parent hasks.node hasks.hasOwner hasks.declaredProperty? hparent
  have hunknown : m₁.known? key = none := (hasks.sameSymbols.known? key).trans hasks.unknown
  exact ⟨hmeans, howner.grows.unknown hneeds hmeans hunknown,
    (hasks.sameSymbols.extends labels key).trans (howner.grows.weaken hneeds.noDeeper)⟩

theorem finds_unowned {owner : Symbol}
    (howner : Finds w package labels ⟨key.file, some parent⟩ m₁ labels' owner m₂)
    (hlocal : ∀ text, owner ≠ .global text) :
    Finds w package labels key m labels' ((newLocal key).run m₂).1 ((newLocal key).run m₂).2 := by
  obtain ⟨ν, hν, -, hfits⟩ := howner.answers
  have hbelow : w.meaningBelow (w.meaning? package 0) key f n ν = some (.fileLocal key) := by
    cases ν with
    | global pieces => exact absurd hfits (hlocal _)
    | empty => rfl
    | given n => rfl
    | fileLocal home => rfl
  obtain ⟨hmeans, hunknown, hgrows⟩ := hasks.found hparent howner hν hbelow
  exact (howner.sound.newLocal hmeans hunknown).after hgrows

variable {text : String}
  (howner : Finds w package labels ⟨key.file, some parent⟩ m₁ labels' (.global text) m₂)

include howner

theorem finds_container (hcontainer : n.isContainer = true) :
    Finds w package labels key m labels' (.global text)
      ((remember key (.global text)).run m₂).2 := by
  obtain ⟨ν, hν, hkeys, hfits⟩ := howner.answers
  obtain ⟨pieces, rfl, rfl⟩ := hfits.global_iff
  have hbelow : w.meaningBelow (w.meaning? package 0) key f n (.global pieces) =
      some (.global pieces) := by
    simp [meaningBelow, hcontainer]
  obtain ⟨hmeans, hunknown, hgrows⟩ := hasks.found hparent howner hν hbelow
  exact (howner.sound.remember hmeans (by simp) hunknown (fun _ _ => rfl)
    (fun k hk => .inr (hkeys k hk)) rfl).after hgrows

variable {m₃ : Memory} (hcontainer : n.isContainer = false)

include hcontainer

theorem finds_imported {target : NodeKey} {s : Symbol} {labels'' : NodeKey → Label} {m' : Memory}
    (himport : (w.importTarget? n key).run m₂ = (some target, m₃))
    (hs : Finds w package labels' target m₃ labels'' s m') :
    Finds w package labels key m labels'' s m' := by
  obtain ⟨ν, hν, -, hfits⟩ := howner.answers
  obtain ⟨pieces, rfl, -⟩ := hfits.global_iff
  obtain ⟨hdeclared, hheard⟩ := importTarget?_spec himport
  obtain ⟨μ, ⟨links, hμ⟩, hkeys, hfits'⟩ := hs.answers
  have hbelow : w.meaningBelow (w.meaning? package links) key f n (.global pieces) = some μ := by
    simp [meaningBelow, hcontainer, ← hdeclared, hμ]
  obtain ⟨hmeans, -, hgrows⟩ := hasks.found hparent howner hν hbelow
  have hneeds : w.Asks package key target := asks_import hasks.node hasks.hasOwner
    hasks.declaredProperty? hparent hν hcontainer hdeclared.symm
  exact ⟨hs.sound, (hgrows.trans (hheard.sameSymbols.extends labels' key)).trans
    (hs.grows.weaken hneeds.noDeeper), μ, hmeans, hkeys, hfits'⟩

theorem finds_declared (himport : (w.importTarget? n key).run m₂ = (none, m₃)) {d : Descriptor}
    (hd : descriptor? f n = some d) :
    Finds w package labels key m labels' (Symbol.extend (.global text) d)
      ((remember key (Symbol.extend (.global text) d)).run m₃).2 := by
  obtain ⟨ν, hν, hkeys, hfits⟩ := howner.answers
  obtain ⟨pieces, rfl, rfl⟩ := hfits.global_iff
  obtain ⟨hdeclared, hheard⟩ := importTarget?_spec himport
  have hbelow : w.meaningBelow (w.meaning? package 0) key f n (.global pieces) =
      some (.global (pieces ++ [.text d.render])) := by
    simp [meaningBelow, hcontainer, ← hdeclared, hd]
  obtain ⟨hmeans, hunknown, hgrows⟩ := hasks.found hparent howner hν hbelow
  have hsame := hheard.sameSymbols
  have hkeys' : ∀ k ∈ (Meaning.global (pieces ++ [.text d.render])).keys,
      k = key ∨ (m₃.table.get? k).isSome := by
    intro k hk
    rw [hsame.table]
    exact .inr (hkeys k (by simpa [Meaning.keys, Piece.key?] using hk))
  have htext : (Meaning.global (pieces ++ [.text d.render])).Fits labels' {}
      (Symbol.extend (.global (Piece.fillAll labels' pieces)) d) := by
    simp [Meaning.Fits, Symbol.extend, Symbol.render, Piece.fillAll_append, Piece.fill]
  exact ((howner.sound.congr hsame).remember hmeans (by simp) ((hsame.known? key).trans hunknown)
    (fun _ _ => rfl) hkeys' htext).after (hgrows.trans (hsame.extends labels' key))

theorem finds_undeclared (himport : (w.importTarget? n key).run m₂ = (none, m₃))
    (hd : descriptor? f n = none) :
    Finds w package labels key m labels' ((newLocal key).run m₃).1 ((newLocal key).run m₃).2 := by
  obtain ⟨ν, hν, -, hfits⟩ := howner.answers
  obtain ⟨pieces, rfl, -⟩ := hfits.global_iff
  obtain ⟨hdeclared, hheard⟩ := importTarget?_spec himport
  have hbelow : w.meaningBelow (w.meaning? package 0) key f n (.global pieces) =
      some (.fileLocal key) := by
    simp [meaningBelow, hcontainer, ← hdeclared, hd]
  obtain ⟨hmeans, hunknown, hgrows⟩ := hasks.found hparent howner hν hbelow
  have hsame := hheard.sameSymbols
  exact ((howner.sound.congr hsame).newLocal hmeans ((hsame.known? key).trans hunknown)).after
    (hgrows.trans (hsame.extends labels' key))

end Owner

theorem Memory.Sound.finds_same (hm : m.Sound w package labels) {s : Symbol}
    (h : m.Answers w package labels key s) : Finds w package labels key m labels s m :=
  ⟨hm, SameSymbols.extends ⟨rfl, rfl⟩ labels key, h⟩

/-- One resolution keeps a sound memory sound and finds what the node means. -/
theorem Resolves.finds (hp : w.FixedPackages package) {s : Symbol} {m' : Memory}
    (h : Resolves w False links key m s m') (hm : m.Sound w package labels) :
    ∃ labels', Finds w package labels key m labels' s m' := by
  induction h generalizing labels with
  | known h => exact ⟨labels, hm.finds_same (hm.answers h)⟩
  | cut hcut => exact hcut.elim
  | missing _ hnode =>
    exact ⟨labels, hm.finds_same ⟨.empty, means_missing hnode, by simp [Meaning.keys], rfl⟩⟩
  | block _ hnode hkind =>
    exact ⟨labels, hm.finds_same ⟨.empty, means_block hnode hkind, by simp [Meaning.keys], rfl⟩⟩
  | file h hnode hkind hpackage => exact ⟨labels, finds_file hp hm h hnode hkind hpackage⟩
  | counted h hnode hkey hnumber _ ih =>
    obtain ⟨labels', howner⟩ := ih (hm.congr (countKey_sameSymbols hnumber))
    exact ⟨_, finds_counted h hnode hkey hnumber howner⟩
  | property _ hnode howned htarget _ ih =>
    obtain ⟨labels', hs⟩ := ih (hm.congr (setTarget?_spec htarget).2.sameSymbols)
    exact ⟨labels', finds_property hnode howned htarget hs⟩
  | orphan hasks hparent => exact ⟨labels, finds_orphan hm hasks hparent⟩
  | unowned hasks hparent _ hlocal ih =>
    obtain ⟨labels', howner⟩ := ih (hm.congr hasks.sameSymbols)
    exact ⟨labels', finds_unowned hasks hparent howner hlocal⟩
  | container hasks hparent _ hcontainer ih =>
    obtain ⟨labels', howner⟩ := ih (hm.congr hasks.sameSymbols)
    exact ⟨labels', finds_container hasks hparent howner hcontainer⟩
  | imported hasks hparent _ hcontainer himport _ ih ih' =>
    obtain ⟨labels', howner⟩ := ih (hm.congr hasks.sameSymbols)
    obtain ⟨labels'', hs⟩ :=
      ih' (howner.sound.congr (importTarget?_spec himport).2.sameSymbols)
    exact ⟨labels'', finds_imported hasks hparent howner hcontainer himport hs⟩
  | declared hasks hparent _ hcontainer himport hd ih =>
    obtain ⟨labels', howner⟩ := ih (hm.congr hasks.sameSymbols)
    exact ⟨labels', finds_declared hasks hparent howner hcontainer himport hd⟩
  | undeclared hasks hparent _ hcontainer himport hd ih =>
    obtain ⟨labels', howner⟩ := ih (hm.congr hasks.sameSymbols)
    exact ⟨labels', finds_undeclared hasks hparent howner hcontainer himport hd⟩

end Step

end SourceIndex
