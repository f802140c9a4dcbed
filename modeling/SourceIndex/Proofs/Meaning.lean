import SourceIndex.Proofs.Resolution

/-! Resolution without any memory: the rules are applied again wherever they are needed. What then
depends on the past is left open. A local symbol stands for the node that it was made for, and the
text of a global one has gaps for the numbers of keys. -/

namespace SourceIndex

/-- A part of a global symbol's text. A key that is resolved for the first time is given its number
then, and its text may show the number that the root of its file had as a local symbol. -/
inductive Piece where
  | text (t : String)
  | numbered (key : NodeKey) (spelling : String)
  | localRoot (key : NodeKey)

structure Label where
  number : Nat
  root : Nat

namespace Piece

def fill (labels : NodeKey → Label) : Piece → String
  | text t => t
  | numbered key spelling =>
    Descriptor.render ⟨.metadata, spelling ++ toString (labels key).number⟩
  | localRoot key => (Symbol.fileLocal (labels key).root).render

def key? : Piece → Option NodeKey
  | text _ => none
  | numbered key _ => some key
  | localRoot key => some key

def fillAll (labels : NodeKey → Label) (pieces : List Piece) : String :=
  pieces.foldr (fun p t => p.fill labels ++ t) ""

theorem fillAll_append (labels : NodeKey → Label) (ps qs : List Piece) :
    fillAll labels (ps ++ qs) = fillAll labels ps ++ fillAll labels qs := by
  induction ps with
  | nil => simp [fillAll]
  | cons p ps ih =>
    simp only [fillAll, List.cons_append, List.foldr_cons] at ih ⊢
    rw [ih, String.append_assoc]

@[simp] theorem fillAll_singleton (labels : NodeKey → Label) (p : Piece) :
    fillAll labels [p] = p.fill labels := by
  simp [fillAll]

theorem fillAll_congr {labels labels' : NodeKey → Label} {pieces : List Piece}
    (h : ∀ p ∈ pieces, p.fill labels = p.fill labels') :
    fillAll labels pieces = fillAll labels' pieces := by
  induction pieces with
  | nil => rfl
  | cons p ps ih =>
    simp only [fillAll, List.foldr_cons]
    rw [h p (by simp)]
    exact congrArg _ (ih fun q hq => h q (by simp [hq]))

def isLocalRoot : Piece → Bool
  | localRoot _ => true
  | _ => false

theorem fill_congr {labels labels' : NodeKey → Label} {p : Piece}
    (h : ∀ key, p.key? = some key → labels key = labels' key) :
    p.fill labels = p.fill labels' := by
  cases p with
  | text t => rfl
  | numbered key spelling => simp only [fill, h key rfl]
  | localRoot key => simp only [fill, h key rfl]

end Piece

/-- What a node means. The package of a file may be said to be local, with a number of its own. -/
inductive Meaning where
  | empty
  | given (n : Nat)
  | fileLocal (home : NodeKey)
  | global (pieces : List Piece)

namespace Meaning

def ofPackage : Option Symbol → Meaning
  | some (.global text) => .global [.text text]
  | some (.fileLocal n) => .given n
  | some .empty | none => .empty

theorem ofPackage_ne_fileLocal (package : Option Symbol) (home : NodeKey) :
    ofPackage package ≠ .fileLocal home := by
  match package with
  | none => simp [ofPackage]
  | some .empty => simp [ofPackage]
  | some (.fileLocal n) => simp [ofPackage]
  | some (.global text) => simp [ofPackage]

/-- How the root of its file shows in a key's text. -/
def rootPieces (key : NodeKey) : Meaning → List Piece
  | empty => []
  | given n => [.text (Symbol.fileLocal n).render]
  | fileLocal _ => [.localRoot key]
  | global pieces => pieces

def showsLocalRoot : Meaning → Bool
  | global pieces => pieces.any Piece.isLocalRoot
  | _ => false

def keys : Meaning → List NodeKey
  | global pieces => pieces.filterMap Piece.key?
  | _ => []

end Meaning

namespace World

section Rules

variable (w : World) (package : String → Option Symbol)

def meaningBelow (other : NodeKey → Option Meaning) (key : NodeKey) (f : SourceFile) (n : Node) :
    Meaning → Option Meaning
  | .global pieces =>
    if n.isContainer then some (.global pieces)
    else
      match w.declaredImport? n key with
      | some target => other target
      | none =>
        match descriptor? f n with
        | some d => some (.global (pieces ++ [.text d.render]))
        | none => some (.fileLocal key)
  | _ => some (.fileLocal key)

/-- All rules, given what other nodes mean. -/
def meaningBy (other : NodeKey → Option Meaning) (key : NodeKey) : Option Meaning :=
  match w.node? key with
  | none => some .empty
  | some (f, n) =>
    if n.kind = .block then some .empty
    else if n.kind = .sourceFile then some (.ofPackage (package f.name))
    else if n.isKey then
      (other ⟨key.file, f.root⟩).map fun root =>
        .global (root.rootPieces key ++ [.numbered key (f.nodeText n.payload.name)])
    else
      match w.declaredProperty? f n key with
      | some target => other target
      | none =>
        match f.arena.parent key.node with
        | none => some (.fileLocal key)
        | some parent => (other ⟨key.file, some parent⟩).bind (w.meaningBelow other key f n)

/-- The meaning of a node, if the rules come to an end within so many links. -/
def meaning? : Nat → NodeKey → Option Meaning
  | 0, _ => none
  | links + 1, key => w.meaningBy package (meaning? links) key

def Means (key : NodeKey) (μ : Meaning) : Prop := ∃ links, w.meaning? package links key = some μ

end Rules

variable {w : World} {package : String → Option Symbol} {other other' : NodeKey → Option Meaning}
  {key target : NodeKey} {f : SourceFile} {n : Node} {μ ν : Meaning}

theorem meaningBy_missing (hnode : w.node? key = none) :
    w.meaningBy package other key = some .empty := by
  simp [meaningBy, hnode]

theorem meaningBy_block (hnode : w.node? key = some (f, n)) (hkind : n.kind = .block) :
    w.meaningBy package other key = some .empty := by
  simp [meaningBy, hnode, hkind]

theorem meaningBy_file (hnode : w.node? key = some (f, n)) (hkind : n.kind = .sourceFile) :
    w.meaningBy package other key = some (.ofPackage (package f.name)) := by
  simp [meaningBy, hnode, hkind]

theorem meaningBy_key (hnode : w.node? key = some (f, n)) (hkey : n.isKey = true) :
    w.meaningBy package other key = (other ⟨key.file, f.root⟩).map fun root =>
      .global (root.rootPieces key ++ [.numbered key (f.nodeText n.payload.name)]) := by
  have hk := hkey
  simp only [Node.isKey, Bool.or_eq_true, decide_eq_true_eq] at hk
  rcases hk with hk | hk <;> simp [meaningBy, hnode, hk, hkey]

theorem meaningBy_owned (hnode : w.node? key = some (f, n)) (howned : n.hasOwner = true) :
    w.meaningBy package other key =
      match w.declaredProperty? f n key with
      | some target => other target
      | none =>
        match f.arena.parent key.node with
        | none => some (.fileLocal key)
        | some parent => (other ⟨key.file, some parent⟩).bind (w.meaningBelow other key f n) := by
  simp only [Node.hasOwner, ne_eq, Bool.and_eq_true, decide_eq_true_eq, Bool.not_eq_true'] at howned
  obtain ⟨⟨hblock, hfile⟩, hkey⟩ := howned
  simp [meaningBy, hnode, hblock, hfile, hkey]

theorem meaningBelow_mono (h : ∀ key μ, other key = some μ → other' key = some μ)
    (hμ : w.meaningBelow other key f n ν = some μ) :
    w.meaningBelow other' key f n ν = some μ := by
  cases ν with
  | global pieces =>
    by_cases hc : n.isContainer = true
    · simpa [meaningBelow, hc] using hμ
    · cases himport : w.declaredImport? n key with
      | some target =>
        simp only [meaningBelow, hc, himport] at hμ ⊢
        exact h target μ hμ
      | none =>
        simp only [meaningBelow, hc, himport] at hμ ⊢
        exact hμ
  | empty => exact hμ
  | given n => exact hμ
  | fileLocal home => exact hμ

theorem meaningBy_mono (h : ∀ key μ, other key = some μ → other' key = some μ)
    (hμ : w.meaningBy package other key = some μ) : w.meaningBy package other' key = some μ := by
  rcases w.kinds key with hnode | ⟨f, n, hnode, hkind | hkind | hkey | howned⟩
  · rwa [meaningBy_missing hnode] at hμ ⊢
  · rwa [meaningBy_block hnode hkind] at hμ ⊢
  · rwa [meaningBy_file hnode hkind] at hμ ⊢
  · rw [meaningBy_key hnode hkey] at hμ ⊢
    obtain ⟨root, hroot, rfl⟩ := Option.map_eq_some_iff.mp hμ
    rw [h _ _ hroot, Option.map_some]
  · rw [meaningBy_owned hnode howned] at hμ ⊢
    cases hproperty : w.declaredProperty? f n key with
    | some target =>
      rw [hproperty] at hμ
      exact h _ _ hμ
    | none =>
      rw [hproperty] at hμ
      cases hparent : f.arena.parent key.node with
      | none => rwa [hparent] at hμ
      | some parent =>
        rw [hparent] at hμ
        obtain ⟨owner, howner, hbelow⟩ := Option.bind_eq_some_iff.mp hμ
        exact Option.bind_eq_some_iff.mpr ⟨owner, h _ _ howner, meaningBelow_mono h hbelow⟩

theorem meaning?_mono {links links' : Nat} (h : w.meaning? package links key = some μ)
    (hle : links ≤ links') : w.meaning? package links' key = some μ := by
  have hsucc : ∀ links key μ, w.meaning? package links key = some μ →
      w.meaning? package (links + 1) key = some μ := by
    intro links
    induction links with
    | zero =>
      intro key μ h
      simp [meaning?] at h
    | succ links ih => exact fun key μ h => meaningBy_mono ih h
  induction hle with
  | refl => exact h
  | step _ ih => exact hsucc _ _ _ ih

theorem Means.unique (h : w.Means package key μ) (h' : w.Means package key ν) : μ = ν := by
  obtain ⟨links, h⟩ := h
  obtain ⟨links', h'⟩ := h'
  have hmax := meaning?_mono h (Nat.le_max_left links links')
  rw [meaning?_mono h' (Nat.le_max_right links links')] at hmax
  exact (Option.some.inj hmax).symm

theorem means_missing (hnode : w.node? key = none) : w.Means package key .empty :=
  ⟨1, meaningBy_missing hnode⟩

theorem means_block (hnode : w.node? key = some (f, n)) (hkind : n.kind = .block) :
    w.Means package key .empty :=
  ⟨1, meaningBy_block hnode hkind⟩

theorem means_file (hnode : w.node? key = some (f, n)) (hkind : n.kind = .sourceFile) :
    w.Means package key (.ofPackage (package f.name)) :=
  ⟨1, meaningBy_file hnode hkind⟩

theorem means_key (hnode : w.node? key = some (f, n)) (hkey : n.isKey = true)
    (hroot : w.Means package ⟨key.file, f.root⟩ μ) :
    w.Means package key
      (.global (μ.rootPieces key ++ [.numbered key (f.nodeText n.payload.name)])) := by
  obtain ⟨links, hroot⟩ := hroot
  exact ⟨links + 1, by rw [meaning?, meaningBy_key hnode hkey, hroot, Option.map_some]⟩

theorem means_property (hnode : w.node? key = some (f, n)) (howned : n.hasOwner = true)
    (hproperty : w.declaredProperty? f n key = some target) (htarget : w.Means package target μ) :
    w.Means package key μ := by
  obtain ⟨links, htarget⟩ := htarget
  refine ⟨links + 1, ?_⟩
  rw [meaning?, meaningBy_owned hnode howned, hproperty]
  exact htarget

theorem means_orphan (hnode : w.node? key = some (f, n)) (howned : n.hasOwner = true)
    (hproperty : w.declaredProperty? f n key = none) (hparent : f.arena.parent key.node = none) :
    w.Means package key (.fileLocal key) :=
  ⟨1, by rw [meaning?, meaningBy_owned hnode howned, hproperty, hparent]⟩

theorem means_below {parent : Nat} (hnode : w.node? key = some (f, n)) (howned : n.hasOwner = true)
    (hproperty : w.declaredProperty? f n key = none)
    (hparent : f.arena.parent key.node = some parent)
    (howner : w.Means package ⟨key.file, some parent⟩ ν) {links : Nat}
    (hbelow : w.meaningBelow (w.meaning? package links) key f n ν = some μ) :
    w.Means package key μ := by
  obtain ⟨links', howner⟩ := howner
  have howner := meaning?_mono howner (Nat.le_max_left links' links)
  have hbelow := meaningBelow_mono
    (fun _ _ h => meaning?_mono h (Nat.le_max_right links' links)) hbelow
  refine ⟨max links' links + 1, ?_⟩
  rw [meaning?, meaningBy_owned hnode howned, hproperty, hparent]
  exact Option.bind_eq_some_iff.mpr ⟨ν, howner, hbelow⟩

section Depth

variable (w package)

/-- The rules end at `key'` within no more links than at `key`. -/
def NoDeeper (key' key : NodeKey) : Prop :=
  ∀ links, (w.meaning? package links key).isSome → (w.meaning? package links key').isSome

/-- The rules end at `target` within fewer links than at `key`. -/
def Asks (key target : NodeKey) : Prop :=
  ∀ links, (w.meaning? package (links + 1) key).isSome → (w.meaning? package links target).isSome

end Depth

variable {key' : NodeKey}

theorem NoDeeper.refl (key : NodeKey) : w.NoDeeper package key key := fun _ h => h

theorem NoDeeper.trans (h : w.NoDeeper package key key') (h' : w.NoDeeper package key' target) :
    w.NoDeeper package key target :=
  fun links ht => h links (h' links ht)

theorem Asks.noDeeper (h : w.Asks package key target) : w.NoDeeper package target key := by
  intro links hkey
  cases links with
  | zero => simp [meaning?] at hkey
  | succ links =>
    obtain ⟨μ, hμ⟩ := Option.isSome_iff_exists.mp (h links hkey)
    rw [meaning?_mono hμ (Nat.le_succ links)]
    rfl

/-- No node needs itself. -/
theorem Asks.not_noDeeper (h : w.Asks package key target) (hmeans : w.Means package key μ) :
    ¬ w.NoDeeper package key target := by
  intro hdeep
  have hnever : ∀ links, ¬ (w.meaning? package links key).isSome := by
    intro links
    induction links with
    | zero => simp [meaning?]
    | succ links ih => exact fun hkey => ih (hdeep links (h links hkey))
  obtain ⟨links, hkey⟩ := hmeans
  exact hnever links (by rw [hkey]; rfl)

theorem asks_root (hnode : w.node? key = some (f, n)) (hkey : n.isKey = true) :
    w.Asks package key ⟨key.file, f.root⟩ := by
  intro links h
  rw [meaning?, meaningBy_key hnode hkey] at h
  simpa using h

theorem asks_property (hnode : w.node? key = some (f, n)) (howned : n.hasOwner = true)
    (hproperty : w.declaredProperty? f n key = some target) : w.Asks package key target := by
  intro links h
  rw [meaning?, meaningBy_owned hnode howned, hproperty] at h
  exact h

theorem asks_parent {parent : Nat} (hnode : w.node? key = some (f, n)) (howned : n.hasOwner = true)
    (hproperty : w.declaredProperty? f n key = none)
    (hparent : f.arena.parent key.node = some parent) :
    w.Asks package key ⟨key.file, some parent⟩ := by
  intro links h
  obtain ⟨μ, h⟩ := Option.isSome_iff_exists.mp h
  rw [meaning?, meaningBy_owned hnode howned, hproperty, hparent] at h
  obtain ⟨owner, howner, -⟩ := Option.bind_eq_some_iff.mp h
  rw [howner]
  rfl

theorem asks_import {parent : Nat} {pieces : List Piece} (hnode : w.node? key = some (f, n))
    (howned : n.hasOwner = true) (hproperty : w.declaredProperty? f n key = none)
    (hparent : f.arena.parent key.node = some parent)
    (howner : w.Means package ⟨key.file, some parent⟩ (.global pieces))
    (hcontainer : n.isContainer = false) (himport : w.declaredImport? n key = some target) :
    w.Asks package key target := by
  intro links h
  obtain ⟨μ, h⟩ := Option.isSome_iff_exists.mp h
  rw [meaning?, meaningBy_owned hnode howned, hproperty, hparent] at h
  obtain ⟨owner, howner', hbelow⟩ := Option.bind_eq_some_iff.mp h
  obtain rfl := Means.unique ⟨links, howner'⟩ howner
  simp only [meaningBelow, hcontainer, himport] at hbelow
  exact Option.isSome_iff_exists.mpr ⟨μ, hbelow⟩

/-- The root of a file with keys does not mean a local symbol. -/
def NoLocalRoots (w : World) (package : String → Option Symbol) : Prop :=
  ∀ key f n home, w.node? key = some (f, n) → n.isKey = true →
    ¬ w.Means package ⟨key.file, f.root⟩ (.fileLocal home)

/-- A file that can be indexed has a root that means its package. -/
theorem noLocalRoots_of_sourceFile
    (h : ∀ id f, w.program.file? id = some f → f.arena.kind? f.root = some .sourceFile) :
    w.NoLocalRoots package := by
  intro key f n home hnode _ hlocal
  have hfile := (node?_eq_some_iff.mp hnode).1
  obtain ⟨root, hroot, hkind⟩ := Option.map_eq_some_iff.mp (h key.file f hfile)
  have hmeans : w.Means package ⟨key.file, f.root⟩ (.ofPackage (package f.name)) :=
    means_file (node?_eq_some_iff.mpr ⟨hfile, hroot⟩) hkind
  exact Meaning.ofPackage_ne_fileLocal _ home (hmeans.unique hlocal)

theorem meaningBelow_showsLocalRoot
    (hother : ∀ key μ, other key = some μ → μ.showsLocalRoot = false)
    (hν : ν.showsLocalRoot = false) (h : w.meaningBelow other key f n ν = some μ) :
    μ.showsLocalRoot = false := by
  cases ν with
  | global pieces =>
    simp only [meaningBelow] at h
    split at h
    · obtain rfl := Option.some.inj h
      exact hν
    split at h
    · exact hother _ _ h
    split at h
    · obtain rfl := Option.some.inj h
      simp only [Meaning.showsLocalRoot, List.any_append, Bool.or_eq_false_iff] at hν ⊢
      exact ⟨hν, rfl⟩
    · obtain rfl := Option.some.inj h
      rfl
  | empty =>
    obtain rfl := Option.some.inj h
    rfl
  | given n =>
    obtain rfl := Option.some.inj h
    rfl
  | fileLocal home =>
    obtain rfl := Option.some.inj h
    rfl

theorem Means.showsLocalRoot (hroots : w.NoLocalRoots package) (h : w.Means package key μ) :
    μ.showsLocalRoot = false := by
  obtain ⟨links, h⟩ := h
  induction links generalizing key μ with
  | zero => simp [meaning?] at h
  | succ links ih =>
    rw [meaning?] at h
    rcases w.kinds key with hnode | ⟨f, n, hnode, hkind | hkind | hkey | howned⟩
    · rw [meaningBy_missing hnode] at h
      obtain rfl := Option.some.inj h
      rfl
    · rw [meaningBy_block hnode hkind] at h
      obtain rfl := Option.some.inj h
      rfl
    · rw [meaningBy_file hnode hkind] at h
      obtain rfl := Option.some.inj h
      match package f.name with
      | none => rfl
      | some .empty => rfl
      | some (.fileLocal n) => rfl
      | some (.global text) => rfl
    · rw [meaningBy_key hnode hkey] at h
      obtain ⟨root, hroot, rfl⟩ := Option.map_eq_some_iff.mp h
      have hshows := ih hroot
      cases root with
      | fileLocal home => exact absurd ⟨links, hroot⟩ (hroots key f n home hnode hkey)
      | global pieces =>
        simp only [Meaning.showsLocalRoot, Meaning.rootPieces, List.any_append,
          Bool.or_eq_false_iff] at hshows ⊢
        exact ⟨hshows, rfl⟩
      | empty => rfl
      | given n => rfl
    · rw [meaningBy_owned hnode howned] at h
      split at h
      · exact ih h
      split at h
      · obtain rfl := Option.some.inj h
        rfl
      · obtain ⟨owner, howner, hbelow⟩ := Option.bind_eq_some_iff.mp h
        exact meaningBelow_showsLocalRoot (fun _ _ => ih) (ih howner) hbelow

end World

end SourceIndex
