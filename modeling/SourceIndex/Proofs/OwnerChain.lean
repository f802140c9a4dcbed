import Mathlib.Logic.Relation
import Mathlib.Logic.Function.Iterate
import SourceIndex.Proofs.Memoised

/-! Which nodes a resolution asks about when nobody knows of imports or properties: a declaration
asks its owner, a key the root of its file. A resolution that asks about too many is cut off. -/

namespace SourceIndex

open Memory World

/-- Nobody knows what a tag takes or what an import stands for. -/
structure Collaborators.Silent (c : Collaborators) : Prop where
  propsType : ∀ element, (c.propsType element).toOption.getD .none = Option.none
  aliases : ∀ key, (c.aliases key).toOption.getD [] = []

theorem declaredProperty?_of_silent {w : World} (hw : w.collaborators.Silent) (f : SourceFile)
    (n : Node) (key : NodeKey) : w.declaredProperty? f n key = none := by
  unfold declaredProperty?
  split
  · split
    · simp [hw.propsType]
    · rfl
  · rfl

theorem declaredImport?_of_silent {w : World} (hw : w.collaborators.Silent) (n : Node)
    (key : NodeKey) : w.declaredImport? n key = none := by
  simp [declaredImport?, hw.aliases]

namespace World

/-- The node whose symbol a declaration extends. Keys have none: their symbol is global whatever
that of their file is. -/
def owner? (w : World) (key : NodeKey) : Option NodeKey :=
  (w.node? key).bind fun (f, n) =>
    if n.hasOwner then (f.arena.parent key.node).map fun parent => ⟨key.file, some parent⟩ else none

/-- The node that is asked about next. -/
def asked? (w : World) (key : NodeKey) : Option NodeKey :=
  (w.node? key).bind fun (f, n) => if n.isKey then some ⟨key.file, f.root⟩ else w.owner? key

def askedAfter (w : World) : Nat → NodeKey → Option NodeKey
  | 0, key => some key
  | links + 1, key => (w.asked? key).bind (askedAfter w links)

/-- A node and the owners above it. -/
def Above (w : World) (key a : NodeKey) : Prop :=
  Relation.ReflTransGen (fun k owner => w.owner? k = some owner) key a

/-- Where a resolution is cut off, if it is. -/
def cut? (w : World) (m : Memory) : Nat → NodeKey → Option NodeKey
  | 0, key => if (m.known? key).isSome then none else some key
  | links + 1, key => if (m.known? key).isSome then none else (w.asked? key).bind (cut? w m links)

def memoryAfter (w : World) (limit : Nat) (m : Memory) (keys : List NodeKey) : Memory :=
  keys.foldl (fun m key => ((w.resolve limit key).run m).2) m

/-- The nodes at which one of several resolutions is cut off. -/
def cuts (w : World) (limit : Nat) : Memory → List NodeKey → List NodeKey
  | _, [] => []
  | m, key :: keys =>
    (w.cut? m (limit + 1) key).toList ++ cuts w limit ((w.resolve limit key).run m).2 keys

variable {w : World} {package : String → Option Symbol} {key owner a : NodeKey} {m m' : Memory}
  {f : SourceFile} {n : Node} {links : Nat} {μ : Meaning}

theorem owner?_of_hasOwner (hnode : w.node? key = some (f, n)) (howned : n.hasOwner = true) :
    w.owner? key = (f.arena.parent key.node).map fun parent => ⟨key.file, some parent⟩ := by
  simp [owner?, hnode, howned]

theorem asked?_of_hasOwner (hnode : w.node? key = some (f, n)) (howned : n.hasOwner = true) :
    w.asked? key = w.owner? key := by
  have hkey : n.isKey = false := by
    simp only [Node.hasOwner, Bool.and_eq_true, Bool.not_eq_true'] at howned
    exact howned.2
  simp [asked?, hnode, hkey]

theorem asked?_of_isKey (hnode : w.node? key = some (f, n)) (hkey : n.isKey = true) :
    w.asked? key = some ⟨key.file, f.root⟩ := by
  simp [asked?, hnode, hkey]

theorem asked?_of_isFile (hnode : w.node? key = some (f, n)) (hkind : n.kind = .sourceFile) :
    w.asked? key = none := by
  simp [asked?, owner?, hnode, Node.isKey, Node.hasOwner, hkind]

theorem asked?_of_block (hnode : w.node? key = some (f, n)) (hkind : n.kind = .block) :
    w.asked? key = none := by
  simp [asked?, owner?, hnode, Node.isKey, Node.hasOwner, hkind]

theorem owner?_of_isKey (hnode : w.node? key = some (f, n)) (hkey : n.isKey = true) :
    w.owner? key = none := by
  simp [owner?, hnode, Node.hasOwner, hkey]

theorem Above.of_owner (howner : w.owner? key = some owner) (h : w.Above owner a) :
    w.Above key a :=
  Relation.ReflTransGen.head howner h

theorem cut?_of_known (h : (m.known? key).isSome) : w.cut? m links key = none := by
  cases links <;> simp [cut?, h]

theorem cut?_succ (h : m.known? key = none) :
    w.cut? m (links + 1) key = (w.asked? key).bind (w.cut? m links) := by
  simp [cut?, h]

theorem cut?_congr (hsame : SameSymbols m m') (links : Nat) (key : NodeKey) :
    w.cut? m' links key = w.cut? m links key := by
  induction links generalizing key with
  | zero => simp only [cut?, hsame.known?]
  | succ links ih =>
    have hfun : w.cut? m' links = w.cut? m links := funext ih
    simp only [cut?, hsame.known?, hfun]

theorem askedAfter_of_cut? (h : w.cut? m links key = some a) : w.askedAfter links key = some a := by
  induction links generalizing key with
  | zero =>
    simp only [cut?] at h
    split at h
    · simp at h
    · exact h
  | succ links ih =>
    simp only [cut?] at h
    split at h
    · simp at h
    · obtain ⟨next, hnext, hcut⟩ := Option.bind_eq_some_iff.mp h
      exact Option.bind_eq_some_iff.mpr ⟨next, hnext, ih hcut⟩

theorem cut?_eq_none_of_askedAfter (h : w.askedAfter links key = none) (m : Memory) :
    w.cut? m links key = none := by
  by_contra hne
  obtain ⟨a, ha⟩ := Option.ne_none_iff_exists'.mp hne
  simp [askedAfter_of_cut? ha] at h

theorem askedAfter_mono {links' : Nat} (h : w.askedAfter links key = none) (hle : links ≤ links') :
    w.askedAfter links' key = none := by
  induction links generalizing key links' with
  | zero => simp [askedAfter] at h
  | succ links ih =>
    obtain ⟨more, rfl⟩ : ∃ more, links' = more + 1 := ⟨links' - 1, by omega⟩
    simp only [askedAfter] at h ⊢
    cases hasked : w.asked? key with
    | none => rfl
    | some next =>
      rw [hasked] at h
      exact ih h (by omega)

theorem exists_of_mem_cuts {limit : Nat} {keys : List NodeKey} (h : a ∈ w.cuts limit m keys) :
    ∃ x ∈ keys, w.askedAfter (limit + 1) x = some a := by
  induction keys generalizing m with
  | nil => simp [cuts] at h
  | cons x keys ih =>
    rcases List.mem_append.mp h with h | h
    · exact ⟨x, by simp, askedAfter_of_cut? (by simpa using h)⟩
    · obtain ⟨y, hy, hafter⟩ := ih h
      exact ⟨y, by simp [hy], hafter⟩

/-- Above a node that is so many links below a file's root, there is nothing to ask after these. -/
theorem askedAfter_of_chain (hfile : w.program.file? key.file = some f)
    (hroot : f.arena.kind? f.root = some .sourceFile)
    (hchain : f.arena.parent^[links] key.node = f.root) :
    w.askedAfter (links + 1) key = none := by
  obtain ⟨root, hrootNode, hrootKind⟩ := Option.map_eq_some_iff.mp hroot
  have hrootAsked : w.asked? ⟨key.file, f.root⟩ = none :=
    asked?_of_isFile (node?_eq_some_iff.mpr ⟨hfile, hrootNode⟩) hrootKind
  induction links generalizing key with
  | zero =>
    have hkey : key = ⟨key.file, f.root⟩ := by
      rw [← hchain]
      rfl
    rw [askedAfter, hkey, hrootAsked]
    rfl
  | succ links ih =>
    rw [Function.iterate_succ_apply] at hchain
    cases hasked : w.asked? key with
    | none => simp [askedAfter, hasked]
    | some next =>
      rw [askedAfter, hasked, Option.bind_some]
      rcases w.kinds key with hnode | ⟨g, n, hnode, hkind | hkind | hkey | howned⟩
      · simp [asked?, hnode] at hasked
      · simp [asked?_of_block hnode hkind] at hasked
      · simp [asked?_of_isFile hnode hkind] at hasked
      · obtain rfl : g = f := Option.some.inj ((node?_eq_some_iff.mp hnode).1.symm.trans hfile)
        rw [asked?_of_isKey hnode hkey] at hasked
        obtain rfl := Option.some.inj hasked
        rw [askedAfter, hrootAsked]
        rfl
      · obtain rfl : g = f := Option.some.inj ((node?_eq_some_iff.mp hnode).1.symm.trans hfile)
        rw [asked?_of_hasOwner hnode howned, owner?_of_hasOwner hnode howned] at hasked
        obtain ⟨parent, hparent, rfl⟩ := Option.map_eq_some_iff.mp hasked
        exact ih hfile (by rw [← hparent]; exact hchain) hrootAsked

end World

theorem Meaning.keys_append_text (pieces : List Piece) (text : String) :
    (Meaning.global (pieces ++ [.text text])).keys = (Meaning.global pieces).keys := by
  simp [Meaning.keys, Piece.key?]

namespace World

variable {w : World} {package : String → Option Symbol} {key : NodeKey} {f : SourceFile} {n : Node}
  {links : Nat} {μ : Meaning}

/-- Without imports and properties, a declaration means what its owner's meaning makes of it. -/
theorem Means.owner (hw : w.collaborators.Silent) (hnode : w.node? key = some (f, n))
    (howned : n.hasOwner = true) {parent : Nat} (hparent : f.arena.parent key.node = some parent)
    (h : w.Means package key μ) :
    ∃ ν, w.Means package ⟨key.file, some parent⟩ ν ∧
      w.meaningBelow (fun _ => none) key f n ν = some μ := by
  obtain ⟨links, h⟩ := h
  cases links with
  | zero => simp [meaning?] at h
  | succ links =>
    rw [meaning?, meaningBy_owned hnode howned, declaredProperty?_of_silent hw, hparent] at h
    obtain ⟨ν, hν, hbelow⟩ := Option.bind_eq_some_iff.mp h
    refine ⟨ν, ⟨links, hν⟩, ?_⟩
    cases ν with
    | global pieces =>
      simp only [meaningBelow, declaredImport?_of_silent hw] at hbelow ⊢
      exact hbelow
    | empty => exact hbelow
    | given n => exact hbelow
    | fileLocal home => exact hbelow

theorem means_of_askedAfter (hw : w.collaborators.Silent) (h : w.askedAfter links key = none) :
    ∃ μ, w.meaning? package links key = some μ := by
  induction links generalizing key with
  | zero => simp [askedAfter] at h
  | succ links ih =>
    rw [askedAfter] at h
    rw [meaning?]
    rcases w.kinds key with hnode | ⟨f, n, hnode, hkind | hkind | hkey | howned⟩
    · exact ⟨_, meaningBy_missing hnode⟩
    · exact ⟨_, meaningBy_block hnode hkind⟩
    · exact ⟨_, meaningBy_file hnode hkind⟩
    · rw [asked?_of_isKey hnode hkey] at h
      obtain ⟨root, hroot⟩ := ih h
      rw [meaningBy_key hnode hkey, hroot]
      exact ⟨_, rfl⟩
    · rw [meaningBy_owned hnode howned, declaredProperty?_of_silent hw]
      rw [asked?_of_hasOwner hnode howned, owner?_of_hasOwner hnode howned] at h
      cases hparent : f.arena.parent key.node with
      | none => exact ⟨_, rfl⟩
      | some parent =>
        rw [hparent] at h
        obtain ⟨ν, hν⟩ := ih h
        simp only [hν, Option.bind_some]
        cases ν with
        | global pieces =>
          simp only [meaningBelow, declaredImport?_of_silent hw]
          split
          · exact ⟨_, rfl⟩
          · split <;> exact ⟨_, rfl⟩
        | empty => exact ⟨_, rfl⟩
        | given n => exact ⟨_, rfl⟩
        | fileLocal home => exact ⟨_, rfl⟩

/-- No key is numbered in the text of a node that is not below any. -/
theorem Means.keys_eq_nil (hw : w.collaborators.Silent) (h : w.Means package key μ)
    (hkeys : ∀ a f n, w.Above key a → w.node? a = some (f, n) → n.isKey = false) :
    μ.keys = [] := by
  obtain ⟨links, h⟩ := h
  induction links generalizing key μ with
  | zero => simp [meaning?] at h
  | succ links ih =>
    rw [meaning?] at h
    rcases w.kinds key with hnode | ⟨f, n, hnode, hkind | hkind | hkey | howned⟩
    · rw [meaningBy_missing hnode] at h
      obtain rfl := Option.some.inj h
      rfl
    · rw [meaningBy_block hnode hkind] at h
      obtain rfl := Option.some.inj h
      rfl
    · rw [meaningBy_file hnode hkind] at h
      obtain rfl := Option.some.inj h
      exact Meaning.keys_ofPackage _
    · have hnot := hkeys key f n .refl hnode
      simp [hkey] at hnot
    · rw [meaningBy_owned hnode howned, declaredProperty?_of_silent hw] at h
      cases hparent : f.arena.parent key.node with
      | none =>
        rw [hparent] at h
        obtain rfl := Option.some.inj h
        rfl
      | some parent =>
        rw [hparent] at h
        obtain ⟨ν, hν, hbelow⟩ := Option.bind_eq_some_iff.mp h
        have howner : w.owner? key = some ⟨key.file, some parent⟩ := by
          rw [owner?_of_hasOwner hnode howned, hparent]
          rfl
        have hνkeys := ih (fun a g n' ha => hkeys a g n' (ha.of_owner howner)) hν
        cases ν with
        | global pieces =>
          simp only [meaningBelow, declaredImport?_of_silent hw] at hbelow
          split at hbelow
          · obtain rfl := Option.some.inj hbelow
            exact hνkeys
          · split at hbelow
            · obtain rfl := Option.some.inj hbelow
              rw [Meaning.keys_append_text]
              exact hνkeys
            · obtain rfl := Option.some.inj hbelow
              rfl
        | empty =>
          obtain rfl := Option.some.inj hbelow
          rfl
        | given n =>
          obtain rfl := Option.some.inj hbelow
          rfl
        | fileLocal home =>
          obtain rfl := Option.some.inj hbelow
          rfl

end World

end SourceIndex
