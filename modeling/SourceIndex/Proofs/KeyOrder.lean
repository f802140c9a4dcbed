import SourceIndex.Proofs.GlobalOwners
import SourceIndex.Proofs.Independence
import SourceIndex.Proofs.OwnerChain
import SourceIndex.Proofs.Parents

/-! Keys are numbered in the order of the tour. In a tree, all keys above a node were entered before
it and are known, so that resolving a declaration numbers no key, however deep in objects it is. -/

namespace SourceIndex

open Memory World

/-- The same keys are known by the same symbols, and as many were counted. -/
structure Memory.SameKeys (w : World) (m m₁ : Memory) : Prop where
  counts : m₁.resolver.keyCounts = m.resolver.keyCounts
  table : ∀ k, (w.spelling? k).isSome → m₁.table.get? k = m.table.get? k

section Resolution

variable {w : World} {m m₁ m₂ : Memory} {key : NodeKey} {f : SourceFile} {n : Node} {s : Symbol}
  {mayCut : Prop} {links : Nat}

theorem not_isOwned_of_spelling (h : (w.spelling? key).isSome) : ¬ w.IsOwned key := by
  rintro ⟨f, n, hnode, howned⟩
  simp [spelling?_of_hasOwner hnode howned] at h

theorem World.owner?_eq_some {owner : NodeKey} (h : w.owner? key = some owner) :
    w.IsOwned key ∧ ∃ f parent, w.program.file? key.file = some f ∧
      f.arena.parent key.node = some parent ∧ owner = ⟨key.file, some parent⟩ := by
  obtain ⟨⟨f, n⟩, hnode, howner⟩ := Option.bind_eq_some_iff.mp h
  cases howned : n.hasOwner with
  | false => simp [howned] at howner
  | true =>
    simp only [howned, if_true] at howner
    obtain ⟨parent, hparent, rfl⟩ := Option.map_eq_some_iff.mp howner
    exact ⟨⟨f, n, hnode, howned⟩, f, parent, (node?_eq_some_iff.mp hnode).1, hparent, rfl⟩

theorem World.Above.eq_of_not_isOwned {a : NodeKey} (h : w.Above key a) (hkey : ¬ w.IsOwned key) :
    a = key := by
  rcases h.cases_head with rfl | ⟨owner, howner, -⟩
  · rfl
  · exact absurd (owner?_eq_some howner).1 hkey

namespace Memory.SameKeys

theorem refl (w : World) (m : Memory) : m.SameKeys w m := ⟨rfl, fun _ _ => rfl⟩

theorem trans (h : m.SameKeys w m₁) (h' : m₁.SameKeys w m₂) : m.SameKeys w m₂ :=
  ⟨h'.counts.trans h.counts, fun k hk => (h'.table k hk).trans (h.table k hk)⟩

theorem heard (h : Heard m m₁) : m.SameKeys w m₁ :=
  ⟨congrArg Resolver.keyCounts h.resolver, fun _ _ => by rw [h.table]⟩

theorem newLocal (key : NodeKey) (m : Memory) : m.SameKeys w ((newLocal key).run m).2 :=
  ⟨rfl, fun _ _ => rfl⟩

theorem remember (hkey : w.spelling? key = none) (s : Symbol) (m : Memory) :
    m.SameKeys w ((remember key s).run m).2 := by
  refine ⟨rfl, fun k hk => Table.get?_insert_of_ne _ ?_ _⟩
  rintro rfl
  simp [hkey] at hk

theorem count (h : m.SameKeys w m₁) (spelling : String) :
    m₁.resolver.count spelling = m.resolver.count spelling := by
  rw [Resolver.count, Resolver.count, h.counts]

end Memory.SameKeys

theorem Memory.Keeps.table (h : m.Keeps m₁) (hs : m.table.get? key = some s) :
    m₁.table.get? key = some s := by
  have hknown : (m.known? key).isSome := known?_isSome_iff.mpr (.inl (by simp [hs]))
  exact (h key hknown).1.trans hs

/-- Where nobody names a node, a resolution follows owners only. If all keys among them are known,
it numbers none. -/
theorem Resolves.sameKeys (hno : w.collaborators.AnswersNoNode)
    (h : Resolves w mayCut links key m s m₁)
    (hknown : ∀ a, w.Above key a → (w.spelling? a).isSome → (m.known? a).isSome) :
    m.SameKeys w m₁ := by
  have howner : ∀ {key m f n m₁ parent}, AsksOwner w key m f n m₁ →
      f.arena.parent key.node = some parent →
      (∀ a, w.Above key a → (w.spelling? a).isSome → (m.known? a).isSome) →
      ∀ a, w.Above ⟨key.file, some parent⟩ a → (w.spelling? a).isSome → (m₁.known? a).isSome := by
    intro key m f n m₁ parent hasks hparent hknown a ha hspelling
    have howner : w.owner? key = some ⟨key.file, some parent⟩ := by
      rw [owner?_of_hasOwner hasks.node hasks.hasOwner, hparent]
      rfl
    rw [hasks.heard.known?]
    exact hknown a (ha.of_owner howner) hspelling
  induction h with
  | known => exact .refl w _
  | cut => exact .newLocal _ _
  | missing => exact .refl w _
  | block => exact .refl w _
  | @file _ key m f n _ _ _ hnode hkind hpackage =>
    obtain ⟨-, rfl⟩ := Prod.mk.inj hpackage
    have hasked : m.SameKeys w ((packageOf w.collaborators f.name).run m).2 :=
      ⟨rfl, fun _ _ => rfl⟩
    exact hasked.trans (.remember (spelling?_of_isFile ⟨f, n, hnode, hkind⟩) _ _)
  -- a key is above itself, so it would be known
  | counted h hnode hkey =>
    have hself := hknown _ .refl (by simp [spelling?_of_isKey hnode hkey])
    simp [h] at hself
  | property _ _ _ htarget =>
    have hnone := (setTarget?_spec htarget).1
    simp [declaredProperty?_eq_none hno] at hnone
  | orphan hasks => exact (SameKeys.heard hasks.heard).trans (.newLocal _ _)
  | unowned hasks hparent _ _ ih =>
    have h₂ := ih (howner hasks hparent hknown)
    exact ((SameKeys.heard hasks.heard).trans h₂).trans (.newLocal _ _)
  | container hasks hparent _ _ ih =>
    have h₂ := ih (howner hasks hparent hknown)
    have hspelling := spelling?_of_hasOwner hasks.node hasks.hasOwner
    exact ((SameKeys.heard hasks.heard).trans h₂).trans (.remember hspelling _ _)
  | imported _ _ _ _ himport =>
    have hnone := (importTarget?_spec himport).1
    simp [declaredImport?_eq_none hno] at hnone
  | declared hasks hparent _ _ himport _ ih =>
    have h₂ := ih (howner hasks hparent hknown)
    have h₃ := h₂.trans (.heard (importTarget?_spec himport).2)
    have hspelling := spelling?_of_hasOwner hasks.node hasks.hasOwner
    exact ((SameKeys.heard hasks.heard).trans h₃).trans (.remember hspelling _ _)
  | undeclared hasks hparent _ _ himport _ ih =>
    have h₂ := ih (howner hasks hparent hknown)
    have h₃ := h₂.trans (.heard (importTarget?_spec himport).2)
    exact ((SameKeys.heard hasks.heard).trans h₃).trans (.newLocal _ _)

theorem Resolves.uncut (hno : w.collaborators.AnswersNoNode)
    (h : Resolves w mayCut links key m s m₁) (hnear : w.askedAfter links key = none) :
    Resolves w False links key m s m₁ := by
  have howner : ∀ {links key m f n m₁ parent}, AsksOwner w key m f n m₁ →
      f.arena.parent key.node = some parent → w.askedAfter (links + 1) key = none →
      w.askedAfter links ⟨key.file, some parent⟩ = none := by
    intro links key m f n m₁ parent hasks hparent hnear
    rw [askedAfter, asked?_of_hasOwner hasks.node hasks.hasOwner,
      owner?_of_hasOwner hasks.node hasks.hasOwner, hparent] at hnear
    exact hnear
  induction h with
  | known h => exact .known h
  | cut => simp [askedAfter] at hnear
  | missing h hnode => exact .missing h hnode
  | block h hnode hkind => exact .block h hnode hkind
  | file h hnode hkind hpackage => exact .file h hnode hkind hpackage
  | counted h hnode hkey hnumber _ ih =>
    rw [askedAfter, asked?_of_isKey hnode hkey] at hnear
    exact .counted h hnode hkey hnumber (ih hnear)
  | property _ _ _ htarget =>
    have hnone := (setTarget?_spec htarget).1
    simp [declaredProperty?_eq_none hno] at hnone
  | orphan hasks hparent => exact .orphan hasks hparent
  | unowned hasks hparent _ hlocal ih =>
    exact .unowned hasks hparent (ih (howner hasks hparent hnear)) hlocal
  | container hasks hparent _ hcontainer ih =>
    exact .container hasks hparent (ih (howner hasks hparent hnear)) hcontainer
  | imported _ _ _ _ himport =>
    have hnone := (importTarget?_spec himport).1
    simp [declaredImport?_eq_none hno] at hnone
  | declared hasks hparent _ hcontainer himport hd ih =>
    exact .declared hasks hparent (ih (howner hasks hparent hnear)) hcontainer himport hd
  | undeclared hasks hparent _ hcontainer himport hd ih =>
    exact .undeclared hasks hparent (ih (howner hasks hparent hnear)) hcontainer himport hd

theorem Resolves.table_of_isFile (h : Resolves w False links key m s m₁) (hfile : w.IsFile key)
    (hlocal : m.resolver.locals.get? key = none) : m₁.table.get? key = some s := by
  rcases known?_eq_some (h.known_of_isFile hfile) with htable | ⟨number, hnumber, -⟩
  · exact htable
  · rw [h.locals_of_uncut (not_isOwned_of_isFile hfile), hlocal] at hnumber
    cases hnumber

theorem Resolves.of_key (h : Resolves w mayCut (links + 1) key m s m₁)
    (hunknown : m.known? key = none) (hnode : w.node? key = some (f, n)) (hkey : n.isKey = true) :
    ∃ owner m₂, Resolves w mayCut links ⟨key.file, f.root⟩
        ((countKey (f.nodeText n.payload.name)).run m).2 owner m₂ ∧
      m₁ = ((Memory.remember key (owner.extend ⟨.metadata, f.nodeText n.payload.name ++
        toString (m.resolver.count (f.nodeText n.payload.name) + 1)⟩)).run m₂).2 := by
  have hspelling : (w.spelling? key).isSome := by simp [spelling?_of_isKey hnode hkey]
  have hasks : ∀ {m m₁ f n}, ¬ AsksOwner w key m f n m₁ :=
    fun hasks => not_isOwned_of_spelling hspelling hasks.isOwned
  cases h with
  | known h => simp [hunknown] at h
  | missing _ hnode' => simp [hnode] at hnode'
  | block _ hnode' hkind =>
    obtain ⟨rfl, rfl⟩ := node?_unique hnode hnode'
    simp [Node.isKey, hkind] at hkey
  | file _ hnode' hkind =>
    obtain ⟨rfl, rfl⟩ := node?_unique hnode hnode'
    simp [Node.isKey, hkind] at hkey
  | @counted _ _ _ _ _ _ _ owner m₂ _ hnode' _ hnumber howner =>
    obtain ⟨rfl, rfl⟩ := node?_unique hnode hnode'
    obtain ⟨rfl, rfl⟩ := Prod.mk.inj hnumber
    exact ⟨owner, m₂, howner, rfl⟩
  | property _ hnode' howned =>
    exact absurd ⟨_, _, hnode', howned⟩ (not_isOwned_of_spelling hspelling)
  | orphan h => exact absurd h hasks
  | unowned h => exact absurd h hasks
  | container h => exact absurd h hasks
  | imported h => exact absurd h hasks
  | declared h => exact absurd h hasks
  | undeclared h => exact absurd h hasks

theorem Resolves.counts_key (hno : w.collaborators.AnswersNoNode)
    (h : Resolves w False (links + 1) key m s m₁) (hunknown : m.known? key = none)
    (hnode : w.node? key = some (f, n)) (hkey : n.isKey = true)
    (hfile : w.IsFile ⟨key.file, f.root⟩)
    (hlocal : m.resolver.locals.get? ⟨key.file, f.root⟩ = none) :
    (∃ root, m₁.table.get? ⟨key.file, f.root⟩ = some root ∧
      m₁.table.get? key = some (root.extend ⟨.metadata, f.nodeText n.payload.name ++
        toString (m.resolver.count (f.nodeText n.payload.name) + 1)⟩)) ∧
    (∀ t, m₁.resolver.count t = if t = f.nodeText n.payload.name then
      m.resolver.count (f.nodeText n.payload.name) + 1 else m.resolver.count t) ∧
    ∀ k, (w.spelling? k).isSome → k ≠ key → m₁.table.get? k = m.table.get? k := by
  obtain ⟨owner, m₂, howner, rfl⟩ := h.of_key hunknown hnode hkey
  have hroot : m₂.table.get? ⟨key.file, f.root⟩ = some owner :=
    howner.table_of_isFile hfile hlocal
  have hsame : SameKeys w ((countKey (f.nodeText n.payload.name)).run m).2 m₂ := by
    refine howner.sameKeys hno fun a ha hspelled => ?_
    rw [ha.eq_of_not_isOwned (not_isOwned_of_isFile hfile)] at hspelled
    simp [spelling?_of_isFile hfile] at hspelled
  have hne : (⟨key.file, f.root⟩ : NodeKey) ≠ key := by
    intro heq
    rw [heq] at hfile
    have hspelling := spelling?_of_isKey hnode hkey
    simp [spelling?_of_isFile hfile] at hspelling
  refine ⟨⟨owner, ?_, ?_⟩, fun t => ?_, fun k hk hkey => ?_⟩
  · exact (Table.get?_insert_of_ne _ hne _).trans hroot
  · exact Table.get?_insert_self _ _ _
  · have hcount := hsame.count t
    rw [Resolver.count_countKey] at hcount
    exact hcount
  · exact (Table.get?_insert_of_ne _ hkey _).trans (hsame.table k hk)

end Resolution

namespace SourceFile

def keyEntered? (f : SourceFile) (spelling : String) : Event → Option Nat
  | .enter i n =>
    if n.isKey = true ∧ f.nodeText n.payload.name = spelling then some i else none
  | _ => none

/-- The keys of one spelling in the order in which they are entered first. -/
def keysSpelled (f : SourceFile) (es : List Event) (spelling : String) : List Nat :=
  (es.filterMap (f.keyEntered? spelling)).eraseDups

variable {f : SourceFile} {es : List Event} {e : Event} {spelling : String} {i : Nat} {n : Node}

theorem mem_keysSpelled : i ∈ f.keysSpelled es spelling ↔
    ∃ n, .enter i n ∈ es ∧ n.isKey = true ∧ f.nodeText n.payload.name = spelling := by
  rw [keysSpelled, List.mem_eraseDups, List.mem_filterMap]
  constructor
  · rintro ⟨e, he, hentered⟩
    cases e with
    | enter j n =>
      rw [keyEntered?] at hentered
      split at hentered
      · next hkey =>
        obtain rfl := Option.some.inj hentered
        exact ⟨n, he, hkey⟩
      · cases hentered
    | _ => cases hentered
  · rintro ⟨n, he, hkey⟩
    exact ⟨_, he, if_pos hkey⟩

theorem keyEntered?_of_isKey (hkey : n.isKey = true) :
    f.keyEntered? (f.nodeText n.payload.name) (.enter i n) = some i := if_pos ⟨hkey, rfl⟩

theorem keysSpelled_other (h : f.keyEntered? spelling e = none) :
    f.keysSpelled (es ++ [e]) spelling = f.keysSpelled es spelling := by
  simp [keysSpelled, h]

theorem keysSpelled_enter_of_ne (h : spelling ≠ f.nodeText n.payload.name) :
    f.keysSpelled (es ++ [.enter i n]) spelling = f.keysSpelled es spelling :=
  keysSpelled_other (if_neg fun hname => h hname.2.symm)

theorem keysSpelled_again (h : f.keyEntered? spelling e = some i)
    (hi : i ∈ f.keysSpelled es spelling) :
    f.keysSpelled (es ++ [e]) spelling = f.keysSpelled es spelling := by
  rw [keysSpelled, List.mem_eraseDups] at hi
  rw [keysSpelled, keysSpelled, List.filterMap_append, List.filterMap_cons_some h,
    List.filterMap_nil, List.eraseDups_append, List.removeAll,
    List.filter_cons_of_neg (by simpa using hi)]
  exact List.append_nil _

theorem keysSpelled_first (h : f.keyEntered? spelling e = some i)
    (hi : i ∉ f.keysSpelled es spelling) :
    f.keysSpelled (es ++ [e]) spelling = f.keysSpelled es spelling ++ [i] := by
  rw [keysSpelled, List.mem_eraseDups] at hi
  rw [keysSpelled, keysSpelled, List.filterMap_append, List.filterMap_cons_some h,
    List.filterMap_nil, List.eraseDups_append, List.removeAll,
    List.filter_cons_of_pos (by simpa using hi)]
  rfl

end SourceFile

namespace FileContext

open SourceFile

variable {c : FileContext} {es : List Event} {m m₁ : Memory} {i : Nat} {n : Node}

def lookAt (c : FileContext) (m : Memory) : Event → Memory
  | .enter i n => ((c.look i n).run m).2
  | _ => m

def NumbersKeys (c : FileContext) (es : List Event) (t : SymbolTable) : Prop :=
  ∀ spelling k i, (c.file.keysSpelled es spelling)[k]? = some i →
    ∃ root, t.get? ⟨c.fileId, c.file.root⟩ = some root ∧
      t.get? ⟨c.fileId, some i⟩ = some (root.extend ⟨.metadata, spelling ++ toString (k + 1)⟩)

/-- No other keys of the file are known, the counts agree, and no key and no file is local. -/
structure KeysInOrder (c : FileContext) (es : List Event) (m : Memory) : Prop where
  numbers : c.NumbersKeys es m.table
  entered : ∀ i spelling, c.world.spelling? ⟨c.fileId, some i⟩ = some spelling →
    (m.table.get? ⟨c.fileId, some i⟩).isSome → i ∈ c.file.keysSpelled es spelling
  counts : ∀ spelling, m.resolver.count spelling = (c.file.keysSpelled es spelling).length
  locals : ∀ key, ¬ c.world.IsOwned key → m.resolver.locals.get? key = none

theorem NumbersKeys.mono {t t' : SymbolTable} (h : c.NumbersKeys es t)
    (hkeeps : ∀ key s, t.get? key = some s → t'.get? key = some s) : c.NumbersKeys es t' := by
  intro spelling k i hi
  obtain ⟨root, hroot, hkey⟩ := h spelling k i hi
  exact ⟨root, hkeeps _ _ hroot, hkeeps _ _ hkey⟩

theorem NumbersKeys.isSome {t : SymbolTable} (h : c.NumbersKeys es t) {spelling : String}
    (hi : i ∈ c.file.keysSpelled es spelling) : (t.get? ⟨c.fileId, some i⟩).isSome := by
  obtain ⟨k, hk⟩ := List.mem_iff_getElem?.mp hi
  obtain ⟨root, -, hkey⟩ := h spelling k i hk
  simp [hkey]

theorem KeysInOrder.empty {s : Session}
    (h : ∀ r, s.symbols.get? ⟨c.fileId, r⟩ = none) :
    c.KeysInOrder [] ⟨s.symbols, {}, s.packages, s.journal⟩ where
  numbers spelling k i hi := by simp [keysSpelled] at hi
  entered i spelling _ hi := by simp [h] at hi
  counts _ := rfl
  locals _ _ := rfl

theorem KeysInOrder.sameKeys {es' : List Event} (h : c.KeysInOrder es m)
    (hsame : m.SameKeys c.world m₁) (hkeeps : m.Keeps m₁)
    (hlocals : ∀ key, ¬ c.world.IsOwned key →
      m₁.resolver.locals.get? key = m.resolver.locals.get? key)
    (hes : ∀ spelling, c.file.keysSpelled es' spelling = c.file.keysSpelled es spelling) :
    c.KeysInOrder es' m₁ where
  numbers spelling k i hi := by
    rw [hes] at hi
    exact h.numbers.mono (fun _ _ => hkeeps.table) spelling k i hi
  entered i spelling hspelling hi := by
    rw [hsame.table _ (by simp [hspelling])] at hi
    rw [hes]
    exact h.entered i spelling hspelling hi
  counts spelling := by rw [hsame.count, hes, h.counts]
  locals key hkey := by rw [hlocals key hkey, h.locals key hkey]

/-- A key that was entered before is known, so it is not counted again. -/
theorem KeysInOrder.key_again (h : c.KeysInOrder es m) (hkey : n.isKey = true)
    (hi : i ∈ c.file.keysSpelled es (c.file.nodeText n.payload.name)) :
    c.KeysInOrder (es ++ [.enter i n])
      ((c.world.resolve c.options.maxSymbolDepth.toNat ⟨c.fileId, some i⟩).run m).2 := by
  obtain ⟨s, hs⟩ := Option.isSome_iff_exists.mp (h.numbers.isSome hi)
  have hknown : m.known? ⟨c.fileId, some i⟩ = some s := congrArg (· <|> _) hs
  rw [World.resolve, resolveWithin_known hknown]
  refine h.sameKeys (.refl _ m) (.refl m) (fun _ _ => rfl) fun spelling => ?_
  by_cases hname : spelling = c.file.nodeText n.payload.name
  · rw [hname]
    exact keysSpelled_again (keyEntered?_of_isKey hkey) hi
  · exact keysSpelled_enter_of_ne hname

section Tour

variable (hno : c.world.collaborators.AnswersNoNode)
  (hfile : c.world.program.file? c.fileId = some c.file)
  (hroot : c.file.arena.kind? c.file.root = some .sourceFile)

include hfile hroot

theorem isFile_root : c.world.IsFile ⟨c.fileId, c.file.root⟩ := by
  obtain ⟨n, hn, hkind⟩ := Option.map_eq_some_iff.mp hroot
  exact ⟨c.file, n, node?_eq_some_iff.mpr ⟨hfile, hn⟩, hkind⟩

theorem enters_of_above (hfirst : c.file.ParentsFirst es) (hi : Enters es i) {a : NodeKey}
    (ha : c.world.Above ⟨c.fileId, some i⟩ a) : ∃ j, a = ⟨c.fileId, some j⟩ ∧ Enters es j := by
  induction ha with
  | refl => exact ⟨i, rfl, hi⟩
  | tail _ howner ih =>
    obtain ⟨j, rfl, hj⟩ := ih
    obtain ⟨howned, f, parent, hf, hparent, rfl⟩ := owner?_eq_some howner
    obtain rfl := Option.some.inj (hfile.symm.trans hf)
    rcases hfirst.parent_of_enters hj with hjroot | ⟨j', hj', hparent'⟩
    · rw [hjroot] at howned
      exact absurd howned (not_isOwned_of_isFile (isFile_root hfile hroot))
    · obtain rfl := Option.some.inj (hparent.symm.trans hparent')
      exact ⟨parent, rfl, hj'⟩

include hno

/-- A key that was not entered before gets the next number of its spelling. -/
theorem KeysInOrder.key_first (h : c.KeysInOrder es m)
    (hnode : c.world.node? ⟨c.fileId, some i⟩ = some (c.file, n)) (hkey : n.isKey = true)
    (hi : i ∉ c.file.keysSpelled es (c.file.nodeText n.payload.name))
    (hnear : c.world.askedAfter (c.options.maxSymbolDepth.toNat + 1) ⟨c.fileId, some i⟩ = none) :
    c.KeysInOrder (es ++ [.enter i n])
      ((c.world.resolve c.options.maxSymbolDepth.toNat ⟨c.fileId, some i⟩).run m).2 := by
  have hspelling : c.world.spelling? ⟨c.fileId, some i⟩ = some (c.file.nodeText n.payload.name) :=
    spelling?_of_isKey hnode hkey
  have hunknown : m.known? ⟨c.fileId, some i⟩ = none := by
    refine known?_eq_none_iff.mpr ⟨?_, h.locals _ (not_isOwned_of_spelling (by simp [hspelling]))⟩
    by_contra hsome
    exact hi (h.entered i _ hspelling (Option.isSome_iff_ne_none.mpr hsome))
  have hresolves := (resolves_run (w := c.world) (c.options.maxSymbolDepth.toNat + 1)
    ⟨c.fileId, some i⟩ m).uncut hno hnear
  obtain ⟨⟨root, hrootSymbol, hkeySymbol⟩, hcounts, hothers⟩ :=
    hresolves.counts_key hno hunknown hnode hkey (isFile_root hfile hroot)
      (h.locals _ (not_isOwned_of_isFile (isFile_root hfile hroot)))
  have hfirst := keysSpelled_first (keyEntered?_of_isKey hkey) hi
  constructor
  case numbers =>
    intro spelling k j hj
    have hold := h.numbers.mono (fun _ _ => hresolves.keeps.table) spelling k j
    by_cases hname : spelling = c.file.nodeText n.payload.name
    · subst hname
      rw [hfirst, List.getElem?_append] at hj
      split at hj
      · exact hold hj
      -- the new key is the last one, and as many were counted as there are before it
      · next hge =>
        obtain ⟨hk, rfl⟩ :
            k - (c.file.keysSpelled es (c.file.nodeText n.payload.name)).length = 0 ∧ i = j := by
          simpa [List.getElem?_singleton] using hj
        have hlast : k = m.resolver.count (c.file.nodeText n.payload.name) := by
          rw [h.counts]
          omega
        rw [hlast]
        exact ⟨root, hrootSymbol, hkeySymbol⟩
    · rw [keysSpelled_enter_of_ne hname] at hj
      exact hold hj
  case entered =>
    intro j spelling hj hsome
    by_cases hji : j = i
    · subst hji
      obtain rfl := Option.some.inj (hspelling.symm.trans hj)
      rw [hfirst]
      simp
    · have hne : (⟨c.fileId, some j⟩ : NodeKey) ≠ ⟨c.fileId, some i⟩ := by simpa using hji
      have hbefore := hothers ⟨c.fileId, some j⟩ (by simp [hj]) hne
      have hmem := h.entered j spelling hj (by rw [← hbefore]; exact hsome)
      by_cases hname : spelling = c.file.nodeText n.payload.name
      · subst hname
        rw [hfirst]
        exact List.mem_append_left _ hmem
      · rwa [keysSpelled_enter_of_ne hname]
  case counts =>
    intro spelling
    have hcount := hcounts spelling
    by_cases hname : spelling = c.file.nodeText n.payload.name
    · subst hname
      rw [if_pos rfl, h.counts] at hcount
      rw [hfirst, List.length_append]
      exact hcount
    · rw [if_neg hname, h.counts] at hcount
      rw [keysSpelled_enter_of_ne hname]
      exact hcount
  case locals =>
    intro key hk
    exact (hresolves.locals_of_uncut hk).trans (h.locals key hk)

theorem KeysInOrder.key (h : c.KeysInOrder es m) (hnode : c.file.arena.get? (some i) = some n)
    (hkey : n.isKey = true)
    (hnear : c.world.askedAfter (c.options.maxSymbolDepth.toNat + 1) ⟨c.fileId, some i⟩ = none) :
    c.KeysInOrder (es ++ [.enter i n])
      ((c.world.resolve c.options.maxSymbolDepth.toNat ⟨c.fileId, some i⟩).run m).2 := by
  by_cases hi : i ∈ c.file.keysSpelled es (c.file.nodeText n.payload.name)
  · exact h.key_again hkey hi
  · exact h.key_first hno hfile hroot (node?_eq_some_iff.mpr ⟨hfile, hnode⟩) hkey hi hnear

theorem KeysInOrder.declaration (h : c.KeysInOrder es m)
    (hfirst : c.file.ParentsFirst (es ++ [.enter i n])) (hkey : n.isKey = false)
    (hnear : c.world.askedAfter (c.options.maxSymbolDepth.toNat + 1) ⟨c.fileId, some i⟩ = none) :
    c.KeysInOrder (es ++ [.enter i n])
      ((c.world.resolve c.options.maxSymbolDepth.toNat ⟨c.fileId, some i⟩).run m).2 := by
  have hresolves := (resolves_run (w := c.world) (c.options.maxSymbolDepth.toNat + 1)
    ⟨c.fileId, some i⟩ m).uncut hno hnear
  have hknown : ∀ a, c.world.Above ⟨c.fileId, some i⟩ a → (c.world.spelling? a).isSome →
      (m.known? a).isSome := by
    -- a key above the declaration was entered before it, at which time it was numbered
    intro a ha hspelled
    obtain ⟨j, rfl, n', hj⟩ := enters_of_above hfile hroot hfirst ⟨n, by simp⟩ ha
    have hnode : c.world.node? ⟨c.fileId, some j⟩ = some (c.file, n') :=
      node?_eq_some_iff.mpr ⟨hfile, hfirst.get?_of_mem hj⟩
    have hisKey : n'.isKey = true := by
      by_contra hnot
      simp [spelling?, hnode, hnot] at hspelled
    rcases List.mem_append.mp hj with hj | hj
    · have hmem : j ∈ c.file.keysSpelled es (c.file.nodeText n'.payload.name) :=
        mem_keysSpelled.mpr ⟨n', hj, hisKey, rfl⟩
      exact known?_isSome_iff.mpr (.inl (h.numbers.isSome hmem))
    · obtain ⟨-, rfl⟩ := Event.enter.inj (List.mem_singleton.mp hj)
      simp [hkey] at hisKey
  refine h.sameKeys (hresolves.sameKeys hno hknown) hresolves.keeps
    (fun _ hk => hresolves.locals_of_uncut hk) fun spelling => keysSpelled_other (if_neg ?_)
  simp [hkey]

variable (hdepth : ∀ i links, c.file.arena.parent^[links] (some i) = c.file.root →
  links ≤ c.options.maxSymbolDepth.toNat)

include hdepth

theorem KeysInOrder.look (h : c.KeysInOrder es m)
    (hfirst : c.file.ParentsFirst (es ++ [.enter i n])) :
    c.KeysInOrder (es ++ [.enter i n]) ((c.look i n).run m).2 := by
  obtain ⟨links, hchain⟩ := hfirst.exists_chain (i := i) ⟨n, by simp⟩
  have hnear : c.world.askedAfter (c.options.maxSymbolDepth.toNat + 1) ⟨c.fileId, some i⟩ = none :=
    askedAfter_mono (askedAfter_of_chain hfile hroot hchain)
      (Nat.succ_le_succ (hdepth i links hchain))
  have hnode := hfirst.get?_of_mem (i := i) (n := n) (by simp)
  unfold FileContext.look
  split
  · cases hkey : n.isKey with
    | true => exact h.key hno hfile hroot hnode hkey hnear
    | false => exact h.declaration hno hfile hroot hfirst hkey hnear
  · next hneither =>
    have hkey : n.isKey = false := by
      cases hkey : n.isKey with
      | true => simp [hkey] at hneither
      | false => rfl
    refine h.sameKeys (.refl _ m) (.refl m) (fun _ _ => rfl) fun spelling =>
      keysSpelled_other (if_neg ?_)
    simp [hkey]

theorem KeysInOrder.run (h : c.KeysInOrder [] m) (hfirst : c.file.ParentsFirst es) :
    c.KeysInOrder es (es.foldl c.lookAt m) := by
  induction hfirst with
  | nil => exact h
  | enter hfirst hnode hparent ih =>
    rw [List.foldl_append]
    exact ih.look hno hfile hroot hdepth (hfirst.enter hnode hparent)
  | @other es e hfirst he ih =>
    have hnone : ∀ spelling, c.file.keyEntered? spelling e = none := by
      intro spelling
      cases e with
      | enter i n => exact absurd rfl (he i n)
      | _ => rfl
    have hsame : c.lookAt (es.foldl c.lookAt m) e = es.foldl c.lookAt m := by
      cases e with
      | enter i n => exact absurd rfl (he i n)
      | _ => rfl
    rw [List.foldl_append, List.foldl_cons, List.foldl_nil, hsame]
    exact ih.sameKeys (.refl _ _) (.refl _) (fun _ _ => rfl) fun spelling =>
      keysSpelled_other (hnone spelling)

end Tour

theorem survey_memory (w : Walk Empty) (m : Memory) :
    ((c.survey w).run m).2 = w.events.foldl c.lookAt m := by
  induction w generalizing m with
  | done => rfl
  | operator token rest ih => exact ih m
  | operand token rest ih => exact ih m
  | node index n note inside rest ih ih' =>
    have hrun : ((c.survey (.node index n note inside rest)).run m).2 =
        ((c.survey rest).run ((c.survey inside).run ((c.look index n).run m).2).2).2 := rfl
    rw [hrun, ih', ih, Walk.events, List.foldl_cons, List.foldl_append, List.foldl_cons]
    rfl

theorem index_symbols {document : Nat} {s s' : Session} {summary : FileSummary}
    (h : (c.index document).run s = (.ok summary, s')) :
    s'.symbols =
      (c.file.tour.events.foldl c.lookAt ⟨s.symbols, {}, s.packages, s.journal⟩).table := by
  obtain ⟨hcut, r, hrun, rfl⟩ := index_run_of_ok h
  obtain ⟨session, hsession, hwrites⟩ := c.recordAll_outlines document s hcut
  rw [hrun] at hsession
  obtain ⟨j, hmemory, -⟩ := (after_walk (c := c) c.file.walk
    (m := ⟨s.symbols, {}, s.packages, s.journal⟩) (r := c.start document s)
    ⟨s.journal, rfl, rfl⟩).2
  rw [SourceFile.walk_events hcut] at hmemory
  have hclosed : (c.closed document s).session.symbols =
      (c.after (c.start document s) c.file.tour.events).session.symbols :=
    closeComponent_holds (I := fun t _ _ => t =
      (c.after (c.start document s) c.file.tour.events).session.symbols) _ rfl
  have hafter : (c.after (c.start document s) c.file.tour.events).session.symbols =
      ((c.survey c.file.walk).run ⟨s.symbols, {}, s.packages, s.journal⟩).2.table :=
    congrArg Memory.table hmemory
  rw [survey_memory, SourceFile.walk_events hcut] at hafter
  have hr : r.session = session := congrArg Recorder.session hsession
  rw [hr, hwrites.symbols, hclosed, hafter]

theorem index_keeps (document : Nat) (s : Session) {key : NodeKey} {symbol : Symbol}
    (h : s.symbols.get? key = some symbol) :
    ((c.index document).run s).2.symbols.get? key = some symbol := by
  have hresolve : ∀ index, Ensures (Recorder.Has fun t _ => t.get? key = some symbol)
      (c.resolve index) fun _ => Recorder.Has fun t _ => t.get? key = some symbol :=
    fun index r hr => (World.resolves_run (w := c.world) (c.options.maxSymbolDepth.toNat + 1)
      ⟨c.fileId, some index⟩ r.memory).keeps.table hr
  unfold index
  split
  · exact recordAll_has hresolve document { session := s } h
  · exact h

theorem index_ok_of_fault? (h : c.file.fault? = none) (document : Nat) (s : Session) :
    ∃ summary s', (c.index document).run s = (.ok summary, s') := by
  cases hrun : (c.index document).run s with
  | mk result s' =>
    cases result with
    | ok summary => exact ⟨summary, s', rfl⟩
    | error e =>
      have hfault := (index_error_iff document s e).mp (congrArg Prod.fst hrun)
      simp [h] at hfault

theorem fault?_of_index_ok {document : Nat} {s s' : Session} {summary : FileSummary}
    (h : (c.index document).run s = (.ok summary, s')) : c.file.fault? = none := by
  cases hfault : c.file.fault? with
  | none => rfl
  | some e =>
    have hfailed := (index_error_iff document s e).mpr hfault
    rw [h] at hfailed
    cases hfailed

theorem index_numbersKeys (hno : c.world.collaborators.AnswersNoNode)
    (hfile : c.world.program.file? c.fileId = some c.file) (htree : c.file.arena.IsTree)
    (hdepth : ∀ i links, c.file.arena.parent^[links] (some i) = c.file.root →
      links ≤ c.options.maxSymbolDepth.toNat)
    {document : Nat} {s s' : Session} {summary : FileSummary}
    (hs : ∀ r, s.symbols.get? ⟨c.fileId, r⟩ = none)
    (h : (c.index document).run s = (.ok summary, s')) :
    c.NumbersKeys c.file.tour.events s'.symbols := by
  have hroot : c.file.arena.kind? c.file.root = some .sourceFile := by
    by_contra hroot
    rw [index_unrooted hroot] at h
    cases h
  rw [index_symbols h]
  exact ((KeysInOrder.empty hs).run hno hfile hroot hdepth (parentsFirst_tour htree)).numbers

end FileContext

namespace Project

variable {p : Project} {fileId : Nat} {file : SourceFile}

theorem visits_snoc (before : List Nat) (id : Nat) :
    p.visits (before ++ [id]) = p.visit (p.visits before) id := List.foldl_append

theorem visit_keeps (s : Session) (id : Nat) {key : NodeKey} {symbol : Symbol}
    (h : s.symbols.get? key = some symbol) : (p.visit s id).symbols.get? key = some symbol := by
  unfold Project.visit
  split
  · rw [indexFile_run]
    exact FileContext.index_keeps _ _ h
  · exact h

theorem visits_untouched (hno : p.collaborators.AnswersNoNode) {before : List Nat}
    (h : fileId ∉ before) :
    Untouched p.collaborators (· = fileId) (p.visits before).symbols
      (p.visits before).packages := by
  induction before using List.reverseRec with
  | nil => exact ⟨fun _ _ _ => rfl, p.collaborators.remembers_empty⟩
  | append_singleton before id ih =>
    simp only [List.mem_append, List.mem_singleton, not_or] at h
    have hbefore := ih h.1
    rw [visits_snoc]
    unfold Project.visit
    split
    · next other _ =>
      rw [indexFile_run]
      exact FileContext.index_untouched (c := p.context id other) hno
        (fun heq => h.2 heq.symm) _ hbefore
    · exact hbefore

section Tree

variable (hno : p.collaborators.AnswersNoNode) (hfile : p.program.file? fileId = some file)
  (htree : file.arena.IsTree)
  (hdepth : ∀ i links, file.arena.parent^[links] (some i) = file.root →
    links ≤ p.options.maxSymbolDepth.toNat)

include hno hfile htree hdepth

theorem visits_numbersKeys (hfault : file.fault? = none) {before : List Nat}
    (hmem : fileId ∈ before) :
    (p.context fileId file).NumbersKeys file.tour.events (p.visits before).symbols := by
  induction before using List.reverseRec with
  | nil => cases hmem
  | append_singleton before id ih =>
    rw [visits_snoc]
    by_cases hbefore : fileId ∈ before
    · exact (ih hbefore).mono fun _ _ => visit_keeps _ id
    · obtain rfl : fileId = id := by simpa [hbefore] using hmem
      let document : Element := .document (p.documentOf file).1 (p.documentOf file).2
      let s := ((Session.vertex document).run (p.visits before)).2
      obtain ⟨summary, s', hrun⟩ := FileContext.index_ok_of_fault?
        (c := p.context fileId file) hfault ((p.visits before).lastId + 1) s
      have hvisit : p.visit (p.visits before) fileId = s' := by
        simp only [Project.visit, hfile]
        rw [indexFile_run]
        exact congrArg Prod.snd hrun
      have huntouched := visits_untouched hno hbefore
      rw [hvisit]
      exact FileContext.index_numbersKeys (c := p.context fileId file) hno hfile htree hdepth
        (s := s) (fun r => huntouched.table fileId rfl r) hrun

/-- Keys are numbered in the order in which they are entered. Where nobody answers with a node, and
the file is a tree no deeper than owners are followed, its key number `k + 1` of some spelling has
the symbol of the root, with the spelling and the number added, whatever was indexed before. -/
theorem keys_numbered_in_order (before : List Nat) {document : Nat} {s s' : Session}
    {summary : FileSummary} (hs : s.symbols = (p.visits before).symbols)
    (h : ((p.context fileId file).index document).run s = (.ok summary, s')) :
    ∀ spelling k i, (file.keysSpelled file.tour.events spelling)[k]? = some i →
      ∃ root, s'.symbols.get? ⟨fileId, file.root⟩ = some root ∧
        s'.symbols.get? ⟨fileId, some i⟩ = some (.global
          (root.render ++ Descriptor.render ⟨.metadata, spelling ++ toString (k + 1)⟩)) := by
  by_cases hmem : fileId ∈ before
  · have hnumbers := visits_numbersKeys hno hfile htree hdepth
      (FileContext.fault?_of_index_ok h) hmem
    rw [← hs] at hnumbers
    refine hnumbers.mono fun key symbol hsymbol => ?_
    have hkeeps := FileContext.index_keeps (c := p.context fileId file) document s hsymbol
    rwa [h] at hkeeps
  · have huntouched := visits_untouched hno hmem
    rw [← hs] at huntouched
    exact FileContext.index_numbersKeys (c := p.context fileId file) hno hfile htree hdepth
      (fun r => huntouched.table fileId rfl r) h

end Tree

/-- Three keys of one spelling, the last one inside a class that is the value of the second one. -/
def keysAroundClass : Project where
  program := ⟨#[file]⟩
  options := {}
  collaborators := { Collaborators.none with package := fun _ => pure (some (.package "p" "1")) }
where
  file : SourceFile :=
    { name := "a.ts"
      text := "(\x7bx:1\x7d);(\x7bx:class Foo\x7bp=\x7bx:2\x7d\x7d\x7d);".toList
      arena := Arena.empty
        |>.add .identifier 2 3 (.identifier "x")
        |>.add .numericLiteral 4 5 (.literal "1")
        |>.add .propertyAssignment 2 5 (.expression (.property (some 0) (some 1)))
        |>.add .objectLiteralExpression 1 6 (.expression (.elements [some 2]))
        |>.add .parenthesizedExpression 0 7 (.expression (.wrapped (some 3) false))
        |>.add .expressionStatement 0 8 (.statement (.expression (some 4)))
        |>.add .identifier 10 11 (.identifier "x")
        |>.add .identifier 18 21 (.identifier "Foo")
        |>.add .identifier 22 23 (.identifier "p")
        |>.add .identifier 25 26 (.identifier "x")
        |>.add .numericLiteral 27 28 (.literal "2")
        |>.add .propertyAssignment 25 28 (.expression (.property (some 9) (some 10)))
        |>.add .objectLiteralExpression 24 29 (.expression (.elements [some 11]))
        |>.add .propertyDeclaration 22 29
          (.declaration (.property none (some 8) false false none (some 12)))
        |>.add .classExpression 12 30
          (.declaration (.classLike none (some 7) none none [some 13]))
        |>.add .propertyAssignment 10 30 (.expression (.property (some 6) (some 14)))
        |>.add .objectLiteralExpression 9 31 (.expression (.elements [some 15]))
        |>.add .parenthesizedExpression 8 32 (.expression (.wrapped (some 16) false))
        |>.add .expressionStatement 8 33 (.statement (.expression (some 17)))
        |>.add .sourceFile 0 33 (.sourceFile [some 5, some 18] "a.ts" .ts false)
      root := some 19 }

theorem keysAroundClass_isTree : keysAroundClass.file.arena.IsTree := by
  have hsize : ∀ i j, j ∈ keysAroundClass.file.arena.children (some i) → i < 20 :=
    fun i j hj => Arena.lt_size_of_mem_children hj
  have hsmaller : ∀ i < 20, ∀ j ∈ keysAroundClass.file.arena.children (some i), j < i := by
    decide +kernel
  have honce : ∀ i < 20, ∀ i' < 20, ∀ j ∈ keysAroundClass.file.arena.children (some i),
      j ∈ keysAroundClass.file.arena.children (some i') → i = i' := by
    decide +kernel
  refine ⟨by repeat' constructor, fun i j hj => hsmaller i (hsize i j hj) j hj, ?_⟩
  exact fun i i' j hj hj' => honce i (hsize i j hj) i' (hsize i' j hj') j hj hj'

theorem keysAroundClass_in_order :
    keysAroundClass.file.keysSpelled keysAroundClass.file.tour.events "x" = [2, 15, 11] ∧
      ∃ summary s' root, ((keysAroundClass.context 0 keysAroundClass.file).index 7).run
          (keysAroundClass.visits [0]) = (.ok summary, s') ∧
        s'.symbols.get? ⟨0, some 19⟩ = some root ∧
        s'.symbols.get? ⟨0, some 11⟩ = some (.global (root.render ++ "x3:")) := by
  have hkeys : keysAroundClass.file.keysSpelled keysAroundClass.file.tour.events "x" =
      [2, 15, 11] := by
    decide +kernel
  have hcut : keysAroundClass.file.tour.isCut = false := by decide +kernel
  have hfault : keysAroundClass.file.fault? = none := by
    have hfile : keysAroundClass.file.arena.kind? keysAroundClass.file.root = some .sourceFile :=
      rfl
    rw [SourceFile.fault?, if_pos hfile, hcut]
    rfl
  have hdepth : ∀ i links,
      keysAroundClass.file.arena.parent^[links] (some i) = keysAroundClass.file.root →
        links ≤ keysAroundClass.options.maxSymbolDepth.toNat := by
    intro i links hchain
    have hle := keysAroundClass_isTree.add_le_of_iterate_parent hchain
    have hlimit : 19 ≤ keysAroundClass.options.maxSymbolDepth.toNat := by decide
    omega
  obtain ⟨summary, s', hrun⟩ := FileContext.index_ok_of_fault?
    (c := keysAroundClass.context 0 keysAroundClass.file) hfault 7 (keysAroundClass.visits [0])
  obtain ⟨root, hroot, hkey⟩ := keys_numbered_in_order ⟨fun _ _ => rfl, fun _ => rfl⟩ rfl
    keysAroundClass_isTree hdepth [0] rfl hrun "x" 2 11 (by rw [hkeys]; rfl)
  exact ⟨hkeys, summary, s', root, hrun, hroot, hkey⟩

end Project

end SourceIndex
