import SourceIndex.Proofs.OwnerChain

/-! What the limit on chains of owners does to later answers. The node at which a resolution is cut
off keeps the local symbol that it is given there, so everything below it is local from then on,
also what is near enough to its file. Nothing else is affected. The world here is one in which
nobody knows of imports or properties, so that a node asks only its owner or its file. -/

namespace SourceIndex

open Memory World

/-- The symbol is of the sort that the meaning says, with the text it says where no key is numbered
in it. -/
def Meaning.Resembles : Meaning → Symbol → Prop
  | .empty, s => s = .empty
  | .given n, s => s = .fileLocal n
  | .fileLocal _, s => ∃ n, s = .fileLocal n
  | .global pieces, s => ∃ text, s = .global text ∧
      ((Meaning.global pieces).keys = [] → text = Piece.fillAll (fun _ => ⟨0, 0⟩) pieces)

def Symbol.SameSort : Symbol → Symbol → Prop
  | .empty, .empty => True
  | .fileLocal _, .fileLocal _ => True
  | .global _, .global _ => True
  | _, _ => False

namespace Meaning

variable {μ : Meaning} {s s' : Symbol} {pieces : List Piece}

theorem ofPackage_resembles (package : Option Symbol) :
    (ofPackage package).Resembles (package.getD .empty) := by
  match package with
  | none => rfl
  | some .empty => rfl
  | some (.fileLocal n) => rfl
  | some (.global text) => exact ⟨text, rfl, fun _ => by simp [Piece.fill]⟩

theorem Resembles.sameSort (h : μ.Resembles s) (h' : μ.Resembles s') : s.SameSort s' := by
  cases μ with
  | empty =>
    rw [show s = .empty from h, show s' = .empty from h']
    trivial
  | given n =>
    rw [show s = .fileLocal n from h, show s' = .fileLocal n from h']
    trivial
  | fileLocal home =>
    obtain ⟨n, rfl⟩ := h
    obtain ⟨n', rfl⟩ := h'
    trivial
  | global pieces =>
    obtain ⟨text, rfl, -⟩ := h
    obtain ⟨text', rfl, -⟩ := h'
    trivial

theorem Resembles.exists_pieces {text : String} (h : μ.Resembles (.global text)) :
    ∃ pieces, μ = .global pieces ∧
      (μ.keys = [] → text = Piece.fillAll (fun _ => ⟨0, 0⟩) pieces) := by
  cases μ with
  | empty => exact Symbol.noConfusion h
  | given n => exact Symbol.noConfusion h
  | fileLocal home =>
    obtain ⟨n, h⟩ := h
    exact Symbol.noConfusion h
  | global pieces =>
    obtain ⟨_, htext, hfill⟩ := h
    exact ⟨pieces, rfl, fun hkeys => (Symbol.global.inj htext).trans (hfill hkeys)⟩

theorem Resembles.eq_of_global {text : String} (h : μ.Resembles (.global text))
    (h' : μ.Resembles s') (hkeys : μ.keys = []) : s' = .global text := by
  obtain ⟨pieces, rfl, hfill⟩ := h.exists_pieces
  obtain ⟨text', rfl, hfill'⟩ := h'
  rw [hfill hkeys, hfill' hkeys]

theorem keys_numbered_ne_nil (key : NodeKey) (pieces : List Piece) (spelling : String) :
    (global (pieces ++ [.numbered key spelling])).keys ≠ [] := by
  simp [keys, Piece.key?]

end Meaning

/-- What is remembered is right, or local because of a node above it that was cut off. -/
structure Memory.CutAt (w : World) (package : String → Option Symbol) (isCut : NodeKey → Prop)
    (m : Memory) : Prop where
  table : ∀ k s μ, m.table.get? k = some s → w.Means package k μ → μ.Resembles s
  locals : ∀ k n μ, m.resolver.locals.get? k = some n → w.Means package k μ →
    μ.Resembles (.fileLocal n) ∨ ∃ a, w.Above k a ∧ isCut a

/-- The answer is of the right sort, or it is local because of a node that was cut off. -/
def AnswersUnlessCut (w : World) (package : String → Option Symbol) (isCut : NodeKey → Prop)
    (key : NodeKey) (s : Symbol) : Prop :=
  ∀ μ, w.Means package key μ →
    μ.Resembles s ∨ (∃ n, s = .fileLocal n) ∧ ∃ a, w.Above key a ∧ isCut a

section Step

variable {w : World} {package : String → Option Symbol} {isCut : NodeKey → Prop} {links : Nat}
  {key : NodeKey} {m m' m₁ m₂ m₃ : Memory} {s : Symbol} {f : SourceFile} {n : Node}

namespace Memory.CutAt

theorem congr (h : m.CutAt w package isCut) (hsame : SameSymbols m m') :
    m'.CutAt w package isCut where
  table k s μ hk := h.table k s μ (hsame.table ▸ hk)
  locals k n μ hk := h.locals k n μ (hsame.locals ▸ hk)

theorem remember (h : m.CutAt w package isCut)
    (hs : ∀ μ, w.Means package key μ → μ.Resembles s) :
    ((Memory.remember key s).run m).2.CutAt w package isCut where
  table k s' μ hk hμ := by
    rcases eq_or_of_get?_remember hk with ⟨rfl, rfl⟩ | hk
    · exact hs μ hμ
    · exact h.table k s' μ hk hμ
  locals := h.locals

theorem newLocal (h : m.CutAt w package isCut)
    (hs : AnswersUnlessCut w package isCut key ((Memory.newLocal key).run m).1) :
    ((Memory.newLocal key).run m).2.CutAt w package isCut where
  table := h.table
  locals k n' μ hk hμ := by
    rcases eq_or_of_get?_newLocal hk with ⟨rfl, rfl⟩ | hk
    · exact (hs μ hμ).imp_right fun hcut => hcut.2
    · exact h.locals k n' μ hk hμ

theorem known (h : m.CutAt w package isCut) (hk : m.known? key = some s) :
    AnswersUnlessCut w package isCut key s := by
  intro μ hμ
  rcases known?_eq_some hk with ht | ⟨n, hn, rfl⟩
  · exact .inl (h.table key s μ ht hμ)
  · exact (h.locals key n μ hn hμ).imp_right fun hcut => ⟨⟨n, rfl⟩, hcut⟩

end Memory.CutAt

theorem AnswersUnlessCut.global {text : String}
    (h : AnswersUnlessCut w package isCut key (.global text)) {μ : Meaning}
    (hμ : w.Means package key μ) : μ.Resembles (.global text) := by
  rcases h μ hμ with hs | ⟨⟨n, hn⟩, -⟩
  · exact hs
  · exact Symbol.noConfusion hn

theorem AsksOwner.owner? (hasks : AsksOwner w key m f n m₁) {parent : Nat}
    (hparent : f.arena.parent key.node = some parent) :
    w.owner? key = some ⟨key.file, some parent⟩ := by
  rw [owner?_of_hasOwner hasks.node hasks.hasOwner, hparent]
  rfl

theorem AsksOwner.cut? (hasks : AsksOwner w key m f n m₁) {parent : Nat}
    (hparent : f.arena.parent key.node = some parent) :
    w.cut? m₁ links ⟨key.file, some parent⟩ = w.cut? m (links + 1) key := by
  rw [cut?_congr hasks.sameSymbols, cut?_succ hasks.unknown,
    asked?_of_hasOwner hasks.node hasks.hasOwner, hasks.owner? hparent]
  rfl

section Owner

variable (hw : w.collaborators.Silent) (hasks : AsksOwner w key m f n m₁) {parent : Nat}
  (hparent : f.arena.parent key.node = some parent)

include hw hasks hparent

theorem answers_unowned {owner : Symbol} {k : Nat}
    (howner : AnswersUnlessCut w package isCut ⟨key.file, some parent⟩ owner)
    (hlocal : ∀ text, owner ≠ .global text) :
    AnswersUnlessCut w package isCut key (.fileLocal k) := by
  intro μ hμ
  obtain ⟨ν, hν, hbelow⟩ := hμ.owner hw hasks.node hasks.hasOwner hparent
  rcases howner ν hν with hs | ⟨-, a, ha, hcut⟩
  · left
    cases ν with
    | global pieces =>
      obtain ⟨text, hs, -⟩ := hs
      exact absurd hs (hlocal text)
    | empty =>
      obtain rfl := Option.some.inj hbelow
      exact ⟨k, rfl⟩
    | given n =>
      obtain rfl := Option.some.inj hbelow
      exact ⟨k, rfl⟩
    | fileLocal home =>
      obtain rfl := Option.some.inj hbelow
      exact ⟨k, rfl⟩
  · exact .inr ⟨⟨k, rfl⟩, a, ha.of_owner (hasks.owner? hparent), hcut⟩

variable {text : String}
  (howner : AnswersUnlessCut w package isCut ⟨key.file, some parent⟩ (.global text))

include howner

theorem resembles_container (hcontainer : n.isContainer = true) {μ : Meaning}
    (hμ : w.Means package key μ) : μ.Resembles (.global text) := by
  obtain ⟨ν, hν, hbelow⟩ := hμ.owner hw hasks.node hasks.hasOwner hparent
  have hs := howner.global hν
  obtain ⟨pieces, rfl, -⟩ := hs.exists_pieces
  simp only [meaningBelow, hcontainer, if_true] at hbelow
  obtain rfl := Option.some.inj hbelow
  exact hs

theorem resembles_declared (hcontainer : n.isContainer = false) {d : Descriptor}
    (hd : descriptor? f n = some d) {μ : Meaning} (hμ : w.Means package key μ) :
    μ.Resembles (Symbol.extend (.global text) d) := by
  obtain ⟨ν, hν, hbelow⟩ := hμ.owner hw hasks.node hasks.hasOwner hparent
  obtain ⟨pieces, rfl, hfill⟩ := (howner.global hν).exists_pieces
  simp only [meaningBelow, hcontainer, declaredImport?_of_silent hw, hd] at hbelow
  obtain rfl := Option.some.inj hbelow
  refine ⟨text ++ d.render, rfl, fun hkeys => ?_⟩
  rw [Meaning.keys_append_text] at hkeys
  rw [Piece.fillAll_append, ← hfill hkeys, Piece.fillAll_singleton, Piece.fill]

theorem resembles_undeclared (hcontainer : n.isContainer = false) (hd : descriptor? f n = none)
    {μ : Meaning} (hμ : w.Means package key μ) (k : Nat) : μ.Resembles (.fileLocal k) := by
  obtain ⟨ν, hν, hbelow⟩ := hμ.owner hw hasks.node hasks.hasOwner hparent
  obtain ⟨pieces, rfl, -⟩ := (howner.global hν).exists_pieces
  simp only [meaningBelow, hcontainer, declaredImport?_of_silent hw, hd] at hbelow
  obtain rfl := Option.some.inj hbelow
  exact ⟨k, rfl⟩

end Owner

/-- One resolution. Whatever it adds is right, or local because of a node that was cut off, now or
before. -/
theorem Resolves.cutAt {mayCut : Prop} (hw : w.collaborators.Silent) (hp : w.FixedPackages package)
    (h : Resolves w mayCut links key m s m') (hm : m.CutAt w package isCut)
    (hcut : ∀ a, w.cut? m links key = some a → isCut a) :
    m'.CutAt w package isCut ∧ AnswersUnlessCut w package isCut key s := by
  induction h with
  | known h => exact ⟨hm, hm.known h⟩
  | @cut key m _ h =>
    have hself : isCut key := hcut key (by simp [World.cut?, h])
    have hs : AnswersUnlessCut w package isCut key ((Memory.newLocal key).run m).1 :=
      fun _ _ => .inr ⟨⟨_, rfl⟩, key, .refl, hself⟩
    exact ⟨hm.newLocal hs, hs⟩
  | missing _ hnode =>
    refine ⟨hm, fun μ hμ => .inl ?_⟩
    obtain rfl := hμ.unique (means_missing hnode)
    rfl
  | block _ hnode hkind =>
    refine ⟨hm, fun μ hμ => .inl ?_⟩
    obtain rfl := hμ.unique (means_block hnode hkind)
    rfl
  | @file _ key m f n found _ h hnode hkind hpackage =>
    obtain ⟨hfound, rfl⟩ := Prod.mk.inj hpackage
    obtain rfl : package f.name = found := (hp f.name m.packages).symm.trans hfound
    have hs : ∀ μ, w.Means package key μ → μ.Resembles ((package f.name).getD .empty) := by
      intro μ hμ
      obtain rfl := hμ.unique (means_file hnode hkind)
      exact Meaning.ofPackage_resembles _
    have hm₁ : ((packageOf w.collaborators f.name).run m).2.CutAt w package isCut :=
      hm.congr ⟨rfl, rfl⟩
    exact ⟨hm₁.remember hs, fun μ hμ => .inl (hs μ hμ)⟩
  | @counted _ key m f n number _ owner _ h hnode hkey hnumber _ ih =>
    have hsame := countKey_sameSymbols hnumber
    obtain ⟨hm₂, -⟩ := ih (hm.congr hsame) fun a ha => hcut a (by
      rw [cut?_succ h, asked?_of_isKey hnode hkey]
      rwa [cut?_congr hsame] at ha)
    have hs : ∀ μ, w.Means package key μ →
        μ.Resembles (owner.extend ⟨.metadata, f.nodeText n.payload.name ++ toString number⟩) := by
      rintro μ ⟨links, hμ⟩
      cases links with
      | zero => simp [meaning?] at hμ
      | succ links =>
        rw [meaning?, meaningBy_key hnode hkey] at hμ
        obtain ⟨root, -, rfl⟩ := Option.map_eq_some_iff.mp hμ
        exact ⟨_, rfl, fun hkeys => absurd hkeys (Meaning.keys_numbered_ne_nil _ _ _)⟩
    exact ⟨hm₂.remember hs, fun μ hμ => .inl (hs μ hμ)⟩
  | property _ _ _ htarget =>
    have hproperty := (setTarget?_spec htarget).1
    simp [declaredProperty?_of_silent hw] at hproperty
  | @orphan _ key m f n m₁ hasks hparent =>
    have hmeans : w.Means package key (.fileLocal key) :=
      means_orphan hasks.node hasks.hasOwner hasks.declaredProperty? hparent
    have hs : AnswersUnlessCut w package isCut key ((Memory.newLocal key).run m₁).1 := by
      intro μ hμ
      obtain rfl := hμ.unique hmeans
      exact .inl ⟨_, rfl⟩
    exact ⟨(hm.congr hasks.sameSymbols).newLocal hs, hs⟩
  | @unowned _ key _ _ _ _ _ _ m₂ hasks hparent _ hlocal ih =>
    obtain ⟨hm₂, howner⟩ := ih (hm.congr hasks.sameSymbols)
      fun a ha => hcut a ((hasks.cut? hparent).symm.trans ha)
    have hs := answers_unowned (k := m₂.resolver.lastLocal + 1) hw hasks hparent howner hlocal
    exact ⟨hm₂.newLocal hs, hs⟩
  | container hasks hparent _ hcontainer ih =>
    obtain ⟨hm₂, howner⟩ := ih (hm.congr hasks.sameSymbols)
      fun a ha => hcut a ((hasks.cut? hparent).symm.trans ha)
    have hs := fun μ => resembles_container (μ := μ) hw hasks hparent howner hcontainer
    exact ⟨hm₂.remember hs, fun μ hμ => .inl (hs μ hμ)⟩
  | imported _ _ _ _ himport =>
    have htarget := (importTarget?_spec himport).1
    simp [declaredImport?_of_silent hw] at htarget
  | declared hasks hparent _ hcontainer himport hd ih =>
    obtain ⟨hm₂, howner⟩ := ih (hm.congr hasks.sameSymbols)
      fun a ha => hcut a ((hasks.cut? hparent).symm.trans ha)
    have hm₃ := hm₂.congr (importTarget?_spec himport).2.sameSymbols
    have hs := fun μ => resembles_declared (μ := μ) hw hasks hparent howner hcontainer hd
    exact ⟨hm₃.remember hs, fun μ hμ => .inl (hs μ hμ)⟩
  | @undeclared _ key _ _ _ _ _ _ _ m₃ hasks hparent _ hcontainer himport hd ih =>
    obtain ⟨hm₂, howner⟩ := ih (hm.congr hasks.sameSymbols)
      fun a ha => hcut a ((hasks.cut? hparent).symm.trans ha)
    have hm₃ := hm₂.congr (importTarget?_spec himport).2.sameSymbols
    have hs : AnswersUnlessCut w package isCut key ((Memory.newLocal key).run m₃).1 :=
      fun μ hμ => .inl (resembles_undeclared hw hasks hparent howner hcontainer hd hμ _)
    exact ⟨hm₃.newLocal hs, hs⟩

theorem memoryAfter_cutAt {limit : Nat} {keys : List NodeKey} (hw : w.collaborators.Silent)
    (hp : w.FixedPackages package) (hm : m.CutAt w package isCut)
    (hcuts : ∀ a ∈ w.cuts limit m keys, isCut a) :
    (w.memoryAfter limit m keys).CutAt w package isCut := by
  induction keys generalizing m with
  | nil => exact hm
  | cons key keys ih =>
    have hstep := (resolves_run (w := w) (limit + 1) key m).cutAt hw hp hm
      fun a ha => hcuts a (List.mem_append_left _ (by simp [ha]))
    exact ih hstep.1 fun a ha => hcuts a (List.mem_append_right _ ha)

theorem cutAt_empty : Memory.CutAt w package isCut {} :=
  ⟨fun k s μ hk => by simp [Table.get?] at hk, fun k n μ hk => by simp [Table.get?] at hk⟩

end Step

/-- In one file: what has a remembered owner above it has one at every step, and the nodes that were
cut off stay local. -/
structure Memory.Rooted (w : World) (file : Nat) (isCut : NodeKey → Prop) (m : Memory) : Prop where
  table : ∀ k owner, k.file = file → (m.table.get? k).isSome → w.owner? k = some owner →
    (m.table.get? owner).isSome
  isCut : ∀ a, a.file = file → isCut a →
    (m.resolver.locals.get? a).isSome ∧ m.table.get? a = none

def World.IsRemembered (w : World) (m : Memory) (key : NodeKey) : Symbol → Prop
  | .global _ => (m.table.get? key).isSome
  | .empty => (m.table.get? key).isSome ∨ w.owner? key = none
  | .fileLocal _ => True

theorem isRemembered_of_isSome {w : World} {m : Memory} {key : NodeKey} (s : Symbol)
    (h : (m.table.get? key).isSome) : w.IsRemembered m key s := by
  cases s with
  | empty => exact .inl h
  | fileLocal n => trivial
  | global text => exact h

theorem isRemembered_remember {w : World} (key : NodeKey) (s : Symbol) (m : Memory) :
    w.IsRemembered ((Memory.remember key s).run m).2 key s :=
  isRemembered_of_isSome s (Table.isSome_get?_insert.mpr (.inl rfl))

section Rooted

variable {w : World} {file : Nat} {isCut isCut' : NodeKey → Prop} {links : Nat} {key a : NodeKey}
  {m m' m₁ : Memory} {s : Symbol} {f : SourceFile} {n : Node}

theorem owner?_file {owner : NodeKey} (h : w.owner? key = some owner) : owner.file = key.file := by
  unfold owner? at h
  obtain ⟨⟨f, n⟩, -, h⟩ := Option.bind_eq_some_iff.mp h
  by_cases howned : n.hasOwner = true
  · simp only [howned, if_true] at h
    obtain ⟨parent, -, rfl⟩ := Option.map_eq_some_iff.mp h
    rfl
  · simp [howned] at h

namespace Memory.Rooted

theorem mono (h : m.Rooted w file isCut) (hsub : ∀ a, isCut' a → isCut a) :
    m.Rooted w file isCut' :=
  ⟨h.table, fun a hfile ha => h.isCut a hfile (hsub a ha)⟩

theorem congr (h : m.Rooted w file isCut) (hsame : SameSymbols m m') : m'.Rooted w file isCut where
  table k owner hfile hk howner := by
    rw [hsame.table] at hk ⊢
    exact h.table k owner hfile hk howner
  isCut a hfile ha := by
    rw [hsame.table, hsame.locals]
    exact h.isCut a hfile ha

theorem not_isCut (h : m.Rooted w file isCut) (hfile : key.file = file)
    (hunknown : m.known? key = none) : ¬ isCut key := by
  intro hcut
  have hlocal := (h.isCut key hfile hcut).1
  rw [(known?_eq_none_iff.mp hunknown).2] at hlocal
  exact Bool.noConfusion hlocal

theorem remember (h : m.Rooted w file isCut) (s : Symbol)
    (howner : ∀ owner, w.owner? key = some owner → (m.table.get? owner).isSome)
    (hcut : key.file = file → ¬ isCut key) :
    ((Memory.remember key s).run m).2.Rooted w file isCut where
  table k owner hfile hk hkowner := by
    have hget : ∀ k, (((Memory.remember key s).run m).2.table.get? k).isSome ↔
        k = key ∨ (m.table.get? k).isSome := fun k => Table.isSome_get?_insert
    rw [hget] at hk ⊢
    rcases hk with rfl | hk
    · exact .inr (howner owner hkowner)
    · exact .inr (h.table k owner hfile hk hkowner)
  isCut a hfile ha := by
    obtain ⟨hlocal, htable⟩ := h.isCut a hfile ha
    refine ⟨hlocal, ?_⟩
    have hne : a ≠ key := fun heq => hcut (heq ▸ hfile) (heq ▸ ha)
    have hget : (m.table.insert key s).get? a = none := by
      rw [Table.get?_insert_of_ne _ hne, htable]
    exact hget

theorem newLocal (h : m.Rooted w file isCut) (key : NodeKey) :
    ((Memory.newLocal key).run m).2.Rooted w file isCut where
  table := h.table
  isCut a hfile ha :=
    ⟨Table.isSome_get?_insert.mpr (.inr (h.isCut a hfile ha).1), (h.isCut a hfile ha).2⟩

theorem cut (h : m.Rooted w file isCut) (hunknown : m.known? key = none) :
    ((Memory.newLocal key).run m).2.Rooted w file fun a => isCut a ∨ key = a where
  table := h.table
  isCut a hfile ha := by
    rcases ha with ha | rfl
    · exact (h.newLocal key).isCut a hfile ha
    · exact ⟨Table.isSome_get?_insert.mpr (.inl rfl), (known?_eq_none_iff.mp hunknown).1⟩

theorem above (h : m.Rooted w file isCut) (habove : w.Above key a) (hfile : key.file = file)
    (hk : (m.table.get? key).isSome) : a.file = file ∧ (m.table.get? a).isSome := by
  induction habove with
  | refl => exact ⟨hfile, hk⟩
  | tail _ howner ih => exact ⟨(owner?_file howner).trans ih.1, h.table _ _ ih.1 ih.2 howner⟩

end Memory.Rooted

theorem cut?_eq_self {b : NodeKey} (hasked : w.asked? b = none) (h : w.cut? m links b = some a) :
    a = b := by
  have hafter := askedAfter_of_cut? h
  cases links with
  | zero => exact (Option.some.inj hafter).symm
  | succ links => simp [askedAfter, hasked] at hafter

/-- What one resolution in the file leaves behind. A global answer in spite of a cut is that of a
key whose file was cut off. -/
structure LeavesRooted (w : World) (file : Nat) (isCut : NodeKey → Prop) (links : Nat)
    (key : NodeKey) (m : Memory) (s : Symbol) (m' : Memory) : Prop where
  rooted : m'.Rooted w file fun a => isCut a ∨ w.cut? m links key = some a
  remembered : w.IsRemembered m' key s
  cutFile : ∀ a text, key.file = file → w.cut? m links key = some a → s = .global text →
    w.asked? a = none

theorem leavesRooted_of_uncut (hm : m'.Rooted w file isCut) (hcut : w.cut? m links key = none)
    (hs : w.IsRemembered m' key s) : LeavesRooted w file isCut links key m s m' where
  rooted := hm.mono fun a ha => by simpa [hcut] using ha
  remembered := hs
  cutFile a text _ ha := by simp [hcut] at ha

theorem LeavesRooted.owner {m₂ : Memory} {owner : Symbol} (hasks : AsksOwner w key m f n m₁)
    {parent : Nat} (hparent : f.arena.parent key.node = some parent)
    (h : LeavesRooted w file isCut links ⟨key.file, some parent⟩ m₁ owner m₂) :
    m₂.Rooted w file fun a => isCut a ∨ w.cut? m (links + 1) key = some a := by
  simpa only [hasks.cut? hparent] using h.rooted

/-- A node that extends a global owner is not the one that was cut off. -/
theorem LeavesRooted.remember_owned {m₂ m₃ : Memory} {text text' : String}
    (hm : m.Rooted w file isCut) (hasks : AsksOwner w key m f n m₁) {parent : Nat}
    (hparent : f.arena.parent key.node = some parent)
    (h : LeavesRooted w file isCut links ⟨key.file, some parent⟩ m₁ (.global text) m₂)
    (hsame : SameSymbols m₂ m₃) :
    LeavesRooted w file isCut (links + 1) key m (.global text')
      ((Memory.remember key (.global text')).run m₃).2 := by
  have howner := hasks.owner? hparent
  have hasked : w.asked? key = some ⟨key.file, some parent⟩ :=
    (asked?_of_hasOwner hasks.node hasks.hasOwner).trans howner
  have hcutFile : ∀ a, key.file = file → w.cut? m (links + 1) key = some a →
      w.asked? a = none := by
    intro a hfile ha
    exact h.cutFile a text hfile ((hasks.cut? hparent).trans ha) rfl
  have htable : ∀ owner, w.owner? key = some owner → (m₃.table.get? owner).isSome := by
    intro owner hkowner
    obtain rfl := Option.some.inj (howner.symm.trans hkowner)
    rw [hsame.table]
    exact h.remembered
  refine ⟨((h.owner hasks hparent).congr hsame).remember _ htable fun hfile hkey => ?_,
    isRemembered_remember key _ m₃, fun a _ hfile ha _ => hcutFile a hfile ha⟩
  rcases hkey with hkey | hkey
  · exact hm.not_isCut hfile hasks.unknown hkey
  · have hnone := hcutFile key hfile hkey
    simp [hasked] at hnone

theorem LeavesRooted.remember_key {m₂ : Memory} {owner : Symbol} (hm : m.Rooted w file isCut)
    (hunknown : m.known? key = none) (hnode : w.node? key = some (f, n)) (hkey : n.isKey = true)
    (hsame : SameSymbols m m₁)
    (hroot : ∀ f, w.program.file? file = some f → f.arena.kind? f.root = some .sourceFile)
    (h : LeavesRooted w file isCut links ⟨key.file, f.root⟩ m₁ owner m₂) (s : Symbol) :
    LeavesRooted w file isCut (links + 1) key m s ((Memory.remember key s).run m₂).2 := by
  have hcut : w.cut? m₁ links ⟨key.file, f.root⟩ = w.cut? m (links + 1) key := by
    rw [cut?_congr hsame, cut?_succ hunknown, asked?_of_isKey hnode hkey]
    rfl
  have hfileNode := (node?_eq_some_iff.mp hnode).1
  have hcutFile : ∀ a, key.file = file → w.cut? m (links + 1) key = some a →
      w.asked? a = none := by
    intro a hfile ha
    obtain ⟨root, hget, hkind⟩ := Option.map_eq_some_iff.mp (hroot f (hfile ▸ hfileNode))
    have hasked : w.asked? ⟨key.file, f.root⟩ = none :=
      asked?_of_isFile (node?_eq_some_iff.mpr ⟨hfileNode, hget⟩) hkind
    rw [cut?_eq_self hasked (hcut.trans ha)]
    exact hasked
  have hrooted := h.rooted
  rw [hcut] at hrooted
  refine ⟨hrooted.remember s (by simp [owner?_of_isKey hnode hkey]) fun hfile hself => ?_,
    isRemembered_remember key s m₂, fun a _ hfile ha _ => hcutFile a hfile ha⟩
  rcases hself with hself | hself
  · exact hm.not_isCut hfile hunknown hself
  · have hnone := hcutFile key hfile hself
    simp [asked?_of_isKey hnode hkey] at hnone

theorem LeavesRooted.newLocal_owned {m₂ m₃ : Memory} {owner : Symbol}
    (hasks : AsksOwner w key m f n m₁) {parent : Nat}
    (hparent : f.arena.parent key.node = some parent)
    (h : LeavesRooted w file isCut links ⟨key.file, some parent⟩ m₁ owner m₂)
    (hsame : SameSymbols m₂ m₃) :
    LeavesRooted w file isCut (links + 1) key m ((Memory.newLocal key).run m₃).1
      ((Memory.newLocal key).run m₃).2 :=
  ⟨((h.owner hasks hparent).congr hsame).newLocal key, trivial,
    fun _ _ _ _ hs => Symbol.noConfusion hs⟩

theorem Resolves.leavesRooted {mayCut : Prop} (hw : w.collaborators.Silent)
    (hroot : ∀ f, w.program.file? file = some f → f.arena.kind? f.root = some .sourceFile)
    (h : Resolves w mayCut links key m s m') (hm : m.Rooted w file isCut) :
    LeavesRooted w file isCut links key m s m' := by
  induction h with
  | @known _ key m s h =>
    refine leavesRooted_of_uncut hm (cut?_of_known (by simp [h])) ?_
    rcases known?_eq_some h with ht | ⟨n, -, rfl⟩
    · exact isRemembered_of_isSome s (by simp [ht])
    · trivial
  | @cut key m _ h =>
    refine ⟨?_, trivial, fun a text _ _ hs => Symbol.noConfusion hs⟩
    simpa [World.cut?, h] using hm.cut h
  | missing h hnode =>
    refine leavesRooted_of_uncut hm ?_ (.inr ?_)
    · simp [cut?_succ h, asked?, hnode]
    · simp [World.owner?, hnode]
  | block h hnode hkind =>
    have hasked := asked?_of_block hnode hkind
    refine leavesRooted_of_uncut hm (by simp [cut?_succ h, hasked]) (.inr ?_)
    simp [World.owner?, hnode, Node.hasOwner, hkind]
  | @file _ key m f n found _ h hnode hkind hpackage =>
    obtain ⟨-, rfl⟩ := Prod.mk.inj hpackage
    have hasked := asked?_of_isFile hnode hkind
    have howner : w.owner? key = none := by simp [World.owner?, hnode, Node.hasOwner, hkind]
    have hm₁ : ((packageOf w.collaborators f.name).run m).2.Rooted w file isCut :=
      hm.congr ⟨rfl, rfl⟩
    have hm₂ : ((Memory.remember key (found.getD .empty)).run
        ((packageOf w.collaborators f.name).run m).2).2.Rooted w file isCut :=
      hm₁.remember _ (by simp [howner]) fun hfile => hm.not_isCut hfile h
    exact leavesRooted_of_uncut hm₂ (by simp [cut?_succ h, hasked]) (isRemembered_remember key _ _)
  | counted h hnode hkey hnumber _ ih =>
    exact (ih (hm.congr (countKey_sameSymbols hnumber))).remember_key hm h hnode hkey
      (countKey_sameSymbols hnumber) hroot _
  | property _ _ _ htarget =>
    have hproperty := (setTarget?_spec htarget).1
    simp [declaredProperty?_of_silent hw] at hproperty
  | @orphan _ key _ f n m₁ hasks hparent =>
    have hasked : w.asked? key = none := by
      rw [asked?_of_hasOwner hasks.node hasks.hasOwner,
        owner?_of_hasOwner hasks.node hasks.hasOwner, hparent]
      rfl
    exact leavesRooted_of_uncut ((hm.congr hasks.sameSymbols).newLocal key)
      (by simp [cut?_succ hasks.unknown, hasked]) trivial
  | unowned hasks hparent _ _ ih =>
    exact (ih (hm.congr hasks.sameSymbols)).newLocal_owned hasks hparent ⟨rfl, rfl⟩
  | container hasks hparent _ _ ih =>
    exact (ih (hm.congr hasks.sameSymbols)).remember_owned hm hasks hparent ⟨rfl, rfl⟩
  | imported _ _ _ _ himport =>
    have htarget := (importTarget?_spec himport).1
    simp [declaredImport?_of_silent hw] at htarget
  | declared hasks hparent _ _ himport _ ih =>
    exact (ih (hm.congr hasks.sameSymbols)).remember_owned hm hasks hparent
      (importTarget?_spec himport).2.sameSymbols
  | undeclared hasks hparent _ _ himport _ ih =>
    exact (ih (hm.congr hasks.sameSymbols)).newLocal_owned hasks hparent
      (importTarget?_spec himport).2.sameSymbols

theorem rooted_empty : Memory.Rooted w file (fun _ => False) {} where
  table k owner _ hk := by simp [Table.get?] at hk
  isCut _ _ h := h.elim

theorem memoryAfter_rooted {limit : Nat} {keys : List NodeKey} (hw : w.collaborators.Silent)
    (hroot : ∀ f, w.program.file? file = some f → f.arena.kind? f.root = some .sourceFile)
    (hm : m.Rooted w file isCut) :
    (w.memoryAfter limit m keys).Rooted w file fun a => isCut a ∨ a ∈ w.cuts limit m keys := by
  induction keys generalizing m isCut with
  | nil => exact hm.mono fun a ha => by simpa [cuts] using ha
  | cons key keys ih =>
    have hstep := (resolves_run (w := w) (limit + 1) key m).leavesRooted hw hroot hm
    refine (ih hstep.rooted).mono fun a ha => ?_
    rw [cuts, List.mem_append, Option.mem_toList] at ha
    rw [or_assoc]
    exact ha

/-- What is below a node that was cut off is local, however near to its file it is. -/
theorem exists_fileLocal_of_cut {limit : Nat} (hw : w.collaborators.Silent)
    (hroot : ∀ f, w.program.file? key.file = some f → f.arena.kind? f.root = some .sourceFile)
    (hm : m.Rooted w key.file isCut) (ha : isCut a) (habove : w.Above key a) :
    ∃ n, ((w.resolve limit key).run m).1 = .fileLocal n := by
  have hleaves := (resolves_run (w := w) (limit + 1) key m).leavesRooted hw hroot hm
  have hnot : ¬ ((((w.resolve limit key).run m).2).table.get? key).isSome := by
    intro hk
    obtain ⟨hfile, hmem⟩ := hleaves.rooted.above habove rfl hk
    simp [(hleaves.rooted.isCut a hfile (.inl ha)).2] at hmem
  have hremembered : w.IsRemembered ((w.resolve limit key).run m).2 key
    ((w.resolve limit key).run m).1 := hleaves.remembered
  cases hs : ((w.resolve limit key).run m).1 with
  | fileLocal n => exact ⟨n, rfl⟩
  | global text =>
    rw [hs] at hremembered
    exact absurd hremembered hnot
  | empty =>
    rw [hs] at hremembered
    rcases hremembered with hk | hunowned
    · exact absurd hk hnot
    · -- nothing is above the node but itself, so the node was cut off and is known to be local
      rcases habove.cases_head with rfl | ⟨owner, howner, -⟩
      · obtain ⟨hlocal, htable⟩ := hm.isCut key rfl ha
        obtain ⟨n, hn⟩ := Option.isSome_iff_exists.mp hlocal
        have hknown : m.known? key = some (.fileLocal n) := by
          simp [Memory.known?, htable, Resolver.local?, hn]
        rw [World.resolve, resolveWithin_known hknown] at hs
        exact Symbol.noConfusion hs
      · simp [hunowned] at howner

/-- Where nothing above the node was cut off before, a resolution within the limit finds what the
node means. -/
theorem resembles_of_uncut {package : String → Option Symbol} {μ : Meaning} {limit : Nat}
    {before : List NodeKey} (hw : w.collaborators.Silent) (hp : w.FixedPackages package)
    (hμ : w.Means package key μ) (hnear : w.askedAfter (limit + 1) key = none)
    (huncut : ∀ a ∈ w.cuts limit {} before, ¬ w.Above key a) :
    μ.Resembles ((w.resolve limit key).run (w.memoryAfter limit {} before)).1 := by
  have hm : (w.memoryAfter limit {} before).CutAt w package fun a => a ∈ w.cuts limit {} before :=
    memoryAfter_cutAt hw hp cutAt_empty fun _ ha => ha
  have hstep := (resolves_run (w := w) (limit + 1) key _).cutAt hw hp hm
    fun a ha => by simp [cut?_eq_none_of_askedAfter hnear] at ha
  rcases hstep.2 μ hμ with hs | ⟨-, a, habove, ha⟩
  · exact hs
  · exact absurd habove (huncut a ha)

end Rooted

/-- A node that is near enough to its file resolves as it does on its own without a limit, unless an
owner of it is where an earlier resolution was cut off. Below such an owner everything is local. -/
theorem limit_felt_only_below_cuts {w : World} {package : String → Option Symbol} {key : NodeKey}
    {f : SourceFile} {links limit : Nat} (hw : w.collaborators.Silent)
    (hp : w.FixedPackages package) (hfile : w.program.file? key.file = some f)
    (hroot : f.arena.kind? f.root = some .sourceFile)
    (hchain : f.arena.parent^[links] key.node = f.root) (hlinks : links ≤ limit)
    (before : List NodeKey) :
    ((∀ a ∈ w.cuts limit {} before, ¬ w.Above key a) → ∀ unlimited, links ≤ unlimited →
      ((w.resolve limit key).run (w.memoryAfter limit {} before)).1.SameSort
        ((w.resolve unlimited key).run {}).1 ∧
      ((∀ a f n, w.Above key a → w.node? a = some (f, n) → n.isKey = false) → ∀ text,
        ((w.resolve limit key).run (w.memoryAfter limit {} before)).1 = .global text →
        ((w.resolve unlimited key).run {}).1 = .global text)) ∧
    (∀ a ∈ w.cuts limit {} before, w.Above key a →
      ∃ n, ((w.resolve limit key).run (w.memoryAfter limit {} before)).1 = .fileLocal n) ∧
    ∀ a ∈ w.cuts limit {} before, ∃ x ∈ before, w.askedAfter (limit + 1) x = some a := by
  have hnear := askedAfter_of_chain hfile hroot hchain
  have hroots : ∀ g, w.program.file? key.file = some g →
      g.arena.kind? g.root = some .sourceFile := by
    intro g hg
    obtain rfl := Option.some.inj (hfile.symm.trans hg)
    exact hroot
  refine ⟨fun huncut unlimited hunlimited => ?_, fun a ha habove => ?_,
    fun a ha => exists_of_mem_cuts ha⟩
  · obtain ⟨μ, hμ⟩ : ∃ μ, w.meaning? package (links + 1) key = some μ :=
      means_of_askedAfter hw hnear
    have hmeans : w.Means package key μ := ⟨_, hμ⟩
    have hs := resembles_of_uncut hw hp hmeans (askedAfter_mono hnear (by omega)) huncut
    have hs' : μ.Resembles ((w.resolve unlimited key).run (w.memoryAfter unlimited {} [])).1 :=
      resembles_of_uncut hw hp hmeans (askedAfter_mono hnear (by omega)) (by simp [cuts])
    refine ⟨hs.sameSort hs', fun hkeys text htext => ?_⟩
    rw [htext] at hs
    exact hs.eq_of_global hs' (hmeans.keys_eq_nil hw hkeys)
  · have hm : (w.memoryAfter limit {} before).Rooted w key.file
        fun a => False ∨ a ∈ w.cuts limit {} before :=
      memoryAfter_rooted hw hroots rooted_empty
    exact exists_fileLocal_of_cut hw hroots hm (.inr ha) habove

/-- Three classes, the second with a method that has a parameter. -/
def threeClasses : World where
  program := ⟨#[
    { name := "a.ts"
      text := "A B m p C".toList
      arena := Arena.empty
        |>.add .identifier 0 1 (.identifier "A")
        |>.add .classDeclaration 0 1 (.declaration (.classLike none (some 0) none none []))
        |>.add .identifier 2 3 (.identifier "B")
        |>.add .identifier 4 5 (.identifier "m")
        |>.add .identifier 6 7 (.identifier "p")
        |>.add .parameter 6 7 (.declaration (.parameter none false (some 4) false none none))
        |>.add .methodDeclaration 4 7
          (.declaration (.method none false (some 3) false none [some 5] none none))
        |>.add .classDeclaration 2 7
          (.declaration (.classLike none (some 2) none none [some 6]))
        |>.add .identifier 8 9 (.identifier "C")
        |>.add .classDeclaration 8 9 (.declaration (.classLike none (some 8) none none []))
        |>.add .sourceFile 0 9 (.sourceFile [some 1, some 7, some 9] "a.ts" .ts false)
      root := some 10 }]⟩
  collaborators :=
    { Collaborators.none with package := fun _ => pure (some (.package "pkg" "1.0.0")) }

theorem threeClasses_silent : threeClasses.collaborators.Silent := ⟨fun _ => rfl, fun _ => rfl⟩

theorem threeClasses_above {a : NodeKey} (h : threeClasses.Above ⟨0, some 9⟩ a) :
    a = ⟨0, some 9⟩ ∨ a = ⟨0, some 10⟩ := by
  rcases h.cases_head with h | ⟨owner, howner, h⟩
  · exact .inl h.symm
  · obtain rfl : (⟨0, some 10⟩ : NodeKey) = owner := Option.some.inj howner
    rcases h.cases_head with h | ⟨owner, howner, -⟩
    · exact .inr h.symm
    · have hroot : threeClasses.owner? ⟨0, some 10⟩ = none := rfl
      simp [hroot] at howner

/-- The parameter is cut off at its class, and another class does not feel it. -/
theorem threeClasses_uncut :
    threeClasses.cuts 1 {} [⟨0, some 1⟩, ⟨0, some 5⟩] = [⟨0, some 7⟩] ∧
      ((threeClasses.resolve 1 ⟨0, some 9⟩).run
        (threeClasses.memoryAfter 1 {} [⟨0, some 1⟩, ⟨0, some 5⟩])).1 =
          .global "lsif-ts npm pkg 1.0.0 C#" ∧
      ((threeClasses.resolve 1000 ⟨0, some 9⟩).run {}).1 = .global "lsif-ts npm pkg 1.0.0 C#" := by
  have hcuts : threeClasses.cuts 1 {} [⟨0, some 1⟩, ⟨0, some 5⟩] = [⟨0, some 7⟩] := by
    decide +kernel
  have hlimited : ((threeClasses.resolve 1 ⟨0, some 9⟩).run
      (threeClasses.memoryAfter 1 {} [⟨0, some 1⟩, ⟨0, some 5⟩])).1 =
        .global "lsif-ts npm pkg 1.0.0 C#" := by
    decide +kernel
  have hlimit := @limit_felt_only_below_cuts threeClasses
    (fun _ => some (.package "pkg" "1.0.0")) ⟨0, some 9⟩ _ 1 1 threeClasses_silent
    (fun _ _ => rfl) rfl rfl rfl le_rfl [⟨0, some 1⟩, ⟨0, some 5⟩]
  have huncut : ∀ a ∈ threeClasses.cuts 1 {} [⟨0, some 1⟩, ⟨0, some 5⟩],
      ¬ threeClasses.Above ⟨0, some 9⟩ a := by
    intro a ha habove
    rw [hcuts, List.mem_singleton] at ha
    subst ha
    rcases threeClasses_above habove with h | h <;> exact absurd h (by decide)
  refine ⟨hcuts, hlimited, (hlimit.1 huncut 1000 (by decide)).2 (fun a f n habove hnode => ?_) _
    hlimited⟩
  rcases threeClasses_above habove with rfl | rfl
  · obtain ⟨-, rfl⟩ := Prod.mk.inj (Option.some.inj hnode)
    rfl
  · obtain ⟨-, rfl⟩ := Prod.mk.inj (Option.some.inj hnode)
    rfl

/-- The method is cut off at its file, which makes its class local. -/
theorem threeClasses_cut_above :
    threeClasses.collaborators.Silent ∧
      threeClasses.program.files[0].arena.kind? (some 10) = some .sourceFile ∧
      threeClasses.program.files[0].root = some 10 ∧
      threeClasses.program.files[0].arena.parent^[1] (some 7) = some 10 ∧
      ((threeClasses.resolve 1 ⟨0, some 7⟩).run (threeClasses.memoryAfter 1 {} [⟨0, some 6⟩])).1 =
        .fileLocal 2 ∧
      ((threeClasses.resolve 1000 ⟨0, some 7⟩).run {}).1 = .global "lsif-ts npm pkg 1.0.0 B#" := by
  refine ⟨threeClasses_silent, rfl, rfl, rfl, ?_, ?_⟩
  · decide +kernel
  · decide +kernel

end SourceIndex
