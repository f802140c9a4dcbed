import SourceIndex.Proofs.LocalSymbols

/-! Where the texts of global symbols start. Keys hang from the root of their file, whatever symbol
that has, so a chain of descriptors starts at a package or at nothing, unless a resolver was cut off
at the root and made it local. -/

namespace SourceIndex

open Memory World

namespace Collaborators

def NamedPackages (c : Collaborators) : Prop :=
  ∀ files file s, ((c.package file).run (c.cacheAfter files)).1 = some s →
    ∃ name version, s = .package name version

end Collaborators

namespace Symbol

/-- What a chain of descriptors may start at, if only the given local symbols may start one. -/
inductive IsBase (P : Nat → Prop) : Symbol → Prop where
  | empty : IsBase P .empty
  | package (name version : String) : IsBase P (.package name version)
  | fileLocal {n : Nat} (h : P n) : IsBase P (.fileLocal n)

def Based (P : Nat → Prop) (s : Symbol) : Prop :=
  ∃ base, IsBase P base ∧ ∃ ds : List Descriptor, s = ds.foldl extend base

def startsLocal (text : String) : Prop := "local ".toList <+: text.toList

variable {P : Nat → Prop} {base s : Symbol} {text : String}

theorem IsBase.based (h : base.IsBase P) : base.Based P := ⟨base, h, [], rfl⟩

theorem IsBase.mono {Q : Nat → Prop} (h : base.IsBase P) (hPQ : ∀ n, P n → Q n) :
    base.IsBase Q := by
  cases h with
  | empty => exact .empty
  | package name version => exact .package name version
  | fileLocal h => exact .fileLocal (hPQ _ h)

theorem Based.extend (h : s.Based P) (d : Descriptor) : (s.extend d).Based P := by
  obtain ⟨base, hbase, ds, rfl⟩ := h
  exact ⟨base, hbase, ds ++ [d], by rw [List.foldl_append]; rfl⟩

theorem startsLocal_fileLocal (n : Nat) (rest : List Char) :
    "local ".toList <+: (fileLocal n).render.toList ++ rest := by
  rw [render, String.toList_append, List.append_assoc]
  exact List.prefix_append _ _

theorem not_startsLocal_package (name version : String) (rest : List Char) :
    ¬ "local ".toList <+: (package name version).render.toList ++ rest := by
  rintro ⟨tail, h⟩
  simp only [package, render, String.toList_append, List.append_assoc] at h
  have hsecond : 'o' = 's' := (List.cons.inj (List.cons.inj h).2).1
  exact absurd hsecond (by decide)

theorem not_startsLocal_descriptors (ds : List Descriptor) :
    ¬ "local ".toList <+: Descriptor.renderAll ds := by
  rintro ⟨tail, h⟩
  cases ds with
  | nil => simp [Descriptor.renderAll] at h
  | cons d ds =>
    -- the first descriptor has a mark where the space would be
    have hsplit : "local".toList ++ ' ' :: tail = d.render.toList ++ Descriptor.renderAll ds := by
      simpa [Descriptor.renderAll] using h
    exact d.plain_space_ne_render (by decide) (by decide) hsplit

theorem IsBase.startsLocal_iff (h : base.IsBase P) (ds : List Descriptor)
    (htext : .global text = ds.foldl extend base) :
    startsLocal text ↔ ∃ n, base = .fileLocal n := by
  have hlist : text.toList = base.render.toList ++ Descriptor.renderAll ds := by
    rw [← SymbolParts.toList_render_foldl, ← htext]
    rfl
  rw [startsLocal, hlist]
  cases h with
  | empty => exact ⟨fun h => absurd h (not_startsLocal_descriptors ds), fun ⟨n, h⟩ => by cases h⟩
  | package name version =>
    exact ⟨fun h => absurd h (not_startsLocal_package name version _), fun ⟨n, h⟩ => by cases h⟩
  | @fileLocal n => exact ⟨fun _ => ⟨n, rfl⟩, fun _ => startsLocal_fileLocal n _⟩

end Symbol

theorem Collaborators.NamedPackages.isBase {c : Collaborators} {cache : Package.Cache}
    {P : Nat → Prop} (hp : c.NamedPackages) (h : c.Remembers cache) (file : String) :
    (((c.package file).run cache).1.getD .empty).IsBase P := by
  obtain ⟨files, rfl⟩ := h
  cases hfound : ((c.package file).run (c.cacheAfter files)).1 with
  | none => exact .empty
  | some s =>
    obtain ⟨name, version, rfl⟩ := hp files file s hfound
    exact .package name version

def World.RootsAreFiles (w : World) : Prop :=
  ∀ id f, w.program.file? id = some f → f.arena.kind? f.root = some .sourceFile

theorem World.RootsAreFiles.isFile {w : World} (h : w.RootsAreFiles) {id : Nat} {f : SourceFile}
    (hf : w.program.file? id = some f) : w.IsFile ⟨id, f.root⟩ := by
  obtain ⟨n, hn, hkind⟩ := Option.map_eq_some_iff.mp (h id f hf)
  exact ⟨f, n, node?_eq_some_iff.mpr ⟨hf, hn⟩, hkind⟩

/-- Not a file, a block or a key, so that its owner may be asked. -/
def World.IsOwned (w : World) (key : NodeKey) : Prop :=
  ∃ f n, w.node? key = some (f, n) ∧ n.hasOwner = true

theorem World.not_isOwned_of_isFile {w : World} {key : NodeKey} (h : w.IsFile key) :
    ¬ w.IsOwned key := by
  rintro ⟨f, n, hnode, howned⟩
  exact not_isFile_of_hasOwner hnode howned h

/-- The resolver was cut off at the root of a file, which got this number. -/
def Resolver.LocalRoot (w : World) (r : Resolver) (n : Nat) : Prop :=
  ∃ id f, w.program.file? id = some f ∧ r.locals.get? ⟨id, f.root⟩ = some n

/-- All chains in the table start where they may, and those of files have no descriptor. -/
structure Memory.Based (w : World) (P : Nat → Prop) (m : Memory) : Prop where
  table : ∀ key s, m.table.get? key = some s → s.Based P
  files : ∀ key s, w.IsFile key → m.table.get? key = some s → s.IsBase fun _ => False
  packages : w.collaborators.Remembers m.packages

section Resolution

variable {w : World} {P : Nat → Prop} {m m₁ m₂ : Memory} {key : NodeKey} {f : SourceFile}
  {n : Node} {s : Symbol} {mayCut : Prop} {links number : Nat}

theorem Memory.Keeps.localRoot (h : m.Keeps m₁) (hroot : m.resolver.LocalRoot w number) :
    m₁.resolver.LocalRoot w number := by
  obtain ⟨id, f, hf, hlocal⟩ := hroot
  have hknown : (m.known? ⟨id, f.root⟩).isSome := known?_isSome_iff.mpr (.inr (by simp [hlocal]))
  exact ⟨id, f, hf, (h _ hknown).2.trans hlocal⟩

theorem AsksOwner.isOwned (h : AsksOwner w key m f n m₁) : w.IsOwned key :=
  ⟨f, n, h.node, h.hasOwner⟩

theorem locals_newLocal {k : NodeKey} (hkey : w.IsOwned key) (hk : ¬ w.IsOwned k) (m : Memory) :
    ((newLocal key).run m).2.resolver.locals.get? k = m.resolver.locals.get? k := by
  refine Table.get?_insert_of_ne _ ?_ _
  rintro rfl
  exact hk hkey

theorem localRoot_newLocal (hroots : w.RootsAreFiles) (hasks : AsksOwner w key m f n m₁)
    (h : m₂.resolver.LocalRoot w number) :
    ((newLocal key).run m₂).2.resolver.LocalRoot w number := by
  obtain ⟨id, g, hg, hlocal⟩ := h
  have hroot := not_isOwned_of_isFile (hroots.isFile hg)
  exact ⟨id, g, hg, (locals_newLocal hasks.isOwned hroot m₂).trans hlocal⟩

theorem Memory.Heard.localRoot (h : Heard m m₁) :
    m₁.resolver.LocalRoot w number ↔ m.resolver.LocalRoot w number := by
  rw [h.resolver]

namespace Memory.Based

theorem empty (w : World) (P : Nat → Prop) : Based w P {} :=
  ⟨by simp [Table.get?], by simp [Table.get?], w.collaborators.remembers_empty⟩

theorem heard (h : m.Based w P) (hheard : Heard m m₁) : m₁.Based w P :=
  ⟨hheard.table ▸ h.table, hheard.table ▸ h.files, hheard.packages ▸ h.packages⟩

theorem remember (h : m.Based w P) (hs : s.Based P)
    (hfile : w.IsFile key → s.IsBase fun _ => False) :
    ((remember key s).run m).2.Based w P := by
  refine ⟨fun k s' hk => ?_, fun k s' hk hs' => ?_, h.packages⟩
  · rcases eq_or_of_get?_remember hk with ⟨rfl, rfl⟩ | hk
    · exact hs
    · exact h.table k s' hk
  · rcases eq_or_of_get?_remember hs' with ⟨rfl, rfl⟩ | hs'
    · exact hfile hk
    · exact h.files k s' hk hs'

theorem isBase_of_known (h : m.Based w P) (hP : ∀ n, m.resolver.LocalRoot w n → P n)
    (hroots : w.RootsAreFiles) {id : Nat} (hf : w.program.file? id = some f)
    (hs : m.known? ⟨id, f.root⟩ = some s) : s.IsBase P := by
  rcases known?_eq_some hs with htable | ⟨number, hlocal, rfl⟩
  · exact (h.files _ s (hroots.isFile hf) htable).mono fun _ hfalse => hfalse.elim
  · exact .fileLocal (hP number ⟨id, f, hf, hlocal⟩)

end Memory.Based

/-- A resolution leaves chains in the table that start where they may, and its answer is such a
chain or a local symbol. -/
theorem Resolves.based (hp : w.collaborators.NamedPackages) (hroots : w.RootsAreFiles)
    (h : Resolves w mayCut links key m s m₁) (hP : ∀ n, m₁.resolver.LocalRoot w n → P n)
    (hm : m.Based w P) : m₁.Based w P ∧ (s.Based P ∨ ∃ n, s = .fileLocal n) := by
  induction h with
  | known h =>
    refine ⟨hm, ?_⟩
    rcases known?_eq_some h with htable | ⟨n, -, rfl⟩
    · exact .inl (hm.table _ _ htable)
    · exact .inr ⟨n, rfl⟩
  | cut => exact ⟨⟨hm.table, hm.files, hm.packages⟩, .inr ⟨_, rfl⟩⟩
  | missing => exact ⟨hm, .inl Symbol.IsBase.empty.based⟩
  | block => exact ⟨hm, .inl Symbol.IsBase.empty.based⟩
  | @file _ key m f n package m₁ _ hnode hkind hpackage =>
    obtain ⟨rfl, rfl⟩ := Prod.mk.inj hpackage
    have hbased := (hp.isBase (P := P) hm.packages f.name).based
    have hm₁ : ((packageOf w.collaborators f.name).run m).2.Based w P :=
      ⟨hm.table, hm.files, hm.packages.package f.name⟩
    exact ⟨hm₁.remember hbased fun _ => hp.isBase hm.packages f.name, .inl hbased⟩
  | @counted _ key m f n number m₁ owner m₂ _ hnode hkey hnumber howner ih =>
    obtain ⟨-, rfl⟩ := Prod.mk.inj hnumber
    have hf := (node?_eq_some_iff.mp hnode).1
    obtain ⟨hm₂, -⟩ := ih hP ⟨hm.table, hm.files, hm.packages⟩
    have hknown := howner.known_of_isFile (hroots.isFile hf)
    have hs := (hm₂.isBase_of_known hP hroots hf hknown).based.extend
      ⟨.metadata, f.nodeText n.payload.name ++ toString number⟩
    refine ⟨hm₂.remember hs fun hfile => ?_, .inl hs⟩
    have hspelling := spelling?_of_isKey hnode hkey
    simp [spelling?_of_isFile hfile] at hspelling
  | property _ _ _ htarget _ ih => exact ih hP (hm.heard (setTarget?_spec htarget).2)
  | orphan hasks =>
    have hm₁ := hm.heard hasks.heard
    exact ⟨⟨hm₁.table, hm₁.files, hm₁.packages⟩, .inr ⟨_, rfl⟩⟩
  -- the roots that are local after a part are so at the end
  | unowned hasks _ _ _ ih =>
    obtain ⟨hm₂, -⟩ := ih (fun n hn => hP n (localRoot_newLocal hroots hasks hn))
      (hm.heard hasks.heard)
    exact ⟨⟨hm₂.table, hm₂.files, hm₂.packages⟩, .inr ⟨_, rfl⟩⟩
  | container hasks _ _ _ ih =>
    obtain ⟨hm₂, howner⟩ := ih hP (hm.heard hasks.heard)
    have hs := howner.resolve_right fun ⟨n, h⟩ => by cases h
    exact ⟨hm₂.remember hs fun hfile =>
      absurd hfile (not_isFile_of_hasOwner hasks.node hasks.hasOwner), .inl hs⟩
  | imported hasks _ _ _ himport hs ih ih' =>
    have hheard := (importTarget?_spec himport).2
    obtain ⟨hm₂, -⟩ := ih (fun n hn => hP n (hs.keeps.localRoot (hheard.localRoot.mpr hn)))
      (hm.heard hasks.heard)
    exact ih' hP (hm₂.heard hheard)
  | declared hasks _ _ _ himport _ ih =>
    have hheard := (importTarget?_spec himport).2
    obtain ⟨hm₂, howner⟩ := ih (fun n hn => hP n (hheard.localRoot.mpr hn)) (hm.heard hasks.heard)
    have hs := (howner.resolve_right fun ⟨n, h⟩ => by cases h).extend
    exact ⟨(hm₂.heard hheard).remember (hs _) fun hfile =>
      absurd hfile (not_isFile_of_hasOwner hasks.node hasks.hasOwner), .inl (hs _)⟩
  | undeclared hasks _ _ _ himport _ ih =>
    have hheard := (importTarget?_spec himport).2
    obtain ⟨hm₂, -⟩ := ih
      (fun n hn => hP n (localRoot_newLocal hroots hasks (hheard.localRoot.mpr hn)))
      (hm.heard hasks.heard)
    have hm₃ := hm₂.heard hheard
    exact ⟨⟨hm₃.table, hm₃.files, hm₃.packages⟩, .inr ⟨_, rfl⟩⟩

theorem Resolves.locals_of_uncut (h : Resolves w False links key m s m₁) {k : NodeKey}
    (hk : ¬ w.IsOwned k) : m₁.resolver.locals.get? k = m.resolver.locals.get? k := by
  induction h with
  | known => rfl
  | cut hcut => exact hcut.elim
  | missing => rfl
  | block => rfl
  | file _ _ _ hpackage =>
    obtain ⟨-, rfl⟩ := Prod.mk.inj hpackage
    rfl
  | counted _ _ _ hnumber _ ih =>
    obtain ⟨-, rfl⟩ := Prod.mk.inj hnumber
    exact ih
  | property _ _ _ htarget _ ih => rw [ih, (setTarget?_spec htarget).2.resolver]
  | orphan hasks => rw [locals_newLocal hasks.isOwned hk, hasks.heard.resolver]
  | unowned hasks _ _ _ ih => rw [locals_newLocal hasks.isOwned hk, ih, hasks.heard.resolver]
  | container hasks _ _ _ ih => exact ih.trans (by rw [hasks.heard.resolver])
  | imported hasks _ _ _ himport _ ih ih' =>
    rw [ih', (importTarget?_spec himport).2.resolver, ih, hasks.heard.resolver]
  | declared hasks _ _ _ himport _ ih =>
    have hlocals := ih.trans (by rw [hasks.heard.resolver])
    rwa [← (importTarget?_spec himport).2.resolver] at hlocals
  | undeclared hasks _ _ _ himport _ ih =>
    rw [locals_newLocal hasks.isOwned hk, (importTarget?_spec himport).2.resolver, ih,
      hasks.heard.resolver]

theorem Resolves.localRoot_of_uncut (hroots : w.RootsAreFiles)
    (h : Resolves w False links key m s m₁) (hroot : m₁.resolver.LocalRoot w number) :
    m.resolver.LocalRoot w number := by
  obtain ⟨id, g, hg, hlocal⟩ := hroot
  have hsame := h.locals_of_uncut (not_isOwned_of_isFile (hroots.isFile hg))
  exact ⟨id, g, hg, hsame.symm.trans hlocal⟩

/-- The root of a file resolves to a base. It is local if it has no symbol for all resolvers yet,
and either has one for this resolver or is out of reach. -/
theorem root_isLocal_iff (hp : w.collaborators.NamedPackages) (hroots : w.RootsAreFiles)
    (hm : m.Based w P) {id : Nat} (hf : w.program.file? id = some f) (limit : Nat) :
    ((w.resolveWithin limit ⟨id, f.root⟩).run m).1.IsBase (fun _ => True) ∧
      ((∃ n, ((w.resolveWithin limit ⟨id, f.root⟩).run m).1 = .fileLocal n) ↔
        m.table.get? ⟨id, f.root⟩ = none ∧
          (limit = 0 ∨ (m.resolver.locals.get? ⟨id, f.root⟩).isSome)) := by
  obtain ⟨root, hroot, hkind⟩ := Option.map_eq_some_iff.mp (hroots id f hf)
  have hnode : w.node? ⟨id, f.root⟩ = some (f, root) := node?_eq_some_iff.mpr ⟨hf, hroot⟩
  have hnotLocal : ∀ {s : Symbol}, s.IsBase (fun _ => False) → ¬ ∃ n, s = .fileLocal n := by
    rintro s hs ⟨n, rfl⟩
    cases hs with
    | fileLocal h => exact h
  cases htable : m.table.get? ⟨id, f.root⟩ with
  | some s =>
    have hknown : m.known? ⟨id, f.root⟩ = some s := congrArg (· <|> _) htable
    have hs := hm.files _ s (hroots.isFile hf) htable
    rw [resolveWithin_known hknown]
    refine ⟨hs.mono fun _ _ => trivial, ?_⟩
    simp [hnotLocal hs]
  | none =>
    cases hlocal : m.resolver.locals.get? ⟨id, f.root⟩ with
    | some number =>
      have hknown : m.known? ⟨id, f.root⟩ = some (.fileLocal number) := by
        simp [Memory.known?, htable, Resolver.local?, hlocal]
      rw [resolveWithin_known hknown]
      exact ⟨.fileLocal trivial, by simp⟩
    | none =>
      have hunknown : m.known? ⟨id, f.root⟩ = none := known?_eq_none_iff.mpr ⟨htable, hlocal⟩
      cases limit with
      | zero =>
        rw [resolveWithin_zero hunknown]
        exact ⟨.fileLocal trivial, ⟨fun _ => ⟨rfl, .inl rfl⟩, fun _ => ⟨_, rfl⟩⟩⟩
      | succ limit =>
        have hs := hp.isBase (P := fun _ => False) hm.packages f.name
        rw [resolveWithin_succ hunknown, resolveByRules_file hnode hkind]
        refine ⟨hs.mono fun _ _ => trivial, fun h => absurd h (hnotLocal hs), ?_⟩
        simp

theorem key_startsLocal_iff (hp : w.collaborators.NamedPackages) (hroots : w.RootsAreFiles)
    (hm : m.Based w P) (hunknown : m.known? key = none) (hnode : w.node? key = some (f, n))
    (hkey : n.isKey = true) (limit : Nat) :
    ∃ text, ((w.resolve limit key).run m).1 = .global text ∧
      (Symbol.startsLocal text ↔ m.table.get? ⟨key.file, f.root⟩ = none ∧
        (limit = 0 ∨ (m.resolver.locals.get? ⟨key.file, f.root⟩).isSome)) := by
  let m₁ := ((countKey (f.nodeText n.payload.name)).run m).2
  have hm₁ : m₁.Based w P := ⟨hm.table, hm.files, hm.packages⟩
  obtain ⟨hbase, hlocal⟩ :=
    root_isLocal_iff hp hroots hm₁ (node?_eq_some_iff.mp hnode).1 limit
  rw [resolve, resolveWithin_succ hunknown, resolveByRules_key hnode hkey]
  exact ⟨_, rfl, (hbase.startsLocal_iff [_] rfl).trans hlocal⟩

end Resolution

def Resolvers.LocalRoot (w : World) (rs : Resolvers) (n : Nat) : Prop :=
  ∃ i, (rs.resolver i).LocalRoot w n

namespace World

/-- The global symbol was an answer, or is in the table after all calls. -/
def Gives (w : World) (depth : Nat → Nat) (calls : List Call) (text : String) : Prop :=
  (∃ c, (c, .global text) ∈ w.transcript depth {} calls) ∨
    ∃ key, (w.after depth {} calls).table.get? key = some (.global text)

variable {w : World} {depth : Nat → Nat} {rs : Resolvers} {P : Nat → Prop} {n : Nat}

theorem localRoot_call (c : Call) (h : rs.LocalRoot w n) : (w.call depth rs c).2.LocalRoot w n := by
  obtain ⟨i, id, f, hf, hlocal⟩ := h
  exact ⟨i, id, f, hf, (call_keeps _ rs c).2 i _ n hlocal⟩

theorem localRoot_after (calls : List Call) (h : rs.LocalRoot w n) :
    (w.after depth rs calls).LocalRoot w n := by
  induction calls generalizing rs with
  | nil => exact h
  | cons c calls ih => exact ih (localRoot_call c h)

theorem localRoot_of_withinDepth (hroots : w.RootsAreFiles) {calls : List Call}
    (h : w.WithinDepth depth rs calls) (hroot : (w.after depth rs calls).LocalRoot w n) :
    rs.LocalRoot w n := by
  induction calls generalizing rs with
  | nil => exact hroot
  | cons c calls ih =>
    obtain ⟨⟨s, m, hc⟩, hrest⟩ := h
    obtain ⟨i, hi⟩ := ih hrest hroot
    rw [call_eq hc] at hi
    by_cases heq : i = c.resolver
    · subst heq
      have hi' : m.resolver.LocalRoot w n := by simpa [Resolvers.store] using hi
      exact ⟨c.resolver, hc.localRoot_of_uncut hroots hi'⟩
    · exact ⟨i, by simpa [Resolvers.store, heq] using hi⟩

theorem call_based (hp : w.collaborators.NamedPackages) (hroots : w.RootsAreFiles) (c : Call)
    (hP : ∀ n, (w.call depth rs c).2.LocalRoot w n → P n) (h : ∀ i, (rs.memory i).Based w P) :
    (∀ i, ((w.call depth rs c).2.memory i).Based w P) ∧
      ((w.call depth rs c).1.Based P ∨ ∃ n, (w.call depth rs c).1 = .fileLocal n) := by
  have hresolves := resolves_run (w := w) (depth c.resolver + 1) c.key (rs.memory c.resolver)
  have hlocal : ∀ n, ((w.resolveWithin (depth c.resolver + 1) c.key).run
      (rs.memory c.resolver)).2.resolver.LocalRoot w n → P n := by
    intro n hn
    exact hP n ⟨c.resolver, by simpa [call_snd, Resolvers.store] using hn⟩
  obtain ⟨hm, hs⟩ := hresolves.based hp hroots hlocal (h c.resolver)
  exact ⟨fun i => ⟨hm.table, hm.files, hm.packages⟩, hs⟩

theorem after_based (hp : w.collaborators.NamedPackages) (hroots : w.RootsAreFiles)
    {calls : List Call} (hP : ∀ n, (w.after depth rs calls).LocalRoot w n → P n)
    (h : ∀ i, (rs.memory i).Based w P) :
    (∀ i, ((w.after depth rs calls).memory i).Based w P) ∧
      ∀ c s, (c, s) ∈ w.transcript depth rs calls → s.Based P ∨ ∃ n, s = .fileLocal n := by
  induction calls generalizing rs with
  | nil => exact ⟨h, fun c s hc => absurd hc List.not_mem_nil⟩
  | cons c calls ih =>
    obtain ⟨hcall, hanswer⟩ :=
      call_based hp hroots c (fun n hn => hP n (localRoot_after calls hn)) h
    obtain ⟨hafter, hrest⟩ := ih hP hcall
    refine ⟨hafter, fun c' s hc => ?_⟩
    rcases List.mem_cons.mp hc with heq | hc
    · obtain ⟨rfl, rfl⟩ := Prod.mk.inj heq
      exact hanswer
    · exact hrest c' s hc

theorem Gives.based {calls : List Call} {text : String} (h : w.Gives depth calls text)
    (hp : w.collaborators.NamedPackages) (hroots : w.RootsAreFiles) :
    Symbol.Based ((w.after depth {} calls).LocalRoot w) (.global text) := by
  have hstart : ∀ i, (({} : Resolvers).memory i).Based w ((w.after depth {} calls).LocalRoot w) :=
    fun _ => Memory.Based.empty w _
  obtain ⟨hafter, hanswers⟩ := after_based hp hroots (fun _ hn => hn) hstart
  rcases h with ⟨c, hc⟩ | ⟨key, hkey⟩
  · exact (hanswers c _ hc).resolve_right fun ⟨n, h⟩ => by cases h
  · exact (hafter 0).table key _ hkey

/-- Where every file is rooted in a file node, a global symbol is a chain of descriptors that starts
at a package, at nothing, or at the local symbol that a resolver gave to a root where it was cut
off; the text begins as that of a local symbol in the last case only. There is no such text as long
as no resolver is cut off at a root, as when no chain of owners is too long. A key that is resolved
for the first time has one exactly if its root has no symbol for all resolvers yet, and is known to
this resolver as local or is out of its reach. -/
theorem globals_start_at_bases (hp : w.collaborators.NamedPackages) (hroots : w.RootsAreFiles)
    (depth : Nat → Nat) (calls : List Call) :
    (∀ text, w.Gives depth calls text →
      ∃ base, base.IsBase ((w.after depth {} calls).LocalRoot w) ∧
        (∃ ds : List Descriptor, .global text = ds.foldl Symbol.extend base) ∧
        (Symbol.startsLocal text ↔ ∃ n, base = .fileLocal n)) ∧
    ((∀ n, ¬ (w.after depth {} calls).LocalRoot w n) →
      ∀ text, w.Gives depth calls text → ¬ Symbol.startsLocal text) ∧
    (w.WithinDepth depth {} calls → ∀ n, ¬ (w.after depth {} calls).LocalRoot w n) ∧
    ∀ (c : Call) (f : SourceFile) (n : Node), w.node? c.key = some (f, n) → n.isKey = true →
      ((w.after depth {} calls).memory c.resolver).known? c.key = none →
      ∃ text, (w.call depth (w.after depth {} calls) c).1 = .global text ∧
        (Symbol.startsLocal text ↔
          (w.after depth {} calls).table.get? ⟨c.key.file, f.root⟩ = none ∧
            (depth c.resolver = 0 ∨ (((w.after depth {} calls).resolver c.resolver).locals.get?
              ⟨c.key.file, f.root⟩).isSome)) := by
  have hstart : ∀ i, (({} : Resolvers).memory i).Based w fun _ => True :=
    fun _ => Memory.Based.empty w _
  have hbases : ∀ text, w.Gives depth calls text →
      ∃ base, base.IsBase ((w.after depth {} calls).LocalRoot w) ∧
        (∃ ds : List Descriptor, .global text = ds.foldl Symbol.extend base) ∧
        (Symbol.startsLocal text ↔ ∃ n, base = .fileLocal n) := by
    intro text htext
    obtain ⟨base, hbase, ds, hds⟩ := htext.based hp hroots
    exact ⟨base, hbase, ⟨ds, hds⟩, hbase.startsLocal_iff ds hds⟩
  refine ⟨hbases, fun hnone text htext hstarts => ?_, fun hdepth n hroot => ?_,
    fun c f n hnode hkey hunknown => ?_⟩
  · obtain ⟨base, hbase, -, hlocal⟩ := hbases text htext
    obtain ⟨n, rfl⟩ := hlocal.mp hstarts
    cases hbase with
    | fileLocal hn => exact hnone n hn
  · obtain ⟨i, id, f, -, hlocal⟩ := localRoot_of_withinDepth hroots hdepth hroot
    simp [Table.get?] at hlocal
  · have hafter : ∀ i, ((w.after depth {} calls).memory i).Based w fun _ => True :=
      (after_based hp hroots (fun _ _ => trivial) hstart).1
    exact key_startsLocal_iff hp hroots (hafter c.resolver) hunknown hnode hkey _

def keyBesideMethod : World where
  program := ⟨#[file]⟩
  collaborators := { Collaborators.none with package := fun _ => pure (some (.package "p" "1")) }
where
  file : SourceFile :=
    { name := "a.ts"
      text := "class B{m(){}}(\x7bx:1\x7d);".toList
      arena := Arena.empty
        |>.add .identifier 6 7 (.identifier "B")
        |>.add .identifier 8 9 (.identifier "m")
        |>.add .block 11 13 (.statement (.block []))
        |>.add .methodDeclaration 8 13
          (.declaration (.method none false (some 1) false none [] none (some 2)))
        |>.add .classDeclaration 0 14
          (.declaration (.classLike none (some 0) none none [some 3]))
        |>.add .identifier 16 17 (.identifier "x")
        |>.add .numericLiteral 18 19 (.literal "1")
        |>.add .propertyAssignment 16 19 (.expression (.property (some 5) (some 6)))
        |>.add .objectLiteralExpression 15 20 (.expression (.elements [some 7]))
        |>.add .parenthesizedExpression 14 21 (.expression (.wrapped (some 8) false))
        |>.add .expressionStatement 14 22 (.statement (.expression (some 9)))
        |>.add .sourceFile 0 22 (.sourceFile [some 4, some 10] "a.ts" .ts false)
      root := some 11 }

def methodThenKey : List Call := [⟨0, ⟨0, some 3⟩⟩, ⟨0, ⟨0, some 7⟩⟩]

theorem keyBesideMethod_namedPackages : keyBesideMethod.collaborators.NamedPackages :=
  fun _ _ _ hs => ⟨"p", "1", (Option.some.inj hs).symm⟩

theorem keyBesideMethod_rootsAreFiles : keyBesideMethod.RootsAreFiles := by
  intro id f hf
  match id with
  | 0 =>
    obtain rfl := Option.some.inj hf
    rfl
  | id + 1 => simp [keyBesideMethod, Program.file?] at hf

/-- With one link too few the method is cut off at the root, and the key shows it. -/
theorem keyBesideMethod_bases :
    keyBesideMethod.collaborators.NamedPackages ∧ keyBesideMethod.RootsAreFiles ∧
      (∃ n, (keyBesideMethod.after (fun _ => 1) {} methodThenKey).LocalRoot keyBesideMethod n) ∧
      keyBesideMethod.WithinDepth (fun _ => 2) {} methodThenKey ∧
      ∀ text, keyBesideMethod.Gives (fun _ => 2) methodThenKey text →
        ¬ Symbol.startsLocal text := by
  have hgives : keyBesideMethod.Gives (fun _ => 1) methodThenKey "local 1x1:" :=
    .inl ⟨⟨0, ⟨0, some 7⟩⟩, by decide +kernel⟩
  have hstarts : Symbol.startsLocal "local 1x1:" := ⟨"1x1:".toList, by decide⟩
  have hdepth : keyBesideMethod.WithinDepth (fun _ => 2) {} methodThenKey :=
    ⟨⟨_, _, .declared ⟨rfl, rfl, rfl, rfl⟩ rfl (.declared ⟨rfl, rfl, rfl, rfl⟩ rfl
      (.file rfl rfl rfl rfl) rfl rfl rfl) rfl rfl rfl⟩,
      ⟨_, _, .counted rfl rfl rfl rfl (.known rfl)⟩, trivial⟩
  obtain ⟨hbases, -⟩ := globals_start_at_bases keyBesideMethod_namedPackages
    keyBesideMethod_rootsAreFiles (fun _ => 1) methodThenKey
  obtain ⟨-, hnone, huncut, -⟩ := globals_start_at_bases keyBesideMethod_namedPackages
    keyBesideMethod_rootsAreFiles (fun _ => 2) methodThenKey
  refine ⟨keyBesideMethod_namedPackages, keyBesideMethod_rootsAreFiles, ?_, hdepth,
    hnone (huncut hdepth)⟩
  obtain ⟨base, hbase, -, hlocal⟩ := hbases _ hgives
  obtain ⟨n, rfl⟩ := hlocal.mp hstarts
  cases hbase with
  | fileLocal hn => exact ⟨n, hn⟩

theorem keyBesideMethod_local_owner :
    keyBesideMethod.collaborators.NamedPackages ∧ keyBesideMethod.RootsAreFiles ∧
      keyBesideMethod.transcript (fun _ => 0) {} [⟨0, ⟨0, some 7⟩⟩] =
        [(⟨0, ⟨0, some 7⟩⟩, .global "local 1x1:")] ∧
      keyBesideMethod.transcript (fun _ => 1) {} methodThenKey =
        [(⟨0, ⟨0, some 3⟩⟩, .fileLocal 3), (⟨0, ⟨0, some 7⟩⟩, .global "local 1x1:")] ∧
      Symbol.startsLocal "local 1x1:" := by
  refine ⟨keyBesideMethod_namedPackages, keyBesideMethod_rootsAreFiles, ?_, ?_,
    ⟨"1x1:".toList, by decide⟩⟩
  · decide +kernel
  · decide +kernel

end World

end SourceIndex
