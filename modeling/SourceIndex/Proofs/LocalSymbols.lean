import SourceIndex.Proofs.Calls
import SourceIndex.Proofs.LiveRuns
import SourceIndex.Proofs.Packages
import SourceIndex.Proofs.SymbolDecoding

/-! Local symbols stay with their resolver. The shared table holds global symbols, and the empty one
for files without a package, but never a local one. What was known before a question stays as it
was, and a resolver never gives out one number twice. So a local symbol in the records of a file
belongs to one node of that file. -/

namespace SourceIndex

open Memory World

namespace Node

variable {n : Node}

theorem isDeclaration_of_isContainer (h : n.isContainer = true) : n.isDeclaration = false := by
  unfold isContainer at h
  unfold isDeclaration
  split at h <;> simp_all

theorem isDeclaration_of_isImport (h : n.isImport = true) : n.isDeclaration = false := by
  simp only [isImport, Bool.or_eq_true, decide_eq_true_eq] at h
  rcases h with h | h <;> simp [isDeclaration, h]

end Node

theorem Symbol.render_extend_ne (owner : Symbol) (d : Descriptor) :
    (owner.extend d).render ≠ "" := by
  intro h
  have hnil := congrArg String.toList h
  simp only [extend, render, String.toList_append] at hnil
  exact d.render_ne_nil (List.append_eq_nil_iff.mp hnil).2

theorem Symbol.render_fileLocal_ne (n : Nat) : (fileLocal n).render ≠ "" := by
  intro h
  have hnil := congrArg String.toList h
  simp [render] at hnil

/-- Global symbols are in the table, with a text if they belong to a declaration, and local symbols
have different numbers, counted from one. Packages were found by asking. -/
structure Memory.Proper (w : World) (m : Memory) : Prop where
  table : ∀ key s, m.table.get? key = some s →
    (∃ text, s = .global text) ∨ s = .empty ∧ w.IsFile key
  declarations : ∀ key f n s, w.node? key = some (f, n) → n.isDeclaration = true →
    m.table.get? key = some s → s.render ≠ ""
  positive : ∀ key n, m.resolver.locals.get? key = some n → 1 ≤ n
  distinct : m.resolver.LocalsDistinct
  packages : w.collaborators.Remembers m.packages

variable {w : World} {m m₁ m₂ : Memory} {key : NodeKey} {f : SourceFile} {n : Node} {s : Symbol}

namespace Memory

theorem proper_empty (w : World) : Proper w {} :=
  ⟨by simp [Table.get?], by simp [Table.get?], by simp [Table.get?], Resolver.localsDistinct_empty,
    w.collaborators.remembers_empty⟩

namespace Proper

theorem heard (h : m.Proper w) (hheard : Heard m m₁) : m₁.Proper w where
  table := hheard.table ▸ h.table
  declarations := hheard.table ▸ h.declarations
  positive := hheard.resolver ▸ h.positive
  distinct := h.distinct.heard hheard
  packages := hheard.packages ▸ h.packages

theorem packageOf (h : m.Proper w) (file : String) :
    ((packageOf w.collaborators file).run m).2.Proper w :=
  ⟨h.table, h.declarations, h.positive, h.distinct, h.packages.package file⟩

theorem countKey (h : m.Proper w) (spelling : String) : ((countKey spelling).run m).2.Proper w :=
  ⟨h.table, h.declarations, h.positive, ⟨h.distinct.le_lastLocal, h.distinct.injective⟩,
    h.packages⟩

theorem newLocal (h : m.Proper w) (key : NodeKey) : ((newLocal key).run m).2.Proper w where
  table := h.table
  declarations := h.declarations
  distinct := h.distinct.newLocal key
  packages := h.packages
  positive k n hk := by
    rcases eq_or_of_get?_newLocal hk with ⟨-, rfl⟩ | hk
    · exact Nat.le_add_left 1 _
    · exact h.positive k n hk

theorem remember (h : m.Proper w) (hs : (∃ text, s = .global text) ∨ s = .empty ∧ w.IsFile key)
    (hdeclaration : ∀ f n, w.node? key = some (f, n) → n.isDeclaration = true → s.render ≠ "") :
    ((remember key s).run m).2.Proper w := by
  refine ⟨fun k s' hk => ?_, fun k f n s' hnode hdecl hk => ?_, h.positive, h.distinct,
    h.packages⟩
  · rcases eq_or_of_get?_remember hk with ⟨rfl, rfl⟩ | hk
    · exact hs
    · exact h.table k s' hk
  · rcases eq_or_of_get?_remember hk with ⟨rfl, rfl⟩ | hk
    · exact hdeclaration f n hnode hdecl
    · exact h.declarations k f n s' hnode hdecl hk

/-- A node that is no declaration may have any global symbol. -/
theorem remember_global (h : m.Proper w) (hnode : w.node? key = some (f, n))
    (hdecl : n.isDeclaration = false) (text : String) :
    ((Memory.remember key (.global text)).run m).2.Proper w := by
  refine h.remember (.inl ⟨text, rfl⟩) fun f' n' hnode' hdecl' => ?_
  obtain ⟨-, rfl⟩ := node?_unique hnode hnode'
  rw [hdecl] at hdecl'
  cases hdecl'

end Proper

end Memory

namespace Resolves

variable {mayCut : Prop} {links : Nat}

theorem proper (h : Resolves w mayCut links key m s m₁)
    (hp : w.collaborators.GlobalPackages) (hm : m.Proper w) : m₁.Proper w := by
  induction h with
  | known => exact hm
  | cut => exact hm.newLocal _
  | missing => exact hm
  | block => exact hm
  | @file _ key m f n package m₁ _ hnode hkind hpackage =>
    obtain ⟨hanswer, rfl⟩ := Prod.mk.inj hpackage
    refine (hm.packageOf _).remember ?_ fun f' n' hnode' hdecl => ?_
    · cases package with
      | none => exact .inr ⟨rfl, f, n, hnode, hkind⟩
      | some s => exact .inl (hp.of_remembers hm.packages hanswer)
    · obtain ⟨-, rfl⟩ := node?_unique hnode hnode'
      simp [Node.isDeclaration, hkind] at hdecl
  | counted _ hnode hkey hnumber _ ih =>
    obtain ⟨-, rfl⟩ := Prod.mk.inj hnumber
    exact (ih (hm.countKey _)).remember_global hnode (Node.isDeclaration_of_isKey hkey) _
  | property _ _ _ htarget _ ih => exact ih (hm.heard (setTarget?_spec htarget).2)
  | orphan hasks _ => exact (hm.heard hasks.heard).newLocal _
  | unowned hasks _ _ _ ih => exact (ih (hm.heard hasks.heard)).newLocal _
  | container hasks _ _ hcontainer ih =>
    exact (ih (hm.heard hasks.heard)).remember_global hasks.node
      (Node.isDeclaration_of_isContainer hcontainer) _
  | imported hasks _ _ _ himport _ ih ih' =>
    exact ih' ((ih (hm.heard hasks.heard)).heard (importTarget?_spec himport).2)
  | declared hasks _ _ _ himport _ ih =>
    have hm₃ := (ih (hm.heard hasks.heard)).heard (importTarget?_spec himport).2
    exact hm₃.remember (.inl ⟨_, rfl⟩) fun _ _ _ _ => Symbol.render_extend_ne _ _
  | undeclared hasks _ _ _ himport _ ih =>
    exact ((ih (hm.heard hasks.heard)).heard (importTarget?_spec himport).2).newLocal _

/-- The symbol of a declaration has a text, and a local one was given out for that declaration. -/
theorem declaration (h : Resolves w mayCut links key m s m₁) (hm : m.Proper w)
    (hnode : w.node? key = some (f, n)) (hdecl : n.isDeclaration = true) :
    s.render ≠ "" ∧ ∀ k, s = .fileLocal k → m₁.resolver.locals.get? key = some k := by
  have hfresh : ∀ m' : Memory, ((newLocal key).run m').1.render ≠ "" ∧
      ∀ k, ((newLocal key).run m').1 = .fileLocal k →
        ((newLocal key).run m').2.resolver.locals.get? key = some k := by
    refine fun m' => ⟨Symbol.render_fileLocal_ne _, fun k hk => ?_⟩
    obtain rfl : m'.resolver.lastLocal + 1 = k := Symbol.fileLocal.inj hk
    exact Table.get?_insert_self _ _ _
  cases h with
  | known h =>
    rcases known?_eq_some h with htable | ⟨k, hlocal, rfl⟩
    · refine ⟨hm.declarations key f n s hnode hdecl htable, ?_⟩
      rintro k rfl
      rcases hm.table key _ htable with ⟨text, h⟩ | ⟨h, -⟩ <;> cases h
    · refine ⟨Symbol.render_fileLocal_ne k, fun k' hk' => ?_⟩
      rw [hlocal, Symbol.fileLocal.inj hk']
  | cut => exact hfresh m
  | missing _ hmissing => simp [hnode] at hmissing
  | block _ hnode' hkind =>
    obtain ⟨-, rfl⟩ := node?_unique hnode hnode'
    simp [Node.isDeclaration, hkind] at hdecl
  | file _ hnode' hkind =>
    obtain ⟨-, rfl⟩ := node?_unique hnode hnode'
    simp [Node.isDeclaration, hkind] at hdecl
  | counted _ hnode' hkey =>
    obtain ⟨-, rfl⟩ := node?_unique hnode hnode'
    simp [Node.isDeclaration_of_isKey hkey] at hdecl
  | property _ hnode' _ htarget =>
    obtain ⟨-, rfl⟩ := node?_unique hnode hnode'
    have hkind : n.kind ≠ .jsxAttribute := by
      intro hkind
      simp [Node.isDeclaration, hkind] at hdecl
    simp only [setTarget?, hkind, if_false] at htarget
    cases (Prod.mk.inj htarget).1
  | orphan => exact hfresh _
  | unowned => exact hfresh _
  | container hasks _ _ hcontainer =>
    obtain ⟨-, rfl⟩ := node?_unique hnode hasks.node
    simp [Node.isDeclaration_of_isContainer hcontainer] at hdecl
  | imported hasks _ _ _ himport =>
    obtain ⟨-, rfl⟩ := node?_unique hnode hasks.node
    have hno : n.isImport ≠ true := by
      intro hi
      simp [Node.isDeclaration_of_isImport hi] at hdecl
    simp only [importTarget?, hno] at himport
    cases (Prod.mk.inj himport).1
  | declared => exact ⟨Symbol.render_extend_ne _ _, fun k hk => by cases hk⟩
  | undeclared => exact hfresh _

end Resolves

namespace World

variable {depth : Nat → Nat} {rs : Resolvers}

def Proper (w : World) (rs : Resolvers) : Prop := ∀ i, (rs.memory i).Proper w

theorem call_snd (rs : Resolvers) (c : Call) :
    (w.call depth rs c).2 = rs.store c.resolver
      ((w.resolveWithin (depth c.resolver + 1) c.key).run (rs.memory c.resolver)).2 := rfl

theorem Proper.call (hp : w.collaborators.GlobalPackages) (h : w.Proper rs) (c : Call) :
    w.Proper (w.call depth rs c).2 := by
  have hproper := (resolves_run (w := w) (depth c.resolver + 1) c.key
    (rs.memory c.resolver)).proper hp (h c.resolver)
  intro i
  by_cases hi : i = c.resolver
  · rw [hi, call_snd, Resolvers.memory_store]
    exact hproper
  · have hresolver : ((w.call depth rs c).2.memory i).resolver = rs.resolver i := by
      simp [call_snd, Resolvers.memory, Resolvers.store, hi]
    exact ⟨hproper.table, hproper.declarations, hresolver ▸ (h i).positive,
      hresolver ▸ (h i).distinct, hproper.packages⟩

theorem Proper.after (hp : w.collaborators.GlobalPackages) (h : w.Proper rs) (calls : List Call) :
    w.Proper (w.after depth rs calls) := by
  induction calls generalizing rs with
  | nil => exact h
  | cons c calls ih => exact ih (h.call hp c)

theorem call_keeps (depth : Nat → Nat) (rs : Resolvers) (c : Call) :
    (∀ key s, rs.table.get? key = some s → (w.call depth rs c).2.table.get? key = some s) ∧
      ∀ i key n, (rs.resolver i).locals.get? key = some n →
        ((w.call depth rs c).2.resolver i).locals.get? key = some n := by
  have hkeeps := (resolves_run (w := w) (depth c.resolver + 1) c.key (rs.memory c.resolver)).keeps
  constructor
  · intro key s hs
    have hknown : ((rs.memory c.resolver).known? key).isSome :=
      known?_isSome_iff.mpr (.inl (by rw [Resolvers.memory, hs]; rfl))
    exact (hkeeps key hknown).1.trans hs
  · intro i key n hn
    by_cases hi : i = c.resolver
    · subst hi
      have hknown : ((rs.memory c.resolver).known? key).isSome :=
        known?_isSome_iff.mpr (.inr (by rw [Resolvers.memory, hn]; rfl))
      have hsame := (hkeeps key hknown).2.trans hn
      simpa [call_snd, Resolvers.store] using hsame
    · simpa [call_snd, Resolvers.store, hi] using hn

/-- Asks one of several resolvers. Each of them has a limit of its own. -/
def answer (w : World) (maxDepth : Nat → UInt32) (c : Call) : Attempt Resolvers Empty Symbol :=
  Attempt.within (fun rs => rs.memory c.resolver) (fun m rs => rs.store c.resolver m)
    (w.symbolOf (maxDepth c.resolver) c.key)

def answers (w : World) (maxDepth : Nat → UInt32) (calls : List Call) :
    Attempt Resolvers Empty (List Symbol) :=
  calls.mapM (w.answer maxDepth)

def Fits (rs : Resolvers) : Prop := ∀ i, (rs.resolver i).Fits

section

variable {maxDepth : Nat → UInt32} {c : Call} {rs' : Resolvers}

/-- An answer that comes back is that of the rules, and the numbers still fit. -/
theorem answer_spec (h : w.answer maxDepth c rs = .ok s rs') :
    w.call (fun i => (maxDepth i).toNat) rs c = (s, rs') ∧ (Fits rs → Fits rs') := by
  have hcounts := w.symbolOf_counts (ε := Empty) (maxDepth c.resolver) c.key
  have hends := hcounts.agrees.ends (rs.memory c.resolver) _ rfl
  have hfits := hcounts.fits (rs.memory c.resolver)
  simp only [answer, Attempt.within] at h
  cases hrun : w.symbolOf (ε := Empty) (maxDepth c.resolver) c.key (rs.memory c.resolver) with
  | error fault m => simp [hrun] at h
  | ok s' m =>
    rw [hrun] at hends hfits h
    obtain ⟨rfl, rfl⟩ := EStateM.Result.ok.inj h
    obtain ⟨hresult, hmemory⟩ := hends
    refine ⟨Prod.ext (Except.ok.inj hresult) ?_, fun hrs i => ?_⟩
    · exact congrArg (rs.store c.resolver) hmemory.symm
    · by_cases hi : i = c.resolver
      · subst hi
        have hm : m.resolver.Fits := hfits (hrs c.resolver)
        simpa [Resolvers.store] using hm
      · simpa [Resolvers.store, hi] using hrs i

/-- An answer that does not come back has no number left, or no depth is beyond the limit. -/
theorem answer_fault {fault : Fault Empty} (h : w.answer maxDepth c rs = .error fault rs') :
    ∃ o, fault = .overflow o ∧
      Memory.Full (maxDepth c.resolver) o (rs'.memory c.resolver) := by
  have hends := (w.symbolOf_counts (ε := Empty) (maxDepth c.resolver) c.key).agrees.ends
    (rs.memory c.resolver) _ rfl
  simp only [answer, Attempt.within] at h
  cases hrun : w.symbolOf (ε := Empty) (maxDepth c.resolver) c.key (rs.memory c.resolver) with
  | ok s m => simp [hrun] at h
  | error fault' m =>
    rw [hrun] at hends h
    obtain ⟨rfl, rfl⟩ := EStateM.Result.error.inj h
    cases fault' with
    | error e => exact e.elim
    | overflow o => exact ⟨o, rfl, by rw [Resolvers.memory_store]; exact hends.1⟩

theorem answers_spec {calls : List Call} {ss : List Symbol}
    (h : w.answers maxDepth calls rs = .ok ss rs') :
    w.after (fun i => (maxDepth i).toNat) rs calls = rs' ∧ (Fits rs → Fits rs') := by
  induction calls generalizing rs ss with
  | nil =>
    obtain ⟨-, rfl⟩ := EStateM.Result.ok.inj h
    exact ⟨rfl, id⟩
  | cons c calls ih =>
    rw [answers, List.mapM_cons] at h
    cases hfirst : w.answer maxDepth c rs with
    | error fault rs₁ =>
      rw [bind_of_error hfirst] at h
      cases h
    | ok s rs₁ =>
      rw [bind_of_ok hfirst] at h
      cases hrest : w.answers maxDepth calls rs₁ with
      | error fault rs₂ =>
        rw [answers] at hrest
        rw [bind_of_error hrest] at h
        cases h
      | ok ss' rs₂ =>
        have hrest' := hrest
        rw [answers] at hrest'
        rw [bind_of_ok hrest'] at h
        obtain ⟨-, rfl⟩ := EStateM.Result.ok.inj h
        obtain ⟨hcall, hfits⟩ := answer_spec hfirst
        obtain ⟨hafter, hfits'⟩ := ih hrest
        refine ⟨?_, fun hrs => hfits' (hfits hrs)⟩
        rw [World.after, List.foldl_cons, hcall]
        exact hafter

end

end World

namespace FileContext

variable {c : FileContext}

/-- The symbol has a text, and a local one was given out for the node. -/
def Explains (c : FileContext) (m : Memory) (d : Noted Symbol) : Prop :=
  d.note.render ≠ "" ∧
    ∀ k, d.note = .fileLocal k → m.resolver.locals.get? ⟨c.fileId, some d.index⟩ = some k

theorem Explains.keeps {d : Noted Symbol} (h : c.Explains m d) (hkeeps : m.Keeps m₁) :
    c.Explains m₁ d := by
  refine ⟨h.1, fun k hk => ?_⟩
  have hlocal := h.2 k hk
  have hknown : (m.known? ⟨c.fileId, some d.index⟩).isSome :=
    known?_isSome_iff.mpr (.inr (by rw [hlocal]; rfl))
  rw [(hkeeps _ hknown).2, hlocal]

theorem look_proper (hp : c.world.collaborators.GlobalPackages)
    (hfile : c.world.program.file? c.fileId = some c.file) {index : Nat}
    (hnode : c.file.arena.get? (some index) = some n) (hm : m.Proper c.world) :
    ((c.look index n).run m).2.Proper c.world ∧ m.Keeps ((c.look index n).run m).2 ∧
      ∀ s ∈ ((c.look index n).run m).1,
        c.Explains ((c.look index n).run m).2 ⟨index, n, s⟩ := by
  have hresolves := World.resolves_run (w := c.world) (c.options.maxSymbolDepth.toNat + 1)
    ⟨c.fileId, some index⟩ m
  have hnode' : c.world.node? ⟨c.fileId, some index⟩ = some (c.file, n) :=
    node?_eq_some_iff.mpr ⟨hfile, hnode⟩
  unfold look
  split
  · refine ⟨hresolves.proper hp hm, hresolves.keeps, fun s hs => ?_⟩
    cases hdecl : n.isDeclaration with
    | false => simp [hdecl] at hs
    | true =>
      simp only [hdecl, if_true] at hs
      obtain rfl := Option.some.inj hs
      exact hresolves.declaration hm hnode' hdecl
  · exact ⟨hm, .refl m, fun s hs => by cases hs⟩

theorem survey_proper (hp : c.world.collaborators.GlobalPackages)
    (hfile : c.world.program.file? c.fileId = some c.file) {w : Walk Empty}
    (hnodes : ∀ index n, .enter index n ∈ w.events → c.file.arena.get? (some index) = some n)
    (hm : m.Proper c.world) :
    ((c.survey w).run m).2.Proper c.world ∧ m.Keeps ((c.survey w).run m).2 ∧
      ∀ d ∈ ((c.survey w).run m).1.noted, c.Explains ((c.survey w).run m).2 d := by
  induction w generalizing m with
  | done => exact ⟨hm, .refl m, fun d hd => absurd hd List.not_mem_nil⟩
  | operator token rest ih => exact ih (fun index n he => hnodes index n (.tail _ he)) hm
  | operand token rest ih => exact ih (fun index n he => hnodes index n (.tail _ he)) hm
  | node index n note inside rest ih ih' =>
    simp only [Walk.events, List.mem_cons, List.mem_append] at hnodes
    obtain ⟨hm₁, hkeeps₁, hlook⟩ := look_proper hp hfile (hnodes index n (.inl rfl)) hm
    obtain ⟨hm₂, hkeeps₂, hinside⟩ := ih (fun index n he => hnodes index n (.inr (.inl he))) hm₁
    obtain ⟨hm₃, hkeeps₃, hrest⟩ :=
      ih' (fun index n he => hnodes index n (.inr (.inr (.inr he)))) hm₂
    refine ⟨hm₃, (hkeeps₁.trans hkeeps₂).trans hkeeps₃, fun d hd => ?_⟩
    have hnoted : ((c.survey (.node index n note inside rest)).run m).1.noted =
        (((c.look index n).run m).1.toList.map fun s => ⟨index, n, s⟩) ++
          (((c.survey inside).run ((c.look index n).run m).2).1.noted ++
            ((c.survey rest).run ((c.survey inside).run ((c.look index n).run m).2).2).1.noted) :=
      Walk.noted_node ..
    rw [hnoted] at hd
    rcases List.mem_append.mp hd with hd | hd
    · obtain ⟨s, hs, rfl⟩ := List.mem_map.mp hd
      exact (hlook s (Option.mem_toList.mp hs)).keeps (hkeeps₂.trans hkeeps₃)
    · rcases List.mem_append.mp hd with hd | hd
      · exact (hinside d hd).keeps hkeeps₃
      · exact hrest d hd

theorem mem_noted_surveyed {s : Session} {d : Noted Opened} (hd : d ∈ (c.walk s).noted) :
    ⟨d.index, d.node, d.note.symbol⟩ ∈ (c.surveyed s).1.noted := by
  have hsymbols : (c.walk s).symbols = (c.surveyed s).1.mapNotes c.kept? :=
    Walk.symbols_number _ _ _
  have hmem : (⟨d.index, d.node, d.note.symbol⟩ : Noted Symbol) ∈ (c.walk s).symbols.noted := by
    rw [Walk.symbols, Walk.noted_mapNotes]
    exact List.mem_filterMap.mpr ⟨d, hd, rfl⟩
  rw [hsymbols, Walk.noted_mapNotes] at hmem
  obtain ⟨d', hd', hkept⟩ := List.mem_filterMap.mp hmem
  obtain ⟨symbol, hsymbol, heq⟩ := Option.map_eq_some_iff.mp hkept
  rw [← heq]
  obtain rfl : d'.note = symbol := by
    unfold kept? at hsymbol
    split at hsymbol
    · cases hsymbol
    · exact Option.some.inj hsymbol
  exact hd'

/-- What the resolver of the file knows at its end explains the symbols of all declarations. -/
theorem declarations_explained (hp : c.world.collaborators.GlobalPackages)
    (hfile : c.world.program.file? c.fileId = some c.file) {s : Session}
    (hs : Memory.Proper c.world ⟨s.symbols, {}, s.packages, s.journal⟩) :
    (c.surveyed s).2.resolver.LocalsDistinct ∧ ∀ d ∈ c.declarations s,
      c.Explains (c.surveyed s).2 ⟨d.index, d.node, d.note.symbol⟩ := by
  obtain ⟨hproper, -, hexplains⟩ :=
    survey_proper hp hfile (fun _ _ he => SourceFile.walk_enter he) hs
  refine ⟨hproper.distinct, fun d hd => ?_⟩
  by_cases hroot : c.file.arena.kind? c.file.root = some .sourceFile
  · rw [declarations_rooted hroot] at hd
    exact hexplains _ (mem_noted_surveyed hd)
  · rw [declarations_unrooted hroot] at hd
    cases hd

def ProperSymbols (w : World) (t : SymbolTable) (r : Resolver) (packages : Package.Cache) :
    Prop :=
  Memory.Proper w ⟨t, r, packages, #[]⟩

theorem ProperSymbols.memory {w : World} {m : Memory}
    (h : ProperSymbols w m.table m.resolver m.packages) : m.Proper w :=
  ⟨h.table, h.declarations, h.positive, h.distinct, h.packages⟩

theorem resolve_proper (hp : c.world.collaborators.GlobalPackages) (index : Nat) :
    Ensures (Recorder.Holds (ProperSymbols c.world)) (c.resolve index)
      fun _ => Recorder.Holds (ProperSymbols c.world) := by
  intro r h
  have hproper := (World.resolves_run (w := c.world) (c.options.maxSymbolDepth.toNat + 1)
    ⟨c.fileId, some index⟩ r.memory).proper hp (ProperSymbols.memory (m := r.memory) h)
  exact ⟨hproper.table, hproper.declarations, hproper.positive, hproper.distinct,
    hproper.packages⟩

theorem index_proper (hp : c.world.collaborators.GlobalPackages) (document : Nat) {s : Session}
    (h : ProperSymbols c.world s.symbols {} s.packages) :
    ProperSymbols c.world ((c.index document).run s).2.symbols {}
      ((c.index document).run s).2.packages := by
  unfold index
  split
  · have hlast := recordAll_holds (resolve_proper hp) document { session := s } h
    exact ⟨hlast.table, hlast.declarations, h.positive, h.distinct, hlast.packages⟩
  · exact h

end FileContext

namespace Project

variable {p : Project}

def ProperSession (p : Project) (s : Session) : Prop :=
  FileContext.ProperSymbols p.world s.symbols {} s.packages

theorem indexFile_proper (hp : p.collaborators.GlobalPackages) (fileId : Nat) (file : SourceFile) :
    Ensures p.ProperSession (p.indexFile fileId file) fun _ => p.ProperSession := by
  unfold indexFile
  refine Ensures.bind (Q := fun _ => p.ProperSession) (fun s h => h) fun document => ?_
  refine Ensures.bind (Q := fun _ => p.ProperSession)
    (fun s h => FileContext.index_proper (c := p.context fileId file) hp document h)
    fun result => ?_
  split <;> exact .pure fun _ h => h

theorem visits_proper (hp : p.collaborators.GlobalPackages) (order : List Nat) :
    p.ProperSession (p.visits order) := by
  induction order using List.reverseRec with
  | nil => exact Memory.proper_empty p.world
  | append_singleton order fileId ih =>
    rw [visits, List.foldl_append]
    change p.ProperSession (p.visit (p.visits order) fileId)
    unfold Project.visit
    split
    · exact indexFile_proper hp fileId _ _ ih
    · exact ih

/-- The ranges that a file writes are the first of those of its declarations, and all of them
unless it fails. -/
theorem index_ranges_isPrefix {τ : Type} [Sink τ] (c : FileContext) (document : Nat) (s : Session)
    (sink : τ) :
    ∃ written, written <+: c.declarations s ∧
      (stateAfter (Live.index c document ⟨s, sink⟩)).state.journal.ranges =
        s.journal.ranges ++ written.map c.rangeEntry ∧
      ∀ summary l, Live.index c document ⟨s, sink⟩ = .ok summary l →
        written = c.declarations s := by
  obtain ⟨⟨done, hdone, hbegins⟩, hok⟩ := log_of_follows (Live.index_enacts document)
    (Live.index_follows (c := c) document) s sink
  have hranges : ∀ j : Journal,
      j.ranges = (j.toList.filterMap Effect.entry?).filter Entry.isRange :=
    fun _ => rfl
  have hwritten : (stateAfter (Live.index c document ⟨s, sink⟩)).state.journal.ranges =
      s.journal.ranges ++ (done.filterMap Effect.entry?).filter Entry.isRange := by
    have hlog : (stateAfter (Live.index c document ⟨s, sink⟩)).state.journal.toList =
        s.journal.toList ++ done := hdone
    rw [hranges, hranges, hlog, List.filterMap_append, List.filter_append]
  have hdeclared : (done.filterMap Effect.entry?).filter Entry.isRange <+:
      (c.declarations s).map c.rangeEntry := by
    have hall := (hbegins.filterMap Effect.entry?).filter Entry.isRange
    have hplanned := c.index_ranges document s
    rw [hranges, hranges] at hplanned
    rw [List.filterMap_append, List.filter_append] at hall
    exact (List.prefix_append_right_inj _).mp (hplanned ▸ hall)
  refine ⟨_, List.take_prefix ((done.filterMap Effect.entry?).filter Entry.isRange).length _, ?_,
    fun summary l hrun => List.take_of_length_le ?_⟩
  · rw [hwritten, List.map_take, ← List.prefix_iff_eq_take.mp hdeclared]
  · have hplanned := c.index_ranges document s
    rw [hok summary l hrun] at hplanned
    rw [hrun] at hwritten
    have hsame := List.append_cancel_left (hwritten.symm.trans hplanned)
    rw [hsame, List.length_map]

/-- Local symbols stay local and unique. Let resolvers that share a table be asked, in any order and
each with any limit. They answer as long as their numbers fit, and then the table holds global
symbols only, and the empty one for files; what was there before a question is there after it; and a
resolver numbers its local symbols from one, in 32 bits, each number once. So if files were indexed
in any order before, every range of a file has a text, and ranges with the same local symbol belong
to the same node, whether or not the file is indexed to its end. -/
theorem local_symbols_unique (hp : p.collaborators.GlobalPackages) :
    (∀ (maxDepth : Nat → UInt32) (calls : List Call) (ss : List Symbol) (rs : Resolvers),
      p.world.answers maxDepth calls {} = .ok ss rs →
      (∀ key s, rs.table.get? key = some s →
        (∃ text, s = .global text) ∨ s = .empty ∧ p.world.IsFile key) ∧
      (∀ c s rs', p.world.answer maxDepth c rs = .ok s rs' →
        (∀ key s, rs.table.get? key = some s → rs'.table.get? key = some s) ∧
        ∀ i key n, (rs.resolver i).locals.get? key = some n →
          (rs'.resolver i).locals.get? key = some n) ∧
      (∀ c fault rs', p.world.answer maxDepth c rs = .error fault rs' →
        ∃ o, fault = .overflow o ∧
          Memory.Full (maxDepth c.resolver) o (rs'.memory c.resolver)) ∧
      ∀ i, (rs.resolver i).lastLocal < bound32 ∧
        (∀ key n, (rs.resolver i).locals.get? key = some n →
          1 ≤ n ∧ n ≤ (rs.resolver i).lastLocal) ∧
        ∀ key key' n, (rs.resolver i).locals.get? key = some n →
          (rs.resolver i).locals.get? key' = some n → key = key') ∧
    ∀ {σ : Type} [Sink σ] {ready : σ → Prop}, Sink.Reliable ready → ∀ sink, ready sink →
      ∀ order l, p.visitAll order ⟨{}, sink⟩ = .ok () l →
      ∀ fileId file (s : Session), p.program.file? fileId = some file →
      s.symbols = l.state.symbols → s.packages = l.state.packages →
      (∀ {τ : Type} [Sink τ] (sink' : τ) document, ∃ written,
        written <+: (p.context fileId file).declarations s ∧
        (stateAfter (Live.index (p.context fileId file) document ⟨s, sink'⟩)).state.journal.ranges =
          s.journal.ranges ++ written.map (p.context fileId file).rangeEntry ∧
        ∀ summary l', Live.index (p.context fileId file) document ⟨s, sink'⟩ = .ok summary l' →
          written = (p.context fileId file).declarations s) ∧
      (∀ d ∈ (p.context fileId file).declarations s, d.note.symbol.render ≠ "") ∧
      ∀ d ∈ (p.context fileId file).declarations s, ∀ d' ∈ (p.context fileId file).declarations s,
        ∀ n, d.note.symbol = .fileLocal n → d'.note.symbol = .fileLocal n → d.index = d'.index := by
  refine ⟨fun maxDepth calls ss rs hanswers => ?_, ?_⟩
  · obtain ⟨rfl, hfits⟩ := World.answers_spec hanswers
    have hproper : p.world.Proper (p.world.after (fun i => (maxDepth i).toNat) {} calls) :=
      World.Proper.after hp (fun _ => Memory.proper_empty _) calls
    refine ⟨(hproper 0).table, fun c s rs' hanswer => ?_, fun c fault rs' => World.answer_fault,
      fun i => ⟨?_, fun key n hn => ?_, ?_⟩⟩
    · have hcall := (World.answer_spec hanswer).1
      have hkeeps := World.call_keeps (w := p.world) (fun i => (maxDepth i).toNat)
        (p.world.after (fun i => (maxDepth i).toNat) {} calls) c
      rwa [hcall] at hkeeps
    · exact (hfits (fun _ => Resolver.fits_empty) i).lastLocal
    · exact ⟨(hproper i).positive key n hn, (hproper i).distinct.le_lastLocal key n hn⟩
    · exact (hproper i).distinct.injective
  · intro σ _ ready hs sink hsink order l hvisited fileId file s hfile hsymbols hpackages
    have hstate : l.state = p.visits order := by
      rcases visitAll_run hs p order hsink with ⟨o, l', hoverflow⟩ | ⟨sink', -, hrun⟩
      · rw [hoverflow] at hvisited
        cases hvisited
      · rw [hrun] at hvisited
        rw [← (EStateM.Result.ok.inj hvisited).2]
    have hproper := visits_proper hp order
    rw [ProperSession, ← hstate, ← hsymbols, ← hpackages] at hproper
    obtain ⟨hdistinct, hexplains⟩ :=
      FileContext.declarations_explained (c := p.context fileId file) (s := s) hp hfile
        hproper.memory
    refine ⟨fun sink' document => index_ranges_isPrefix _ document s sink',
      fun d hd => (hexplains d hd).1, fun d hd d' hd' n hn hn' => ?_⟩
    have hkey := hdistinct.injective _ _ n ((hexplains d hd).2 n hn) ((hexplains d' hd').2 n hn')
    exact Option.some.inj (congrArg NodeKey.node hkey)

/-- A class, and two functions in a block, next to a manifest. -/
def functionsInBlock : Project where
  program := ⟨#[file]⟩
  options := {}
  collaborators := { Collaborators.none with package := Package.resolve files "/r" }
where
  files : FileSystem :=
    ⟨FileTree.empty.write ["r", "package.json"] "\x7b\"name\":\"p\",\"version\":\"1\"\x7d", []⟩
  file : SourceFile :=
    { name := "a.ts"
      text := "class A{}{function f(){}function g(){}}".toList
      arena := (((((((((Arena.empty.add .identifier 6 7 (.identifier "A")).add .classDeclaration 0 9
        (.declaration (.classLike none (some 0) none none []))).add .identifier 19 20
        (.identifier "f")).add .block 22 24 (.statement (.block []))).add .functionDeclaration 10 24
        (.declaration (.function none false (some 2) none [] none (some 3)))).add .identifier 33 34
        (.identifier "g")).add .block 36 38 (.statement (.block []))).add .functionDeclaration 24 38
        (.declaration (.function none false (some 5) none [] none (some 6)))).add .block 9 39
        (.statement (.block [some 4, some 7]))).add .sourceFile 0 39
        (.sourceFile [some 1, some 8] "a.ts" .ts false)
      root := some 9 }

/-- Both functions are numbered by one resolver, and the second one by another. When the file is
indexed a second time, it has the same local symbols. -/
theorem functionsInBlock_unique :
    (∃ ss rs, functionsInBlock.world.answers (fun _ => 1000)
        [⟨0, 0, some 4⟩, ⟨0, 0, some 7⟩, ⟨1, 0, some 7⟩] {} = .ok ss rs ∧
      ss = [.fileLocal 1, .fileLocal 2, .fileLocal 1] ∧
      ∀ i key key' n, (rs.resolver i).locals.get? key = some n →
        (rs.resolver i).locals.get? key' = some n → key = key') ∧
    ∃ l, functionsInBlock.visitAll [0] ⟨{}, ({} : MemorySink)⟩ = .ok () l ∧
      let c := functionsInBlock.context 0 functionsInBlock.file
      (c.declarations l.state).map (fun d => (d.index, d.note.symbol)) =
        [(1, .global "lsif-ts npm p 1 A#"), (4, .fileLocal 1), (7, .fileLocal 2)] ∧
      (∀ d ∈ c.declarations l.state, d.note.symbol.render ≠ "") ∧
      ∀ d ∈ c.declarations l.state, ∀ d' ∈ c.declarations l.state, ∀ n,
        d.note.symbol = .fileLocal n → d'.note.symbol = .fileLocal n → d.index = d'.index := by
  have hp : functionsInBlock.collaborators.GlobalPackages :=
    Package.globalPackages_of_resolve rfl
  obtain ⟨hasked, hindexed⟩ := local_symbols_unique hp
  constructor
  · have hanswers : (match functionsInBlock.world.answers (fun _ => 1000)
          [⟨0, 0, some 4⟩, ⟨0, 0, some 7⟩, ⟨1, 0, some 7⟩] {} with
        | .ok ss _ => some ss
        | .error _ _ => none) = some [.fileLocal 1, .fileLocal 2, .fileLocal 1] := by
      decide +kernel
    cases hrun : functionsInBlock.world.answers (fun _ => 1000)
        [⟨0, 0, some 4⟩, ⟨0, 0, some 7⟩, ⟨1, 0, some 7⟩] {} with
    | error fault rs =>
      rw [hrun] at hanswers
      cases hanswers
    | ok ss rs =>
      rw [hrun] at hanswers
      obtain rfl := Option.some.inj hanswers
      exact ⟨_, rs, rfl, rfl, fun i => ((hasked _ _ _ _ hrun).2.2.2 i).2.2⟩
  · have hok : (match functionsInBlock.visitAll [0] ⟨{}, ({} : MemorySink)⟩ with
        | .ok _ _ => true
        | .error _ _ => false) = true := by
      decide +kernel
    rcases visitAll_run memory_reliable functionsInBlock [0] trivial with
      ⟨o, l, hoverflow⟩ | ⟨sink, -, hrun⟩
    · rw [hoverflow] at hok
      cases hok
    · obtain ⟨-, hranges, hdistinct⟩ :=
        hindexed memory_reliable {} trivial [0] _ hrun 0 functionsInBlock.file
          (functionsInBlock.visits [0]) rfl rfl rfl
      have hdeclared : ((functionsInBlock.context 0 functionsInBlock.file).declarations
          (functionsInBlock.visits [0])).map (fun d => (d.index, d.note.symbol)) =
          [(1, .global "lsif-ts npm p 1 A#"), (4, .fileLocal 1), (7, .fileLocal 2)] := by
        decide +kernel
      refine ⟨_, hrun, ?_⟩
      dsimp only
      exact ⟨hdeclared, hranges, hdistinct⟩

end Project

end SourceIndex
