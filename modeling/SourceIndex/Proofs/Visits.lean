import Mathlib.Data.List.Induction
import Mathlib.Data.List.Infix
import SourceIndex.Project
import SourceIndex.Proofs.KeyNumbers
import SourceIndex.Proofs.Run
import SourceIndex.Proofs.SymbolText

/-! Files of one session, visited in any order. Recording a file changes the table of symbols and
the resolver only where it resolves a node. -/

namespace SourceIndex

namespace Recorder

/-- An invariant of what symbols are found with. -/
def Holds (I : SymbolTable → Resolver → Package.Cache → Prop) (r : Recorder) : Prop :=
  I r.session.symbols r.resolver r.session.packages

def Has (Inv : SymbolTable → Resolver → Prop) (r : Recorder) : Prop :=
  Inv r.session.symbols r.resolver

variable {I : SymbolTable → Resolver → Package.Cache → Prop}

theorem inSession_holds {α : Type} {x : StateM Session α}
    (hx : ∀ s, (x.run s).2.symbols = s.symbols ∧ (x.run s).2.packages = s.packages) :
    Ensures (Holds I) (inSession x) fun _ => Holds I := by
  intro r h
  have hsymbols : ((inSession x).run r).2.session.symbols = r.session.symbols := (hx r.session).1
  have hpackages : ((inSession x).run r).2.session.packages = r.session.packages :=
    (hx r.session).2
  have hresolver : ((inSession x).run r).2.resolver = r.resolver := rfl
  rw [Holds, hsymbols, hresolver, hpackages]
  exact h

end Recorder

namespace FileContext

open Recorder

variable {I : SymbolTable → Resolver → Package.Cache → Prop} {c : FileContext}

theorem openComponent_holds (index : Nat) (n : Node) (s : Symbol) :
    Ensures (Holds I) (c.openComponent index n s) fun _ => Holds I := by
  unfold openComponent
  refine (inSession_holds fun _ => ⟨rfl, rfl⟩).bind fun _ => ?_
  refine (inSession_holds fun _ => ⟨rfl, rfl⟩).bind fun _ => ?_
  refine (inSession_holds fun _ => ⟨rfl, rfl⟩).bind fun _ => ?_
  refine (inSession_holds fun _ => ⟨rfl, rfl⟩).bind fun _ => ?_
  refine (inSession_holds fun _ => ⟨rfl, rfl⟩).bind fun _ => ?_
  refine (inSession_holds fun _ => ⟨rfl, rfl⟩).bind fun _ => ?_
  exact fun r h => h

theorem closeComponent_holds : Ensures (Holds I) c.closeComponent fun _ => Holds I := by
  unfold closeComponent
  refine Ensures.bind (Q := fun _ => Holds I) (fun r h => h) fun r => ?_
  split
  · exact .pure fun _ h => h
  · refine Ensures.bind (Q := fun _ => Holds I) (fun r h => h) fun _ => ?_
    have hclosed : ∀ component : Component, Ensures (Holds I)
        (modify fun r : Recorder => { r with closed := component :: r.closed } :
          StateM Recorder PUnit) fun _ => Holds I := fun _ r h => h
    split
    · exact (inSession_holds fun _ => ⟨rfl, rfl⟩).bind fun _ => hclosed _
    · exact hclosed _

variable (hresolve : ∀ index, Ensures (Holds I) (c.resolve index) fun _ => Holds I)

include hresolve

theorem openDeclaration_holds (index : Nat) (n : Node) :
    Ensures (Holds I) (c.openDeclaration index n) fun _ => Holds I := by
  unfold openDeclaration
  split
  · refine (hresolve index).bind fun s r h => ?_
    have hopen : Holds I ((c.openComponent index n s).run r).2 := openComponent_holds index n s r h
    cases s with
    | fileLocal =>
      cases c.options.includeLocals with
      | false => exact h
      | true => exact hopen
    | empty => exact hopen
    | global => exact hopen
  · exact .pure fun _ h => h

theorem record_holds (e : Event) : Ensures (Holds I) (c.record e) fun _ => Holds I := by
  cases e with
  | operator token => exact fun r h => h
  | operand token => exact fun r h => h
  | enter index n =>
    have hrest : Ensures (Holds I)
        (do
          let opened ← c.openDeclaration index n
          modify fun r => { r with opened := opened :: r.opened })
        fun _ => Holds I :=
      (openDeclaration_holds hresolve index n).bind fun opened r h => h
    simp only [record]
    split
    · exact (hresolve index).bind fun _ => hrest
    · exact hrest
  | leave =>
    simp only [record]
    refine Ensures.bind (Q := fun _ => Holds I) (fun r h => h) fun r => ?_
    split
    · exact closeComponent_holds.bind fun _ r h => h
    · exact fun r h => h
    · exact .pure fun _ h => h

/-- What resolving a node preserves, recording a file preserves. -/
theorem recordAll_holds (document : Nat) :
    Ensures (Holds I) (c.recordAll document) fun _ => Holds I := by
  unfold recordAll
  refine (inSession_holds fun _ => ⟨rfl, rfl⟩).bind fun _ => ?_
  refine Ensures.bind (Q := fun _ => Holds I) (fun r h => h) fun _ => ?_
  refine (Ensures.forM fun e _ => record_holds hresolve e).bind fun _ => ?_
  split
  · exact .pure fun _ h => h
  refine closeComponent_holds.bind fun _ => ?_
  refine Ensures.bind (Q := fun _ => Holds I) (fun r h => h) fun r => ?_
  have hlast : Ensures (Holds I)
      (do
        let components := sortBy (fun a b => a.id ≤ b.id) (← get).closed
        pure (.ok ⟨document, components, r.outline.finish⟩) :
        StateM Recorder (Except IndexError FileSummary)) fun _ => Holds I := fun r h => h
  split
  · refine (Ensures.forM fun tree _ => ?_).bind fun _ => hlast
    exact (inSession_holds fun _ => ⟨rfl, rfl⟩).bind fun _ => .pure fun _ h => h
  · exact hlast

omit hresolve in
theorem recordAll_has {Inv : SymbolTable → Resolver → Prop}
    (hresolve : ∀ index, Ensures (Has Inv) (c.resolve index) fun _ => Has Inv) (document : Nat) :
    Ensures (Has Inv) (c.recordAll document) fun _ => Has Inv :=
  recordAll_holds (I := fun t r _ => Inv t r) hresolve document

end FileContext

/-- A visit that began with the first table. What was in it has kept its symbols, and the keys that
came to it are tagged with the visit. -/
structure AddsKeys (w : World) (visit : Nat) (t₀ : SymbolTable) (tags : NodeKey → Tag)
    (t : SymbolTable) : Prop where
  kept : ∀ key s, t₀.get? key = some s → t.get? key = some s
  added : ∀ key, (w.spelling? key).isSome → (t.get? key).isSome →
    (t₀.get? key).isSome ∨ (tags key).visit = visit

def TaggedKeys (w : World) (visit : Nat) (t₀ t : SymbolTable) (r : Resolver) : Prop :=
  ∃ tags, Tagged w visit tags ⟨t, r, {}, #[]⟩ ∧ AddsKeys w visit t₀ tags t

section

variable {w : World} {visit : Nat} {t t₀ : SymbolTable} {r r₀ : Resolver}
  {tags tags₀ : NodeKey → Tag}

theorem tagged_empty (w : World) (r : Resolver) :
    Tagged w 0 (fun _ => ⟨0, 0, .empty⟩) ⟨{}, r, {}, #[]⟩ :=
  ⟨by simp [Table.get?], by simp [Table.get?], by simp [Table.get?], by simp [Table.get?],
    by simp [Table.get?]⟩

/-- The next visit begins with a new resolver. -/
theorem Tagged.next (h : Tagged w visit tags ⟨t, r, {}, #[]⟩) :
    TaggedKeys w (visit + 1) t t {} := by
  refine ⟨tags, ⟨h.symbol, h.owner, fun key hs hk => (h.visit_le key hs hk).trans (Nat.le_succ _),
    fun key spelling hs hk hvisit => ?_, h.distinct⟩, fun _ _ hk => hk, fun _ _ hk => .inl hk⟩
  have hle := h.visit_le key (by rw [hs]; rfl) hk
  omega

/-- After the visit the keys that were there before still have the tags they had. -/
theorem Tagged.keep (h₀ : Tagged w visit tags₀ ⟨t₀, r₀, {}, #[]⟩)
    (h : Tagged w (visit + 1) tags ⟨t, r, {}, #[]⟩) (hadds : AddsKeys w (visit + 1) t₀ tags t) :
    Tagged w (visit + 1) (fun key => if (t₀.get? key).isSome then tags₀ key else tags key)
      ⟨t, r, {}, #[]⟩ := by
  have hvisit : ∀ key, (w.spelling? key).isSome → (t.get? key).isSome →
      ¬ (t₀.get? key).isSome → (tags key).visit = visit + 1 :=
    fun key hs hk hnew => (hadds.added key hs hk).resolve_left hnew
  have hearlier : ∀ key, (w.spelling? key).isSome → (t₀.get? key).isSome →
      (tags₀ key).visit < visit + 1 := fun key hs hk => Nat.lt_succ_of_le (h₀.visit_le key hs hk)
  refine ⟨?_, ?_, ?_, ?_, ?_⟩
  · intro key spelling s hs hk
    split
    · next hold =>
      obtain ⟨s₀, hs₀⟩ := Option.isSome_iff_exists.mp hold
      obtain rfl := Option.some.inj ((hadds.kept key s₀ hs₀).symm.trans hk)
      exact h₀.symbol key spelling s₀ hs hs₀
    · exact h.symbol key spelling s hs hk
  · intro key f hf hs hk hfile
    split
    · next hold =>
      exact (h₀.owner key f hf hs hold hfile).imp id (hadds.kept _ _)
    · exact h.owner key f hf hs hk hfile
  · intro key hs hk
    split
    · next hold => exact (hearlier key hs hold).le
    · exact h.visit_le key hs hk
  · intro key spelling hs hk
    have hspelled : (w.spelling? key).isSome := by rw [hs]; rfl
    split
    · next hold =>
      intro heq
      exact absurd heq (hearlier key hspelled hold).ne
    · exact h.counted key spelling hs hk
  · intro key key' spelling hs hs' hk hk' hne
    have hspelled : (w.spelling? key).isSome := by rw [hs]; rfl
    have hspelled' : (w.spelling? key').isSome := by rw [hs']; rfl
    split <;> split
    · next hold hold' => exact h₀.distinct key key' spelling hs hs' hold hold' hne
    · next hold hnew =>
      have hlt := hearlier key hspelled hold
      have heq := hvisit key' hspelled' hk' hnew
      intro hsame
      omega
    · next hnew hold =>
      have hlt := hearlier key' hspelled' hold
      have heq := hvisit key hspelled hk hnew
      intro hsame
      omega
    · exact h.distinct key key' spelling hs hs' hk hk' hne

end

namespace FileContext

open Recorder

variable {c : FileContext} {visit : Nat} {t₀ : SymbolTable}

theorem resolve_taggedKeys (index : Nat) :
    Ensures (Has (TaggedKeys c.world visit t₀)) (c.resolve index)
      fun _ => Has (TaggedKeys c.world visit t₀) := by
  rintro r ⟨tags, h, hadds⟩
  let m : Memory := ⟨r.session.symbols, r.resolver, r.session.packages, r.session.journal⟩
  have hm : Progress c.world visit tags ⟨r.session.symbols, r.resolver, {}, #[]⟩ tags m :=
    h.unchanged rfl rfl
  have hrun := World.resolves_run (w := c.world) (c.options.maxSymbolDepth.toNat + 1)
    ⟨c.fileId, some index⟩ m
  obtain ⟨tags', hp⟩ := hrun.progress hm.tagged
  let m' := ((c.world.resolve c.options.maxSymbolDepth.toNat ⟨c.fileId, some index⟩).run m).2
  have hm' : Progress c.world visit tags' m' tags' ⟨m'.table, m'.resolver, {}, #[]⟩ :=
    hp.tagged.unchanged rfl rfl
  refine ⟨tags', hm'.tagged, fun key s hk => ?_, fun key hs hk => ?_⟩
  · have hbefore : m.table.get? key = some s := hadds.kept key s hk
    have hknown := Memory.known?_isSome_iff.mpr (.inl (Option.isSome_of_eq_some hbefore))
    exact (hrun.keeps key hknown).1.trans hbefore
  · obtain ⟨spelling, hspelling⟩ := Option.isSome_iff_exists.mp hs
    rcases hp.kept key spelling hspelling hk with ⟨hold, htag⟩ | ⟨hvisit, -⟩
    · exact (hadds.added key hs hold).imp_right fun hvisit => by rw [htag, hvisit]
    · exact .inr hvisit

theorem resolve_localsDistinct (index : Nat) :
    Ensures (Has fun _ r => r.LocalsDistinct) (c.resolve index)
      fun _ => Has fun _ r => r.LocalsDistinct :=
  fun r h => (World.resolves_run (w := c.world) (c.options.maxSymbolDepth.toNat + 1)
    ⟨c.fileId, some index⟩
    ⟨r.session.symbols, r.resolver, r.session.packages, r.session.journal⟩).localsDistinct h

theorem recordAll_localsDistinct (document : Nat) (s : Session) :
    ((c.recordAll document).run { session := s }).2.resolver.LocalsDistinct := by
  have h : Has (fun _ r => r.LocalsDistinct) { session := s } := Resolver.localsDistinct_empty
  exact recordAll_has resolve_localsDistinct document _ h

theorem index_taggedKeys (document : Nat) {s : Session}
    (h : TaggedKeys c.world visit t₀ s.symbols {}) :
    ∃ r, TaggedKeys c.world visit t₀ ((c.index document).run s).2.symbols r := by
  unfold index
  split
  · exact ⟨_, recordAll_has resolve_taggedKeys document { session := s } h⟩
  · exact ⟨{}, h⟩

end FileContext

namespace Project

def world (p : Project) : World := ⟨p.program, p.collaborators⟩

/-- Indexes the file with this number, if there is one. -/
def visit (p : Project) (s : Session) (fileId : Nat) : Session :=
  match p.program.file? fileId with
  | some file => ((p.indexFile fileId file).run s).2
  | none => s

/-- The session after files were indexed in this order, some perhaps more than once. -/
def visits (p : Project) (order : List Nat) : Session := order.foldl p.visit {}

/-- The number of visits after which a node first has a symbol. -/
def knownSince (p : Project) (order : List Nat) (key : NodeKey) : Nat :=
  order.inits.findIdx fun done => ((p.visits done).symbols.get? key).isSome

variable {p : Project} {order : List Nat} {key : NodeKey}

theorem indexFile_taggedKeys {visit : Nat} {t₀ : SymbolTable} (fileId : Nat) (file : SourceFile) :
    Ensures (fun s : Session => TaggedKeys p.world visit t₀ s.symbols {}) (p.indexFile fileId file)
      fun _ s => ∃ r, TaggedKeys p.world visit t₀ s.symbols r := by
  unfold indexFile
  refine Ensures.bind (Q := fun _ s => TaggedKeys p.world visit t₀ s.symbols {}) (fun s h => h)
    fun document => ?_
  refine Ensures.bind
    (Q := fun _ (s : Session) => ∃ r, TaggedKeys p.world visit t₀ s.symbols r)
    (fun s h => FileContext.index_taggedKeys (c := p.context fileId file) document h)
    fun result => ?_
  split <;> exact .pure fun _ h => h

theorem visit_taggedKeys {visit : Nat} {t₀ : SymbolTable} {s : Session} (fileId : Nat)
    (h : TaggedKeys p.world visit t₀ s.symbols {}) :
    ∃ r, TaggedKeys p.world visit t₀ (p.visit s fileId).symbols r := by
  unfold Project.visit
  split
  · exact indexFile_taggedKeys fileId _ s h
  · exact ⟨{}, h⟩

theorem visits_append_singleton (order : List Nat) (fileId : Nat) :
    p.visits (order ++ [fileId]) = p.visit (p.visits order) fileId := List.foldl_append

theorem inits_append_singleton (order : List Nat) (fileId : Nat) :
    (order ++ [fileId]).inits = order.inits ++ [order ++ [fileId]] := by
  simp [List.inits_append]

theorem knownSince_append_of_known (fileId : Nat)
    (h : ((p.visits order).symbols.get? key).isSome) :
    p.knownSince (order ++ [fileId]) key = p.knownSince order key := by
  have hlt : p.knownSince order key < order.inits.length :=
    List.findIdx_lt_length_of_exists ⟨order, (List.mem_inits _ _).mpr List.prefix_rfl, h⟩
  rw [knownSince, inits_append_singleton, List.findIdx_append]
  exact if_pos hlt

theorem knownSince_append_of_unknown (fileId : Nat)
    (hbefore : ∀ done, done <+: order → ¬ ((p.visits done).symbols.get? key).isSome)
    (hafter : ((p.visits (order ++ [fileId])).symbols.get? key).isSome) :
    p.knownSince (order ++ [fileId]) key = order.length + 1 := by
  have hnone : order.inits.findIdx (fun done => ((p.visits done).symbols.get? key).isSome) =
      order.inits.length :=
    List.findIdx_eq_length_of_false fun done hdone =>
      Bool.eq_false_iff.mpr (hbefore done ((List.mem_inits _ _).mp hdone))
  rw [knownSince, inits_append_singleton, List.findIdx_append, hnone, if_neg (Nat.lt_irrefl _)]
  simp [List.findIdx_cons, hafter, List.length_inits]

/-- The tags tell on which visit a key was first known, and what is known stays known. -/
structure Dated (p : Project) (order : List Nat) (tags : NodeKey → Tag) : Prop where
  visit : ∀ key, (p.world.spelling? key).isSome → ((p.visits order).symbols.get? key).isSome →
    (tags key).visit = p.knownSince order key
  lasting : ∀ done key, done <+: order → ((p.visits done).symbols.get? key).isSome →
    ((p.visits order).symbols.get? key).isSome

theorem visits_dated (order : List Nat) :
    ∃ r tags, Tagged p.world order.length tags ⟨(p.visits order).symbols, r, {}, #[]⟩ ∧
      p.Dated order tags := by
  induction order using List.reverseRec with
  | nil =>
    refine ⟨{}, _, tagged_empty p.world {}, by simp [visits, Table.get?],
      fun done key hdone hk => ?_⟩
    rwa [← List.prefix_nil.mp hdone]
  | append_singleton order fileId ih =>
    obtain ⟨r₀, tags₀, h₀, hdated⟩ := ih
    obtain ⟨r, tags, h, hadds⟩ := visit_taggedKeys fileId h₀.next
    rw [← visits_append_singleton] at h hadds
    rw [List.length_append]
    refine ⟨r, _, h₀.keep h hadds, fun key hs hk => ?_, fun done key hdone hk => ?_⟩
    · split
      · next hold => rw [knownSince_append_of_known fileId hold, hdated.visit key hs hold]
      · next hnew =>
        have hbefore := fun done hdone hk => hnew (hdated.lasting done key hdone hk)
        rw [knownSince_append_of_unknown fileId hbefore hk]
        exact (hadds.added key hs hk).resolve_left hnew
    · rcases List.prefix_concat_iff.mp hdone with rfl | hdone
      · exact hk
      · obtain ⟨s, hs⟩ := Option.isSome_iff_exists.mp (hdated.lasting done key hdone hk)
        exact Option.isSome_of_eq_some (hadds.kept key s hs)

/-- When keys share a symbol. A key's symbol is that of the root of its file, followed by its
spelling and its number; the first is the same for all keys of a file that has a proper root, unless
a chain of owners was too long. Two keys below one symbol share theirs exactly if they are spelled
alike and have the same number from different visits, or if one is spelled like the other with
digits added and these digits are taken from the front of the other's number. So keys of one
spelling that are first known after the same visit have different symbols. Keys that a chain of
owners too long leaves local have different symbols on one visit. -/
theorem keys_share_symbol_iff (p : Project) (order : List Nat) :
    (∃ (owner : NodeKey → Symbol) (number : NodeKey → Nat),
      (∀ key spelling s, p.world.spelling? key = some spelling →
        (p.visits order).symbols.get? key = some s →
        s = (owner key).extend ⟨.metadata, spelling ++ toString (number key)⟩) ∧
      (∀ key f, p.program.file? key.file = some f → (p.world.spelling? key).isSome →
        ((p.visits order).symbols.get? key).isSome → p.world.IsFile ⟨key.file, f.root⟩ →
        (∃ n, owner key = .fileLocal n) ∨
          (p.visits order).symbols.get? ⟨key.file, f.root⟩ = some (owner key)) ∧
      ∀ key key' spelling spelling' s s', key ≠ key' →
        p.world.spelling? key = some spelling → p.world.spelling? key' = some spelling' →
        (p.visits order).symbols.get? key = some s →
        (p.visits order).symbols.get? key' = some s' → owner key = owner key' →
        (s = s' ↔
          (spelling = spelling' ∧ number key = number key' ∧
            p.knownSince order key ≠ p.knownSince order key') ∨
          (∃ digits, digits ≠ "" ∧ spelling' = spelling ++ digits ∧
            toString (number key) = digits ++ toString (number key')) ∨
          ∃ digits, digits ≠ "" ∧ spelling = spelling' ++ digits ∧
            toString (number key') = digits ++ toString (number key))) ∧
    ∀ fileId file document s key key' n,
      (((p.context fileId file).recordAll document).run
        { session := s }).2.resolver.locals.get? key = some n →
      (((p.context fileId file).recordAll document).run
        { session := s }).2.resolver.locals.get? key' = some n → key = key' := by
  refine ⟨?_, fun _ _ document s => (FileContext.recordAll_localsDistinct document s).injective⟩
  obtain ⟨r, tags, h, hdated⟩ := visits_dated (p := p) order
  refine ⟨fun key => (tags key).owner, fun key => (tags key).number, h.symbol, h.owner, ?_⟩
  intro key key' spelling spelling' s s' hne hkey hkey' hs hs' howner
  have hknown := Option.isSome_of_eq_some hs
  have hknown' := Option.isSome_of_eq_some hs'
  simp only at howner ⊢
  rw [h.symbol key spelling s hkey hs, h.symbol key' spelling' s' hkey' hs', howner,
    Symbol.extend_metadata_inj, append_toString_eq_iff,
    ← hdated.visit key (Option.isSome_of_eq_some hkey) hknown,
    ← hdated.visit key' (Option.isSome_of_eq_some hkey') hknown']
  refine or_congr_left ⟨fun ⟨heq, hnumber⟩ => ⟨heq, hnumber, fun hvisit => ?_⟩,
    fun ⟨heq, hnumber, _⟩ => ⟨heq, hnumber⟩⟩
  subst heq
  exact h.distinct key key' spelling hkey hkey' hknown hknown' hne hvisit hnumber

/-- Eleven keys `a` and one key `a1` in one file. -/
def elevenKeys : Project where
  program :=
    let names := (Arena.empty.add .identifier 0 1 (.identifier "a")).add .identifier 0 2
      (.identifier "a1")
    let keys := (List.replicate 11 (some 0) ++ [some 1]).foldl (fun (a : Arena) name =>
      a.add .propertyAssignment 0 1 (.expression (.property name none))) names
    ⟨#[{ name := "a.ts"
         text := ['a', '1']
         arena := keys.add .sourceFile 0 2
           (.sourceFile ((List.range' 2 12).map some) "a.ts" .ts false)
         root := some 14 }]⟩
  options := {}
  collaborators := { Collaborators.none with
    package := fun _ => pure (some (.package "pkg" "1.0.0")) }

/-- Two keys `x` in one file. A tag in another file sets the first of them. -/
def keyAcrossFiles : Project where
  program := ⟨#[
    { name := "a.ts"
      text := "x".toList
      arena := (((Arena.empty.add .identifier 0 1 (.identifier "x")).add .propertyAssignment 0 1
        (.expression (.property (some 0) none))).add .propertyAssignment 0 1
        (.expression (.property (some 0) none))).add .sourceFile 0 1
        (.sourceFile [some 1, some 2] "a.ts" .ts false)
      root := some 3 },
    { name := "b.tsx"
      text := "x".toList
      arena := (((((Arena.empty.add .identifier 0 1 (.identifier "x")).add .arrowFunction 0 1
        .bare).add .jsxAttribute 0 1 (.jsx (.property (some 0) (some 1)))).add .jsxAttributes 0 1
        (.expression (.elements [some 2]))).add .jsxSelfClosingElement 0 1
        (.jsx (.opening none none (some 3)))).add .sourceFile 0 1
        (.sourceFile [some 4] "b.tsx" .tsx false)
      root := some 5 }]⟩
  options := {}
  collaborators := { Collaborators.none with
    propsType := fun _ => .ok (some 0)
    properties := fun _ _ => .ok [⟨0, some 1⟩]
    package := fun _ => pure (some (.package "pkg" "1.0.0")) }

/-- Different keys of one file share a symbol in both ways. -/
theorem different_keys_share_symbol :
    (elevenKeys.visits [0]).symbols.get? ⟨0, some 12⟩ =
        some (.global "lsif-ts npm pkg 1.0.0 a11:") ∧
      (elevenKeys.visits [0]).symbols.get? ⟨0, some 13⟩ =
        some (.global "lsif-ts npm pkg 1.0.0 a11:") ∧
      (keyAcrossFiles.visits [1, 0]).symbols.get? ⟨0, some 1⟩ =
        some (.global "lsif-ts npm pkg 1.0.0 x1:") ∧
      (keyAcrossFiles.visits [1, 0]).symbols.get? ⟨0, some 2⟩ =
        some (.global "lsif-ts npm pkg 1.0.0 x1:") := by
  decide +kernel

end Project

end SourceIndex
