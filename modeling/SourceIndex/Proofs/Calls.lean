import SourceIndex.Proofs.Settled

/-! Several resolvers that share one table are asked for symbols, in any order. As long as no chain
of owners is too long for the resolver that is asked, the answers are those of the rules alone,
except for what is put into the gaps when a key is first resolved. -/

namespace SourceIndex

open Memory World

/-- Resolvers with one table. Each has its own local symbols and its own counts of keys. -/
structure Resolvers where
  table : SymbolTable := {}
  resolver : Nat → Resolver := fun _ => {}
  packages : Package.Cache := {}
  journal : Journal := #[]

namespace Resolvers

def memory (rs : Resolvers) (i : Nat) : Memory :=
  ⟨rs.table, rs.resolver i, rs.packages, rs.journal⟩

def store (rs : Resolvers) (i : Nat) (m : Memory) : Resolvers :=
  ⟨m.table, Function.update rs.resolver i m.resolver, m.packages, m.journal⟩

theorem memory_store (rs : Resolvers) (i : Nat) (m : Memory) : (rs.store i m).memory i = m := by
  simp [memory, store]

end Resolvers

structure Call where
  resolver : Nat
  key : NodeKey
  deriving DecidableEq

namespace World

variable (w : World) (depth : Nat → Nat)

def call (rs : Resolvers) (c : Call) : Symbol × Resolvers :=
  let (s, m) := (w.resolve (depth c.resolver) c.key).run (rs.memory c.resolver)
  (s, rs.store c.resolver m)

def after (rs : Resolvers) (calls : List Call) : Resolvers :=
  calls.foldl (fun rs c => (w.call depth rs c).2) rs

def transcript : Resolvers → List Call → List (Call × Symbol)
  | _, [] => []
  | rs, c :: cs => (c, (w.call depth rs c).1) :: transcript (w.call depth rs c).2 cs

/-- No chain of owners is too long for the resolver that is asked. -/
def WithinDepth : Resolvers → List Call → Prop
  | _, [] => True
  | rs, c :: cs =>
    (∃ s m, Resolves w False (depth c.resolver + 1) c.key (rs.memory c.resolver) s m) ∧
      WithinDepth (w.call depth rs c).2 cs

end World

variable {w : World} {package : String → Option Symbol} {depth : Nat → Nat}
  {labels labels' : NodeKey → Label} {rs : Resolvers} {c : Call} {s : Symbol} {m : Memory}

theorem call_eq
    (h : Resolves w False (depth c.resolver + 1) c.key (rs.memory c.resolver) s m) :
    w.call depth rs c = (s, rs.store c.resolver m) := by
  simp only [call, resolve, h.run]

theorem after_append (rs : Resolvers) (before calls : List Call) :
    w.after depth rs (before ++ calls) = w.after depth (w.after depth rs before) calls :=
  List.foldl_append

theorem withinDepth_append {before calls : List Call}
    (h : w.WithinDepth depth rs (before ++ calls)) :
    w.WithinDepth depth rs before ∧ w.WithinDepth depth (w.after depth rs before) calls := by
  induction before generalizing rs with
  | nil => exact ⟨trivial, h⟩
  | cons c before ih =>
    obtain ⟨hc, hrest⟩ := h
    exact ⟨⟨hc, (ih hrest).1⟩, (ih hrest).2⟩

structure Resolvers.Sound (w : World) (package : String → Option Symbol)
    (labels : NodeKey → Label) (rs : Resolvers) : Prop where
  table : rs.table.Sound w package labels
  resolver : ∀ i, (rs.resolver i).Sound w package

/-- The answers so far are still those that would be given. -/
def Resolvers.Answers (w : World) (package : String → Option Symbol) (labels : NodeKey → Label)
    (rs : Resolvers) (log : List (Call × Symbol)) : Prop :=
  ∀ c s, (c, s) ∈ log → (rs.memory c.resolver).Answers w package labels c.key s

namespace Resolvers

theorem sound_empty : Sound w package labels {} :=
  ⟨fun key s h => by simp [Table.get?] at h, fun i key n h => by simp [Table.get?] at h⟩

theorem Sound.memory (h : rs.Sound w package labels) (i : Nat) :
    (rs.memory i).Sound w package labels :=
  ⟨h.table, h.resolver i⟩

theorem Sound.store {i : Nat} (h : rs.Sound w package labels) (hm : m.Sound w package labels') :
    (rs.store i m).Sound w package labels' where
  table := hm.table
  resolver j := by
    by_cases hj : j = i
    · subst hj
      simpa [Resolvers.store] using hm.resolver
    · simpa [Resolvers.store, hj] using h.resolver j

theorem Answers.store {log : List (Call × Symbol)} {i : Nat} {key : NodeKey}
    (h : rs.Answers w package labels log)
    (hm : Extends w package labels key labels' (rs.memory i) m) :
    (rs.store i m).Answers w package labels' log := by
  intro c s hc
  by_cases hi : c.resolver = i
  · rw [hi, memory_store]
    exact Memory.Answers.extend (hi ▸ h c s hc) hm
  · obtain ⟨μ, hmeans, hkeys, hfits⟩ := h c s hc
    refine ⟨μ, hmeans, fun k hk => hm.isSome_table (hkeys k hk), ?_⟩
    refine hfits.mono (fun k hk => hm.labels k (hkeys k hk)) fun k n hn => ?_
    simpa [Resolvers.memory, Resolvers.store, hi] using hn

theorem Sound.call {log : List (Call × Symbol)} (hp : w.FixedPackages package)
    (hrs : rs.Sound w package labels) (hlog : rs.Answers w package labels log)
    (h : Resolves w False (depth c.resolver + 1) c.key (rs.memory c.resolver) s m) :
    ∃ labels', (w.call depth rs c).2.Sound w package labels' ∧
      (w.call depth rs c).2.Answers w package labels' (log ++ [(c, (w.call depth rs c).1)]) := by
  obtain ⟨labels', hfinds⟩ := h.finds hp (hrs.memory c.resolver)
  rw [call_eq h]
  refine ⟨labels', hrs.store hfinds.sound, fun c' s' hc' => ?_⟩
  rcases List.mem_append.mp hc' with hc' | hc'
  · exact hlog.store hfinds.grows c' s' hc'
  · obtain ⟨rfl, rfl⟩ := Prod.mk.inj (List.mem_singleton.mp hc')
    rw [memory_store]
    exact hfinds.answers

theorem Sound.run {log : List (Call × Symbol)} (hp : w.FixedPackages package)
    (hrs : rs.Sound w package labels) (hlog : rs.Answers w package labels log) {calls : List Call}
    (h : w.WithinDepth depth rs calls) :
    ∃ labels', (w.after depth rs calls).Sound w package labels' ∧
      (w.after depth rs calls).Answers w package labels' (log ++ w.transcript depth rs calls) := by
  induction calls generalizing rs labels log with
  | nil => exact ⟨labels, hrs, by simpa [transcript, after] using hlog⟩
  | cons c calls ih =>
    obtain ⟨⟨s, m, hc⟩, hrest⟩ := h
    obtain ⟨labels₁, hrs₁, hlog₁⟩ := hrs.call hp hlog hc
    obtain ⟨labels', hrs', hlog'⟩ := ih hrs₁ hlog₁ hrest
    exact ⟨labels', hrs', by simpa [transcript, after] using hlog'⟩

theorem Sound.call_again (hp : w.FixedPackages package) (hrs : rs.Sound w package labels)
    (h : w.WithinDepth depth rs [c, c]) :
    (w.after depth rs [c, c]).table = (w.after depth rs [c]).table ∧
      (w.after depth rs [c, c]).resolver = (w.after depth rs [c]).resolver := by
  obtain ⟨⟨s, m, hc⟩, ⟨s', m', hc'⟩, -⟩ := h
  have hm := hrs.memory c.resolver
  obtain ⟨labels', hfinds⟩ := hc.finds hp hm
  have hrun := call_eq hc
  rw [hrun, memory_store] at hc'
  have hagain : w.call depth (rs.store c.resolver m) c =
      (s', (rs.store c.resolver m).store c.resolver m') :=
    call_eq (by rwa [memory_store])
  have hsame : Unchanged m m' :=
    hc'.unchanged hp hfinds.sound ⟨rfl, rfl⟩ (hc.settled hp hm)
  simp only [after, List.foldl_cons, List.foldl_nil, hrun, hagain]
  refine ⟨hsame.table, ?_⟩
  simp [Resolvers.store, hsame.resolver]

end Resolvers

theorem Meaning.Fits.of_numbers {locals : Table NodeKey Nat} {μ : Meaning}
    (h : μ.Fits labels locals s) (hroot : μ.showsLocalRoot = false)
    (hnumbers : ∀ key, (labels' key).number = (labels key).number) : μ.Fits labels' locals s := by
  cases μ with
  | global pieces =>
    have hfill : Piece.fillAll labels' pieces = Piece.fillAll labels pieces := by
      refine Piece.fillAll_congr fun p hp => ?_
      cases p with
      | text t => rfl
      | numbered key spelling => simp only [Piece.fill, hnumbers]
      | localRoot key =>
        have := List.any_eq_false.mp hroot _ hp
        simp [Piece.isLocalRoot] at this
    exact Eq.trans h (congrArg Symbol.global hfill.symm)
  | empty => exact h
  | given n => exact h
  | fileLocal home => exact h

/-- Every answer is what the node means by the rules alone, with the labels of keys in the gaps of
its text; these are the same for all answers. Unless the root of a file with keys means a local
symbol, the numbers of keys are all that the answers depend on. Whoever asks a resolver twice gets
the same symbol, and asking twice in a row changes no table and no counter. -/
theorem calls_memo_free (hp : w.FixedPackages package) {calls : List Call}
    (h : w.WithinDepth depth {} calls) :
    (∃ labels : NodeKey → Label,
      (∀ c s, (c, s) ∈ w.transcript depth {} calls → ∃ μ, w.Means package c.key μ ∧
        μ.Fits labels ((w.after depth {} calls).resolver c.resolver).locals s) ∧
      (w.NoLocalRoots package → ∀ labels' : NodeKey → Label,
        (∀ key, (labels' key).number = (labels key).number) →
        ∀ c s, (c, s) ∈ w.transcript depth {} calls → ∃ μ, w.Means package c.key μ ∧
          μ.Fits labels' ((w.after depth {} calls).resolver c.resolver).locals s)) ∧
    (∀ c s s', (c, s) ∈ w.transcript depth {} calls → (c, s') ∈ w.transcript depth {} calls →
      s = s') ∧
    ∀ before c rest, calls = before ++ c :: c :: rest →
      (w.after depth {} (before ++ [c, c])).table = (w.after depth {} (before ++ [c])).table ∧
        (w.after depth {} (before ++ [c, c])).resolver =
          (w.after depth {} (before ++ [c])).resolver := by
  have hstart : Resolvers.Answers w package (fun _ => ⟨0, 0⟩) {} [] := by simp [Resolvers.Answers]
  obtain ⟨labels, -, hanswers⟩ := Resolvers.sound_empty.run hp hstart h
  rw [List.nil_append] at hanswers
  refine ⟨⟨labels, fun c s hc => ?_, fun hroots labels' hnumbers c s hc => ?_⟩, ?_, ?_⟩
  · obtain ⟨μ, hmeans, -, hfits⟩ := hanswers c s hc
    exact ⟨μ, hmeans, hfits⟩
  · obtain ⟨μ, hmeans, -, hfits⟩ := hanswers c s hc
    exact ⟨μ, hmeans, hfits.of_numbers (hmeans.showsLocalRoot hroots) hnumbers⟩
  · intro c s s' hc hc'
    obtain ⟨μ, hmeans, -, hfits⟩ := hanswers c s hc
    obtain ⟨μ', hmeans', -, hfits'⟩ := hanswers c s' hc'
    obtain rfl := hmeans.unique hmeans'
    exact hfits.unique hfits'
  · rintro before c rest rfl
    obtain ⟨hbefore, htail⟩ := withinDepth_append h
    obtain ⟨labels₁, hsound, -⟩ := Resolvers.sound_empty.run hp hstart hbefore
    rw [after_append, after_append]
    have hagain : w.WithinDepth depth (w.after depth {} before) ([c, c] ++ rest) := htail
    exact hsound.call_again hp (withinDepth_append hagain).1

/-- A file with one key, under a root of the given kind and with another node that has no owner. -/
def oneKey (root : Kind) : World where
  program := ⟨#[
    { name := "a.ts"
      text := ['x']
      arena := (((Arena.empty.add .identifier 0 1 (.identifier "x")).add .propertyAssignment 0 1
        (.expression (.property (some 0) none))).add .identifier 0 1 (.identifier "x")).add
        root 0 1 .bare
      root := some 3 }]⟩
  collaborators := .none

def askKey (resolver : Nat) : Call := ⟨resolver, ⟨0, some 1⟩⟩

def askOther : Call := ⟨0, ⟨0, some 2⟩⟩

theorem oneKey_memo_free :
    (oneKey .sourceFile).NoLocalRoots (fun _ => none) ∧
      ∃ labels : NodeKey → Label, ∀ c s,
        (c, s) ∈ (oneKey .sourceFile).transcript (fun _ => 1) {} [askOther, askKey 0, askKey 1] →
        ∃ μ, (oneKey .sourceFile).Means (fun _ => none) c.key μ ∧
          μ.Fits labels (((oneKey .sourceFile).after (fun _ => 1) {}
            [askOther, askKey 0, askKey 1]).resolver c.resolver).locals s := by
  have hroots : (oneKey .sourceFile).NoLocalRoots (fun _ => none) := by
    refine noLocalRoots_of_sourceFile fun id f hf => ?_
    match id with
    | 0 =>
      obtain rfl := Option.some.inj hf
      rfl
    | id + 1 => simp [oneKey, Program.file?] at hf
  have hdepth : (oneKey .sourceFile).WithinDepth (fun _ => 1) {} [askOther, askKey 0, askKey 1] :=
    ⟨⟨_, _, .orphan ⟨rfl, rfl, rfl, rfl⟩ rfl⟩,
      ⟨_, _, .counted rfl rfl rfl rfl (.file rfl rfl rfl rfl)⟩, ⟨_, _, .known rfl⟩, trivial⟩
  have hp : (oneKey .sourceFile).FixedPackages fun _ => none := fun _ _ => rfl
  obtain ⟨⟨labels, hanswers, -⟩, -⟩ := calls_memo_free hp hdepth
  exact ⟨hroots, labels, hanswers⟩

/-- Under a root that is local, the text of a key shows how many local symbols were made before. -/
theorem oneKey_local_root :
    (oneKey .identifier).WithinDepth (fun _ => 1) {} [askKey 0] ∧
      (oneKey .identifier).WithinDepth (fun _ => 1) {} [askOther, askKey 0] ∧
      (oneKey .identifier).transcript (fun _ => 1) {} [askKey 0] =
        [(askKey 0, .global "local 1x1:")] ∧
      (oneKey .identifier).transcript (fun _ => 1) {} [askOther, askKey 0] =
        [(askOther, .fileLocal 1), (askKey 0, .global "local 2x1:")] := by
  refine ⟨⟨⟨_, _, .counted rfl rfl rfl rfl (.orphan ⟨rfl, rfl, rfl, rfl⟩ rfl)⟩, trivial⟩,
    ⟨⟨_, _, .orphan ⟨rfl, rfl, rfl, rfl⟩ rfl⟩,
      ⟨_, _, .counted rfl rfl rfl rfl (.orphan ⟨rfl, rfl, rfl, rfl⟩ rfl)⟩, trivial⟩, ?_, ?_⟩
  · decide +kernel
  · decide +kernel

end SourceIndex
