import Mathlib.Data.List.Induction
import SourceIndex.Collaborators
import Std.Data.TreeMap.Lemmas

/-! Packages as they are found in a run. The answer to a question may draw on a cache, and there is
nothing in the cache but what earlier questions have left there. -/

namespace SourceIndex

namespace Collaborators

/-- What is remembered after the packages of these files were asked for. -/
def cacheAfter (c : Collaborators) (files : List String) : Package.Cache :=
  files.foldl (fun cache file => ((c.package file).run cache).2) {}

def Remembers (c : Collaborators) (cache : Package.Cache) : Prop :=
  ∃ files, cache = c.cacheAfter files

/-- A package is a global symbol, if it is known at all. -/
def GlobalPackages (c : Collaborators) : Prop :=
  ∀ files file s, ((c.package file).run (c.cacheAfter files)).1 = some s → ∃ text, s = .global text

/-- Both find the same package for every file, whatever was asked before. -/
def SamePackages (c c' : Collaborators) : Prop :=
  ∀ files files' file, ((c.package file).run (c.cacheAfter files)).1 =
    ((c'.package file).run (c'.cacheAfter files')).1

variable {c c' : Collaborators} {cache cache' : Package.Cache}

theorem remembers_empty (c : Collaborators) : c.Remembers {} := ⟨[], rfl⟩

theorem cacheAfter_snoc (c : Collaborators) (files : List String) (file : String) :
    c.cacheAfter (files ++ [file]) = ((c.package file).run (c.cacheAfter files)).2 :=
  List.foldl_append ..

theorem Remembers.package (h : c.Remembers cache) (file : String) :
    c.Remembers ((c.package file).run cache).2 := by
  obtain ⟨files, rfl⟩ := h
  exact ⟨files ++ [file], (c.cacheAfter_snoc files file).symm⟩

theorem GlobalPackages.of_remembers (hp : c.GlobalPackages) (h : c.Remembers cache) {file : String}
    {s : Symbol} (hs : ((c.package file).run cache).1 = some s) : ∃ text, s = .global text := by
  obtain ⟨files, rfl⟩ := h
  exact hp files file s hs

namespace SamePackages

theorem symm (h : c.SamePackages c') : c'.SamePackages c :=
  fun files files' file => (h files' files file).symm

theorem refl_left (h : c.SamePackages c') : c.SamePackages c :=
  fun files files' file => (h files [] file).trans (h files' [] file).symm

theorem of_remembers (hp : c.SamePackages c') (h : c.Remembers cache) (h' : c'.Remembers cache')
    (file : String) : ((c.package file).run cache).1 = ((c'.package file).run cache').1 := by
  obtain ⟨files, rfl⟩ := h
  obtain ⟨files', rfl⟩ := h'
  exact hp files files' file

end SamePackages

end Collaborators

namespace Package

variable {files : FileSystem} {root : String} {cache : Cache}

def Cache.IsGlobal (cache : Cache) : Prop :=
  ∀ key s, cache.get? key = some (some s) → ∃ text, s = .global text

theorem manifestIn?_global {dir : Spelling} {s : Symbol} (h : manifestIn? files dir = some s) :
    ∃ text, s = .global text := by
  obtain ⟨text, -, hs⟩ := Option.bind_eq_some_iff.mp h
  simp only [ofManifest?, Option.bind_eq_bind, Option.bind_eq_some_iff, Option.some.injEq] at hs
  obtain ⟨-, -, -, -, name, -, version, -, rfl⟩ := hs
  exact ⟨_, rfl⟩

theorem search_global (h : cache.IsGlobal) {dirs : List Spelling} {s : Symbol}
    (hs : (search files cache dirs).1 = some s) : ∃ text, s = .global text := by
  induction dirs with
  | nil => cases hs
  | cons dir rest ih =>
    rw [search] at hs
    split at hs
    · next known hknown => exact h dir.key s (hknown.trans (congrArg some hs))
    · split at hs
      · next package hpackage =>
        obtain rfl : package = s := Option.some.inj hs
        exact manifestIn?_global hpackage
      · exact ih hs

theorem Cache.IsGlobal.foldl_insert (h : cache.IsGlobal) {found : Option Symbol}
    (hfound : ∀ s, found = some s → ∃ text, s = .global text) (keys : List String) :
    Cache.IsGlobal (keys.foldl (fun cache key => cache.insert key found) cache) := by
  induction keys generalizing cache with
  | nil => exact h
  | cons key keys ih =>
    refine ih fun key' s hs => ?_
    rw [Std.TreeMap.get?_eq_getElem?, Std.TreeMap.getElem?_insert] at hs
    split at hs
    · exact hfound s (Option.some.inj hs)
    · exact h key' s hs

theorem resolve_isGlobal (h : cache.IsGlobal) (fileName : String) :
    ((resolve files root fileName).run cache).2.IsGlobal :=
  h.foldl_insert (fun _ => search_global h) _

theorem cacheAfter_isGlobal {c : Collaborators} (h : c.package = resolve files root)
    (names : List String) : (c.cacheAfter names).IsGlobal := by
  induction names using List.reverseRec with
  | nil => exact fun key s hs => by simp [Collaborators.cacheAfter] at hs
  | append_singleton names name ih =>
    rw [Collaborators.cacheAfter_snoc, h]
    exact resolve_isGlobal ih name

/-- The packages that manifests describe are global. -/
theorem globalPackages_of_resolve {c : Collaborators} (h : c.package = resolve files root) :
    c.GlobalPackages := by
  intro names name s hs
  have hcache := cacheAfter_isGlobal h names
  rw [h] at hs
  exact search_global hcache hs

end Package

end SourceIndex
