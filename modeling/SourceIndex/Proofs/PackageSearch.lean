import Mathlib.Data.List.Basic
import Mathlib.Data.Set.Basic
import SourceIndex.Package
import Std.Data.TreeMap.Lemmas

/-! The search for a package remembers what it found for every directory on its way. Paths are told
apart by their components, so what is remembered for a directory is what a search from there would
find, and no answer depends on what was asked before. -/

namespace SourceIndex

/-- The name of a component. -/
def IsName (s : String) : Prop := s ≠ "" ∧ '/' ∉ s.toList

theorem IsName.ne_slash {s : String} (h : IsName s) : s ≠ "/" := by
  rintro rfl
  exact h.2 (by decide)

namespace Path

theorem segments_cons_slash (t : Text) : segments ('/' :: t) = [] :: segments t := rfl

theorem slash_not_mem_segments (t : Text) : ∀ p ∈ segments t, '/' ∉ p := by
  induction t with
  | nil => simp [segments]
  | cons c t ih =>
    intro p hp
    change p ∈ prepend c (segments t) at hp
    by_cases hc : c = '/'
    · simp only [prepend, if_pos hc] at hp
      rcases List.mem_cons.mp hp with rfl | hp
      · simp
      · exact ih p hp
    · simp only [prepend, if_neg hc] at hp
      cases hs : segments t with
      | nil =>
        rw [hs] at hp
        rw [List.mem_singleton.mp hp, List.mem_singleton]
        exact fun h => hc h.symm
      | cons s ss =>
        rw [hs] at hp ih
        rcases List.mem_cons.mp hp with rfl | hp
        · rw [List.mem_cons, not_or]
          exact ⟨fun h => hc h.symm, ih s List.mem_cons_self⟩
        · exact ih p (List.mem_cons_of_mem _ hp)

theorem segments_append {p : Text} (hp : '/' ∉ p) (t : Text) :
    segments (p ++ '/' :: t) = p :: segments t := by
  induction p with
  | nil => rfl
  | cons c p ih =>
    rw [List.mem_cons, not_or] at hp
    have hc : c ≠ '/' := fun h => hp.1 h.symm
    change prepend c (segments (p ++ '/' :: t)) = _
    rw [ih hp.2, prepend, if_neg hc]

theorem segments_of_not_mem {p : Text} (hp : '/' ∉ p) : segments p = [p] := by
  induction p with
  | nil => rfl
  | cons c p ih =>
    rw [List.mem_cons, not_or] at hp
    have hc : c ≠ '/' := fun h => hp.1 h.symm
    change prepend c (segments p) = _
    rw [ih hp.2, prepend, if_neg hc]

/-- Names that each follow a slash are found again between the slashes. -/
theorem segments_flatMap {ps : List Text} (h : ∀ p ∈ ps, '/' ∉ p) :
    segments (ps.flatMap ('/' :: ·)) = [] :: ps := by
  induction ps with
  | nil => rfl
  | cons p ps ih =>
    have hp := h p List.mem_cons_self
    have hps : ∀ p ∈ ps, '/' ∉ p := fun p' hp' => h p' (List.mem_cons_of_mem _ hp')
    rw [List.flatMap_cons, List.cons_append, segments_cons_slash]
    cases ps with
    | nil => rw [List.flatMap_nil, List.append_nil, segments_of_not_mem hp]
    | cons p' ps =>
      have hrest := ih hps
      rw [List.flatMap_cons, List.cons_append] at hrest ⊢
      rw [segments_cons_slash] at hrest
      rw [segments_append hp, (List.cons.inj hrest).2]

theorem mem_of_mem_withEnds {n : Nat} {ss : List Text} {x : Text × Nat}
    (h : x ∈ withEnds n ss) : x.1 ∈ ss := by
  induction ss generalizing n with
  | nil => simp [withEnds] at h
  | cons s ss ih =>
    rcases List.mem_cons.mp h with rfl | h
    · exact List.mem_cons_self
    · exact List.mem_cons_of_mem _ (ih h)

theorem isName_of_mem_spelledParts {s : String} {x : String × Nat} (h : x ∈ spelledParts s) :
    IsName x.1 := by
  obtain ⟨⟨p, stop⟩, hmem, rfl⟩ := List.mem_map.mp h
  obtain ⟨hmem, hp⟩ := List.mem_filter.mp hmem
  simp only [Bool.and_eq_true, decide_eq_true_eq] at hp
  refine ⟨fun hempty => hp.1 ?_, ?_⟩
  · have hlist := congrArg String.toList hempty
    simpa using hlist
  · have hslash := slash_not_mem_segments s.toList p (mem_of_mem_withEnds hmem)
    simpa using hslash

/-- A path starts with another one if the components do. The root of all paths is a component of
its own, and no name looks like it. -/
theorem startsWith_iff {p base : Path} (hp : ∀ s ∈ p.parts, IsName s)
    (hbase : ∀ s ∈ base.parts, IsName s) :
    p.startsWith base = true ↔ base.parts <+: p.parts ∧
      (base.isAbsolute = p.isAbsolute ∨ (base.isAbsolute = false ∧ base.parts = [])) := by
  obtain ⟨absolute, parts⟩ := p
  obtain ⟨absolute', parts'⟩ := base
  rw [startsWith, List.isPrefixOf_iff_prefix]
  cases absolute with
  | true =>
    cases absolute' with
    | true => simp [components]
    | false =>
      cases parts' with
      | nil => simp [components]
      | cons s parts' =>
        have hs : s ≠ "/" := (hbase s List.mem_cons_self).ne_slash
        simp [components, hs]
  | false =>
    cases absolute' with
    | true =>
      cases parts with
      | nil => simp [components]
      | cons s parts =>
        have hs : s ≠ "/" := (hp s List.mem_cons_self).ne_slash
        simp [components, hs.symm]
    | false => simp [components]

end Path

namespace Spelling

def Proper (s : Spelling) : Prop := ∀ x ∈ s.parts, IsName x.1

theorem ofString_proper (s : String) : (ofString s).Proper :=
  fun _ hx => Path.isName_of_mem_spelledParts (List.mem_reverse.mp hx)

theorem Proper.isName {s : Spelling} (h : s.Proper) : ∀ name ∈ s.path.parts, IsName name := by
  intro name hname
  obtain ⟨x, hx, rfl⟩ := List.mem_map.mp (List.mem_reverse.mp hname)
  exact h x hx

theorem enclosing_proper {isAbsolute : Bool} {parts : List (String × Nat)}
    (h : ∀ x ∈ parts, IsName x.1) : ∀ dir ∈ enclosing isAbsolute parts, dir.Proper := by
  induction parts with
  | nil => simp [enclosing]
  | cons x outer ih =>
    have houter : ∀ y ∈ outer, IsName y.1 := fun y hy => h y (List.mem_cons_of_mem _ hy)
    intro dir hdir
    rcases List.mem_cons.mp hdir with rfl | hdir
    · exact houter
    · exact ih houter dir hdir

/-- The text of a key is its names, each after a slash; an absolute path has an empty name in front
of all others. -/
theorem toList_key (s : Spelling) :
    s.key.toList = ((if s.isAbsolute then [[]] else []) ++
      s.path.parts.map String.toList).flatMap ('/' :: ·) := by
  obtain ⟨isAbsolute, parts⟩ := s
  induction parts with
  | nil => cases isAbsolute <;> rfl
  | cons x outer ih =>
    have hkey : key ⟨isAbsolute, x :: outer⟩ = key ⟨isAbsolute, outer⟩ ++ "/" ++ x.1 := rfl
    rw [hkey, String.toList_append, String.toList_append, ih]
    simp [path]

theorem key_injective {s s' : Spelling} (h : s.Proper) (h' : s'.Proper) (hkey : s.key = s'.key) :
    s.path = s'.path := by
  have hnames : ∀ {s : Spelling}, s.Proper →
      ∀ p ∈ (if s.isAbsolute then [[]] else []) ++ s.path.parts.map String.toList, '/' ∉ p := by
    intro s hs p hp
    rcases List.mem_append.mp hp with hp | hp
    · split at hp
      · rw [List.mem_singleton.mp hp]
        exact List.not_mem_nil
      · cases hp
    · obtain ⟨name, hname, rfl⟩ := List.mem_map.mp hp
      exact (hs.isName name hname).2
  have hfirst : ∀ {s : Spelling}, s.Proper →
      ∀ rest : List Text, s.path.parts.map String.toList ≠ [] :: rest := by
    intro s hs rest hparts
    obtain ⟨name, hname, hempty⟩ := List.mem_map.mp
      (hparts ▸ List.mem_cons_self : [] ∈ s.path.parts.map String.toList)
    exact (hs.isName name hname).1 (String.toList_eq_nil_iff.mp hempty)
  have hsegments := congrArg (fun key => Path.segments (String.toList key)) hkey
  simp only [toList_key] at hsegments
  rw [Path.segments_flatMap (hnames h), Path.segments_flatMap (hnames h')] at hsegments
  have hparts := (List.cons.inj hsegments).2
  have hinj : Function.Injective (List.map String.toList) :=
    List.map_injective_iff.mpr fun _ _ => String.toList_injective
  obtain ⟨isAbsolute, parts⟩ := s
  obtain ⟨isAbsolute', parts'⟩ := s'
  cases isAbsolute with
  | true =>
    cases isAbsolute' with
    | true => exact congrArg (Path.mk true) (hinj (List.cons.inj hparts).2)
    | false => exact absurd hparts.symm (hfirst h' _)
  | false =>
    cases isAbsolute' with
    | true => exact absurd hparts (hfirst h _)
    | false => exact congrArg (Path.mk false) (hinj hparts)

end Spelling

namespace Package

/-- The directories above, nearest first, as long as their paths start with the given one. -/
def upwards (top : Path) (isAbsolute : Bool) (parts : List (String × Nat)) : List Spelling :=
  (Spelling.enclosing isAbsolute parts).takeWhile fun dir => dir.path.startsWith top

/-- The search that remembers nothing. -/
def findUpwards (files : FileSystem) (root fileName : String) : Option Symbol :=
  let file := Spelling.ofString (Path.joinText root fileName)
  (upwards (Path.ofString root) file.isAbsolute file.parts).findSome? (manifestIn? files)

theorem upwards_cons (top : Path) (isAbsolute : Bool) (x : String × Nat)
    (outer : List (String × Nat)) :
    upwards top isAbsolute (x :: outer) =
      if (Spelling.mk isAbsolute outer).path.startsWith top then
        ⟨isAbsolute, outer⟩ :: upwards top isAbsolute outer
      else [] := by
  rw [upwards, Spelling.enclosing, List.takeWhile_cons]
  rfl

theorem upwards_eq_take {top : Path} (htop : ∀ s ∈ top.parts, IsName s) {isAbsolute : Bool}
    {parts : List (String × Nat)} (hparts : ∀ x ∈ parts, IsName x.1) :
    upwards top isAbsolute parts =
      if (Spelling.mk isAbsolute parts).path.startsWith top then
        (Spelling.enclosing isAbsolute parts).take (parts.length - top.parts.length)
      else [] := by
  induction parts with
  | nil => simp [upwards, Spelling.enclosing]
  | cons x outer ih =>
    have houter : ∀ y ∈ outer, IsName y.1 := fun y hy => hparts y (List.mem_cons_of_mem _ hy)
    have hinner := Path.startsWith_iff
      (Spelling.Proper.isName (s := ⟨isAbsolute, x :: outer⟩) hparts) htop
    have habove := Path.startsWith_iff
      (Spelling.Proper.isName (s := ⟨isAbsolute, outer⟩) houter) htop
    have hpath : (Spelling.mk isAbsolute (x :: outer)).path.parts =
        (Spelling.mk isAbsolute outer).path.parts ++ [x.1] := by
      simp [Spelling.path]
    have hlength : (Spelling.mk isAbsolute outer).path.parts.length = outer.length := by
      simp [Spelling.path]
    rw [upwards_cons, ih houter]
    by_cases h : (Spelling.mk isAbsolute outer).path.startsWith top = true
    · have hbegins := habove.mp h
      have hle := hbegins.1.length_le
      have hstarts : (Spelling.mk isAbsolute (x :: outer)).path.startsWith top = true := by
        refine hinner.mpr ⟨?_, hbegins.2⟩
        rw [hpath]
        exact hbegins.1.trans (List.prefix_append _ _)
      have hsucc : (x :: outer).length - top.parts.length =
          (outer.length - top.parts.length) + 1 := by
        rw [List.length_cons]
        omega
      rw [if_pos h, if_pos h, if_pos hstarts, hsucc, Spelling.enclosing, List.take_succ_cons]
    · rw [if_neg h]
      by_cases hstarts : (Spelling.mk isAbsolute (x :: outer)).path.startsWith top = true
      · obtain ⟨hbegins, hroot⟩ := hinner.mp hstarts
        rw [hpath, List.prefix_concat_iff] at hbegins
        rcases hbegins with hall | hbegins
        · have hzero : (x :: outer).length - top.parts.length = 0 := by
            rw [hall, List.length_append, hlength, List.length_cons, List.length_singleton]
            omega
          rw [if_pos hstarts, hzero, List.take_zero]
        · exact absurd (habove.mpr ⟨hbegins, hroot⟩) h
      · rw [if_neg hstarts]

theorem top_isName (root : String) : ∀ s ∈ (Path.ofString root).parts, IsName s := by
  intro s hs
  obtain ⟨x, hx, rfl⟩ := List.mem_map.mp hs
  exact Path.isName_of_mem_spelledParts hx

theorem candidates_eq (root fileName : String) :
    let file := Spelling.ofString (Path.joinText root fileName)
    candidates root fileName = upwards (Path.ofString root) file.isAbsolute file.parts :=
  (upwards_eq_take (top_isName root) (Spelling.ofString_proper _)).symm

theorem candidates_proper {root fileName : String} :
    ∀ dir ∈ candidates root fileName, dir.Proper := by
  intro dir hdir
  rw [candidates_eq] at hdir
  exact Spelling.enclosing_proper (Spelling.ofString_proper _) dir
    ((List.takeWhile_prefix _).subset hdir)

/-- What a search from a directory finds, there or above it. -/
def answerFrom (files : FileSystem) (top : Path) (dir : Spelling) : Option Symbol :=
  (dir :: upwards top dir.isAbsolute dir.parts).findSome? (manifestIn? files)

section

variable {files : FileSystem} {top : Path} {looked : Spelling → Prop} {cache : Cache}

/-- The directories in which one looks are proper ones, and with each of them one looks in those
above it. A manifest is the same under all spellings of its directory. -/
structure Readable (files : FileSystem) (top : Path) (looked : Spelling → Prop) : Prop where
  proper : ∀ dir, looked dir → dir.Proper
  upwards : ∀ dir, looked dir → ∀ above ∈ upwards top dir.isAbsolute dir.parts, looked above
  manifest : ∀ dir dir', looked dir → looked dir' → dir.path = dir'.path →
    manifestIn? files dir = manifestIn? files dir'

/-- What is remembered is what the search finds. -/
def Cache.Tells (files : FileSystem) (top : Path) (looked : Spelling → Prop) (cache : Cache) :
    Prop :=
  ∀ dir found, looked dir → cache.get? dir.key = some found → found = answerFrom files top dir

theorem answerFrom_congr (h : Readable files top looked) {dir dir' : Spelling} (hdir : looked dir)
    (hdir' : looked dir') (hpath : dir.path = dir'.path) :
    answerFrom files top dir = answerFrom files top dir' := by
  obtain ⟨isAbsolute, parts⟩ := dir
  obtain ⟨isAbsolute', parts'⟩ := dir'
  obtain rfl : isAbsolute = isAbsolute' := congrArg Path.isAbsolute hpath
  induction parts generalizing parts' with
  | nil =>
    cases parts' with
    | nil => rfl
    | cons x' outer' => simp [Spelling.path] at hpath
  | cons x outer ih =>
    cases parts' with
    | nil => simp [Spelling.path] at hpath
    | cons x' outer' =>
      have hmanifest := h.manifest _ _ hdir hdir' hpath
      have houter : (Spelling.mk isAbsolute outer).path = (Spelling.mk isAbsolute outer').path := by
        simp only [Spelling.path, List.map_cons, List.reverse_cons, Path.mk.injEq,
          true_and] at hpath ⊢
        exact (List.append_inj' hpath rfl).1
      have habove := h.upwards _ hdir
      have habove' := h.upwards _ hdir'
      simp only [answerFrom, upwards_cons, houter] at habove habove' ⊢
      rw [List.findSome?_cons, List.findSome?_cons, hmanifest]
      cases hstarts : (Spelling.mk isAbsolute outer').path.startsWith top with
      | false => rfl
      | true =>
        simp only [hstarts, if_true] at habove habove' ⊢
        have hrest := ih (habove _ List.mem_cons_self) outer' (habove' _ List.mem_cons_self) houter
        rw [answerFrom, answerFrom] at hrest
        rw [hrest]

/-- A search that draws on a cache which tells the truth finds the truth, and so it does for every
directory that it passes. -/
theorem search_upwards (htells : cache.Tells files top looked) {isAbsolute : Bool}
    {parts : List (String × Nat)} (hlooked : ∀ dir ∈ upwards top isAbsolute parts, looked dir) :
    (search files cache (upwards top isAbsolute parts)).1 =
        (upwards top isAbsolute parts).findSome? (manifestIn? files) ∧
      ∀ key ∈ (search files cache (upwards top isAbsolute parts)).2, ∃ dir, looked dir ∧
        dir.key = key ∧
        (search files cache (upwards top isAbsolute parts)).1 = answerFrom files top dir := by
  induction parts with
  | nil => exact ⟨rfl, by simp [upwards, Spelling.enclosing, search]⟩
  | cons x outer ih =>
    rw [upwards_cons] at hlooked ⊢
    cases hstarts : (Spelling.mk isAbsolute outer).path.startsWith top with
    | false => exact ⟨rfl, by simp [search]⟩
    | true =>
      simp only [hstarts, if_true] at hlooked ⊢
      have hdir := hlooked _ List.mem_cons_self
      obtain ⟨hrest, hpassed⟩ := ih fun dir hmem => hlooked dir (List.mem_cons_of_mem _ hmem)
      rw [search]
      cases hknown : cache.get? (Spelling.mk isAbsolute outer).key with
      | some known =>
        simp only
        exact ⟨htells _ _ hdir hknown, by simp⟩
      | none =>
        cases hmanifest : manifestIn? files ⟨isAbsolute, outer⟩ with
        | some package =>
          have hanswer : answerFrom files top ⟨isAbsolute, outer⟩ = some package := by
            rw [answerFrom, List.findSome?_cons, hmanifest]
          refine ⟨hanswer.symm, fun key hkey => ⟨_, hdir, ?_, hanswer.symm⟩⟩
          exact (List.mem_singleton.mp hkey).symm
        | none =>
          have hanswer : answerFrom files top ⟨isAbsolute, outer⟩ =
              (search files cache (upwards top isAbsolute outer)).1 := by
            rw [answerFrom, List.findSome?_cons, hmanifest]
            exact hrest.symm
          refine ⟨hanswer.symm, fun key hkey => ?_⟩
          rcases List.mem_cons.mp hkey with rfl | hkey
          · exact ⟨_, hdir, rfl, hanswer.symm⟩
          · exact hpassed key hkey

theorem get?_foldl_insert {found : Option Symbol} {keys : List String} {key : String}
    {value : Option Symbol}
    (h : (keys.foldl (fun cache key => cache.insert key found) cache).get? key = some value) :
    (key ∈ keys ∧ value = found) ∨ cache.get? key = some value := by
  induction keys generalizing cache with
  | nil => exact .inr h
  | cons key' keys ih =>
    rcases ih h with ⟨hmem, hvalue⟩ | hold
    · exact .inl ⟨List.mem_cons_of_mem _ hmem, hvalue⟩
    · rw [Std.TreeMap.get?_eq_getElem?, Std.TreeMap.getElem?_insert] at hold
      split at hold
      · next heq =>
        obtain rfl : key' = key := Std.compare_eq_iff_eq.mp heq
        exact .inl ⟨List.mem_cons_self, (Option.some.inj hold).symm⟩
      · exact .inr hold

/-- A search leaves a cache behind that still tells the truth. -/
theorem Cache.Tells.remember (hread : Readable files top looked)
    (htells : cache.Tells files top looked) {isAbsolute : Bool} {parts : List (String × Nat)}
    (hlooked : ∀ dir ∈ upwards top isAbsolute parts, looked dir) {found : Option Symbol}
    {visited : List String}
    (hsearch : search files cache (upwards top isAbsolute parts) = (found, visited)) :
    Cache.Tells files top looked
      (visited.foldl (fun cache key => cache.insert key found) cache) := by
  have hpassed := (search_upwards htells hlooked).2
  rw [hsearch] at hpassed
  intro dir value hdir hvalue
  rcases get?_foldl_insert hvalue with ⟨hmem, rfl⟩ | hold
  · obtain ⟨dir', hdir', hkey, hanswer⟩ := hpassed _ hmem
    have hpath := Spelling.key_injective (hread.proper _ hdir') (hread.proper _ hdir) hkey
    exact hanswer.trans (answerFrom_congr hread hdir' hdir hpath)
  · exact htells dir value hdir hold

end

section

variable {files : FileSystem} {root : String} {names : Set String} {cache : Cache}

/-- The directories in which the manifests of these files are looked for. -/
def Looked (root : String) (names : Set String) (dir : Spelling) : Prop :=
  ∃ name ∈ names, dir ∈ candidates root name

/-- What is read in a directory does not depend on how the directory is spelled. -/
def ReadsByPath (files : FileSystem) (root : String) (names : Set String) : Prop :=
  ∀ dir dir', Looked root names dir → Looked root names dir' → dir.path = dir'.path →
    manifestIn? files dir = manifestIn? files dir'

theorem path_child (dir : Spelling) (name : String) :
    (dir.child name).path = ⟨dir.path.isAbsolute, dir.path.parts ++ [name]⟩ := by
  simp [Spelling.child, Spelling.path]

theorem read?_congr {s s' : Spelling} (hsize : s.size ≤ FileTree.maxPath)
    (hsize' : s'.size ≤ FileTree.maxPath) (hpath : s.path = s'.path) :
    files.read? s = files.read? s' := by
  simp only [FileSystem.read?, hpath, hsize, hsize']

/-- Only the length of its text tells two spellings of a path apart. -/
theorem readsByPath_of_size_le (h : ∀ dir, Looked root names dir →
    (dir.child "package.json").size ≤ FileTree.maxPath) : ReadsByPath files root names := by
  intro dir dir' hdir hdir' hpath
  have hchild : (dir.child "package.json").path = (dir'.child "package.json").path := by
    rw [path_child, path_child, hpath]
  rw [manifestIn?, manifestIn?, read?_congr (h dir hdir) (h dir' hdir') hchild]

/-- The directories above one in which a search looks are looked at too. -/
theorem mem_upwards_trans {top : Path} {isAbsolute : Bool} {parts : List (String × Nat)}
    {dir above : Spelling} (hdir : dir ∈ upwards top isAbsolute parts)
    (habove : above ∈ upwards top dir.isAbsolute dir.parts) :
    above ∈ upwards top isAbsolute parts := by
  induction parts with
  | nil => simp [upwards, Spelling.enclosing] at hdir
  | cons x outer ih =>
    rw [upwards_cons] at hdir ⊢
    split at hdir
    · next hstarts =>
      rw [if_pos hstarts]
      rcases List.mem_cons.mp hdir with rfl | hdir
      · exact List.mem_cons_of_mem _ habove
      · exact List.mem_cons_of_mem _ (ih hdir)
    · cases hdir

theorem ReadsByPath.readable (h : ReadsByPath files root names) :
    Readable files (Path.ofString root) (Looked root names) where
  proper := by
    rintro dir ⟨name, -, hdir⟩
    exact candidates_proper dir hdir
  upwards := by
    rintro dir ⟨name, hname, hdir⟩ above habove
    refine ⟨name, hname, ?_⟩
    rw [candidates_eq] at hdir ⊢
    exact mem_upwards_trans hdir habove
  manifest := h

theorem tells_empty (files : FileSystem) (top : Path) (looked : Spelling → Prop) :
    Cache.Tells files top looked {} := by
  intro dir found _ hfound
  simp at hfound

/-- One question is answered as if nothing were remembered, and the next one can rely on the
cache as this one did. -/
theorem resolve_run (h : ReadsByPath files root names)
    (htells : cache.Tells files (Path.ofString root) (Looked root names)) {name : String}
    (hname : name ∈ names) :
    ((resolve files root name).run cache).1 = findUpwards files root name ∧
      Cache.Tells files (Path.ofString root) (Looked root names)
        ((resolve files root name).run cache).2 := by
  have hcandidates := candidates_eq root name
  have hlooked : ∀ dir ∈ candidates root name, Looked root names dir :=
    fun dir hdir => ⟨name, hname, hdir⟩
  rw [hcandidates] at hlooked
  cases hsearch : search files cache (candidates root name) with
  | mk found visited =>
    have hrun : (resolve files root name).run cache =
        (found, visited.foldl (fun cache key => cache.insert key found) cache) := by
      rw [resolve]
      simp only [StateT.run_modifyGet, hsearch]
      rfl
    rw [hcandidates] at hsearch
    have hfound := (search_upwards htells hlooked).1
    rw [hsearch] at hfound
    rw [hrun]
    exact ⟨hfound, htells.remember h.readable hlooked hsearch⟩

theorem mapM_resolve_run (h : ReadsByPath files root names)
    (htells : cache.Tells files (Path.ofString root) (Looked root names)) {queries : List String}
    (hqueries : ∀ name ∈ queries, name ∈ names) :
    ((queries.mapM (resolve files root)).run cache).1 = queries.map (findUpwards files root) := by
  induction queries generalizing cache with
  | nil => rfl
  | cons name queries ih =>
    obtain ⟨hanswer, hnext⟩ := resolve_run h htells (hqueries name List.mem_cons_self)
    have hrest := ih hnext fun name' hmem => hqueries name' (List.mem_cons_of_mem _ hmem)
    rw [List.mapM_cons, List.map_cons, ← hanswer, ← hrest]
    rfl

/-- Any questions, in any order and however often each is asked, are answered as by a search that
goes from the directory of the file upwards, as long as the path starts with the root, and stops
at the first manifest that can be read. -/
theorem cache_transparent (h : ReadsByPath files root names) {queries : List String}
    (hqueries : ∀ name ∈ queries, name ∈ names) :
    ((queries.mapM (resolve files root)).run {}).1 = queries.map (findUpwards files root) :=
  mapM_resolve_run h (tells_empty _ _ _) hqueries

/-- Two manifests and a file between them that is none, seen from the outer directory. -/
def nestedManifests : FileSystem where
  tree :=
    ((FileTree.empty.write ["p", "package.json"] "\x7b\"name\":\"outer\"\x7d").write
      ["p", "a", "package.json"] "no manifest").write
      ["p", "a", "b", "package.json"] "\x7b\"name\":\"inner\"\x7d"
  workingDirectory := ["p"]

theorem nestedManifests_transparent :
    let queries := ["a/x.ts", "./a//b/y.ts", "a/b/c/z.ts", "/p/a/y.ts", "../p/a/x.ts", "a/x.ts"]
    ReadsByPath nestedManifests "." {name | name ∈ queries} ∧
      ((queries.mapM (resolve nestedManifests ".")).run {}).1 =
        queries.map (findUpwards nestedManifests ".") := by
  intro queries
  have hread : ReadsByPath nestedManifests "." {name | name ∈ queries} := by
    refine readsByPath_of_size_le ?_
    rintro dir ⟨name, hname, hdir⟩
    have hsizes : ∀ name ∈ queries, ∀ dir ∈ candidates "." name,
        (dir.child "package.json").size ≤ FileTree.maxPath := by
      decide +kernel
    exact hsizes name hname dir hdir
  exact ⟨hread, cache_transparent hread fun _ hname => hname⟩

/-- From the directory of the file the way leads to the manifest of the working directory, and an
absolute path does not start with a relative root. -/
example :
    (["a/x.ts", "a/b/c/z.ts", "/p/a/y.ts"].map (findUpwards nestedManifests ".")) =
      [some (.package "outer" ""), some (.package "inner" ""), none] := by
  decide +kernel

end

end Package

end SourceIndex
