import Mathlib.Data.List.Infix
import SourceIndex.Proofs.PackageSearch

/-! Where a package comes from. The search goes up from the file by dropping components and stops
before a path that does not start with the root, while a manifest is read at the place to which the
components lead in the tree. The two agree as long as `..` does not lead out of where it stands. -/

namespace SourceIndex

namespace FileTree

/-- What stands at a place, which is given by the names on the way there from the top. -/
def at? : List String → FileTree → Option FileTree
  | [], t => some t
  | name :: names, directory entries => (entries.get? name).bind (at? names)
  | _ :: _, file _ => none

theorem at?_append (names names' : List String) (t : FileTree) :
    at? (names ++ names') t = (at? names t).bind (at? names') := by
  induction names generalizing t with
  | nil => rfl
  | cons name names ih =>
    cases t with
    | file content => rfl
    | directory entries =>
      rw [List.cons_append, at?, at?, Option.bind_assoc]
      exact congrArg _ (funext ih)

/-- Each entry of the trail is found in the directory that was entered before. -/
def Trail.Leads (root : FileTree) : Trail → Prop
  | [] => True
  | (name, t) :: outer => Trail.Leads root outer ∧
      ∃ entries, Trail.at root outer = directory entries ∧ entries.get? name = some t

variable {root : FileTree} {trail trail' : Trail}

theorem Trail.Leads.tail (h : Trail.Leads root trail) : Trail.Leads root trail.tail := by
  cases trail with
  | nil => exact h
  | cons x outer => exact h.1

theorem Trail.Leads.at?_eq (h : Trail.Leads root trail) :
    root.at? (trail.map (·.1)).reverse = some (Trail.at root trail) := by
  induction trail with
  | nil => rfl
  | cons x outer ih =>
    obtain ⟨name, t⟩ := x
    obtain ⟨houter, entries, hdirectory, hentry⟩ := h
    rw [List.map_cons, List.reverse_cons, at?_append, ih houter, hdirectory]
    simp [at?, hentry, Trail.at]

theorem step?_spec {name : String} (h : Trail.Leads root trail)
    (hstep : step? root trail name = some trail') :
    Trail.Leads root trail' ∧ trail'.map (·.1) = turn (trail.map (·.1)) name := by
  rw [step?] at hstep
  split at hstep
  · cases hstep
  · next entries hdirectory =>
    by_cases hup : name = ".."
    · rw [if_pos hup] at hstep
      obtain rfl : trail.tail = trail' := Option.some.inj hstep
      exact ⟨h.tail, by rw [turn, if_pos hup, List.map_tail]⟩
    rw [if_neg hup] at hstep
    by_cases hhere : name = "."
    · rw [if_pos hhere] at hstep
      obtain rfl : trail = trail' := Option.some.inj hstep
      exact ⟨h, by rw [turn, if_neg hup, if_pos hhere]⟩
    · rw [if_neg hhere] at hstep
      split at hstep
      · obtain ⟨t, hentry, rfl⟩ := Option.map_eq_some_iff.mp hstep
        exact ⟨⟨h, entries, hdirectory, hentry⟩,
          by rw [turn, if_neg hup, if_neg hhere, List.map_cons]⟩
      · cases hstep

theorem foldlM_step?_spec {names : List String} (h : Trail.Leads root trail)
    (hrun : names.foldlM (step? root) trail = some trail') :
    Trail.Leads root trail' ∧ trail'.map (·.1) = names.foldl turn (trail.map (·.1)) := by
  induction names generalizing trail with
  | nil =>
    obtain rfl : trail = trail' := Option.some.inj hrun
    exact ⟨h, rfl⟩
  | cons name names ih =>
    rw [List.foldlM_cons] at hrun
    obtain ⟨next, hstep, hrest⟩ := Option.bind_eq_some_iff.mp hrun
    obtain ⟨hnext, hback⟩ := step?_spec h hstep
    obtain ⟨hleads, hnames⟩ := ih hnext hrest
    exact ⟨hleads, by rw [hnames, hback, List.foldl_cons]⟩

/-- A name that leads from a directory into one of its entries. -/
def IsDown (name : String) : Prop := name ≠ "." ∧ name ≠ ".."

instance (name : String) : Decidable (IsDown name) := inferInstanceAs (Decidable (_ ∧ _))

/-- At no point have more components led up than down. -/
def StaysBelow (names : List String) : Prop :=
  ∀ front, front <+: names → front.count ".." ≤ front.countP (IsDown ·)

theorem staysBelow_of_not_mem {names : List String} (h : ".." ∉ names) : StaysBelow names := by
  intro front hfront
  rw [List.count_eq_zero_of_not_mem fun hmem => h (hfront.subset hmem)]
  exact Nat.zero_le _

/-- With enough names to take back, the way further back does not matter. -/
theorem foldl_turn_append {names : List String} (near far : List String)
    (h : ∀ front, front <+: names → front.count ".." ≤ near.length + front.countP (IsDown ·)) :
    names.foldl turn (near ++ far) = names.foldl turn near ++ far := by
  induction names generalizing near with
  | nil => rfl
  | cons name names ih =>
    have hlonger : ∀ front, front <+: names →
        (name :: front).count ".." ≤ near.length + (name :: front).countP (IsDown ·) :=
      fun front hfront => h _ (List.cons_prefix_cons.mpr ⟨rfl, hfront⟩)
    rw [List.foldl_cons, List.foldl_cons]
    by_cases hup : name = ".."
    · have hdown : ¬ IsDown name := fun hdown => hdown.2 hup
      have hfirst := hlonger [] List.nil_prefix
      cases near with
      | nil => simp [hup, IsDown] at hfirst
      | cons x near =>
        have hturn : ∀ rest, turn (x :: rest) name = rest := fun rest => if_pos hup
        rw [List.cons_append, hturn, hturn]
        refine ih near fun front hfront => ?_
        have hle := hlonger front hfront
        rw [List.countP_cons_of_neg (by simpa using hdown), hup, List.count_cons_self,
          List.length_cons] at hle
        omega
    by_cases hhere : name = "."
    · have hdown : ¬ IsDown name := fun hdown => hdown.1 hhere
      have hturn : ∀ rest, turn rest name = rest := fun rest => by
        rw [turn, if_neg hup, if_pos hhere]
      rw [hturn, hturn]
      refine ih near fun front hfront => ?_
      have hle := hlonger front hfront
      rwa [List.countP_cons_of_neg (by simpa using hdown), List.count_cons_of_ne hup] at hle
    · have hdown : IsDown name := ⟨hhere, hup⟩
      have hturn : ∀ rest, turn rest name = name :: rest := fun rest => by
        rw [turn, if_neg hup, if_neg hhere]
      rw [hturn, hturn, ← List.cons_append]
      refine ih (name :: near) fun front hfront => ?_
      have hle := hlonger front hfront
      rw [List.countP_cons_of_pos (by simpa using hdown), List.count_cons_of_ne hup] at hle
      rw [List.length_cons]
      omega

/-- A way that stays below where it starts is settled on its own. -/
theorem settle_append {names : List String} (before : List String) (h : StaysBelow names) :
    settle (before ++ names) = settle before ++ settle names := by
  have hnames : names.foldl turn (before.foldl turn []) =
      names.foldl turn [] ++ before.foldl turn [] :=
    foldl_turn_append [] (before.foldl turn []) fun front hfront => by simpa using h front hfront
  rw [settle, settle, settle, List.foldl_append, ← List.reverse_append]
  exact congrArg List.reverse hnames

theorem settle_of_forall_isDown {names : List String} (h : ∀ name ∈ names, IsDown name) :
    settle names = names := by
  have hturn : ∀ back, names.foldl turn back = names.reverse ++ back := by
    induction names with
    | nil => exact fun _ => rfl
    | cons name names ih =>
      obtain ⟨hhere, hup⟩ := h name List.mem_cons_self
      have hrest : ∀ name ∈ names, IsDown name := fun x hx => h x (List.mem_cons_of_mem _ hx)
      intro back
      rw [List.foldl_cons, ih hrest, turn, if_neg hup, if_neg hhere]
      simp
  rw [settle, hturn, List.append_nil, List.reverse_reverse]

end FileTree

namespace FileSystem

open FileTree

variable {files : FileSystem}

/-- Where a path leads when each `..` takes back the name before it. -/
def place (files : FileSystem) (p : Path) : List String := settle (files.names p)

theorem at?_of_read? {s : Spelling} {content : String} (h : files.read? s = some content) :
    files.tree.at? (files.place s.path) = some (file content) := by
  rw [read?] at h
  split at h
  · split at h
    · next trail hrun =>
      have hstart : Trail.Leads files.tree [] := trivial
      obtain ⟨hleads, hnames⟩ := foldlM_step?_spec hstart hrun
      have hplace := hleads.at?_eq
      rw [hnames] at hplace
      split at h
      · next content' hfile =>
        obtain rfl : content' = content := Option.some.inj h
        rw [place, settle, ← hfile]
        exact hplace
      · cases h
    · cases h
  · cases h

theorem place_append (isAbsolute : Bool) (parts : List String) {way : List String}
    (h : StaysBelow way) :
    files.place ⟨isAbsolute, parts ++ way⟩ = files.place ⟨isAbsolute, parts⟩ ++ settle way := by
  simp only [place, names, ← List.append_assoc]
  exact settle_append _ h

end FileSystem

open FileTree

namespace Package

/-- The manifest at this place describes the package. -/
def DescribedAt (files : FileSystem) (place : List String) (s : Symbol) : Prop :=
  ∃ text, files.tree.at? (place ++ ["package.json"]) = some (.file text) ∧ ofManifest? text = some s

/-- The package comes from a manifest in this directory or in one above it, under the root. -/
def DrawnFrom (files : FileSystem) (top path : Path) (s : Symbol) : Prop :=
  ∃ dir : Spelling, dir.Proper ∧ dir.isAbsolute = path.isAbsolute ∧
    dir.path.parts <+: path.parts ∧ dir.path.startsWith top = true ∧ manifestIn? files dir = some s

/-- What is remembered for a directory was found there or above it. -/
def Cache.Drawn (files : FileSystem) (top : Path) (cache : Cache) : Prop :=
  ∀ (dir : Spelling) s, dir.Proper → cache.get? dir.key = some (some s) →
    DrawnFrom files top dir.path s

variable {files : FileSystem} {root : String} {top : Path} {cache : Cache} {s : Symbol}

theorem describedAt_of_manifestIn? {dir : Spelling} (h : manifestIn? files dir = some s) :
    DescribedAt files (files.place dir.path) s := by
  obtain ⟨text, hread, htext⟩ := Option.bind_eq_some_iff.mp h
  have hplace := FileSystem.at?_of_read? hread
  rw [path_child, FileSystem.place_append _ _ (staysBelow_of_not_mem (by decide))] at hplace
  exact ⟨text, hplace, htext⟩

theorem DrawnFrom.mono {path path' : Path} (h : DrawnFrom files top path s)
    (hroot : path.isAbsolute = path'.isAbsolute) (hbelow : path.parts <+: path'.parts) :
    DrawnFrom files top path' s := by
  obtain ⟨dir, hproper, habsolute, hparts, hstarts, hmanifest⟩ := h
  exact ⟨dir, hproper, habsolute.trans hroot, hparts.trans hbelow, hstarts, hmanifest⟩

/-- What a search finds was found in the directory of the file or above it, and so it was for every
directory that the search passes. -/
theorem search_drawn (hcache : cache.Drawn files top) {isAbsolute : Bool}
    {parts : List (String × Nat)} (hparts : ∀ x ∈ parts, IsName x.1) {visited : List String}
    (h : search files cache (upwards top isAbsolute parts) = (some s, visited)) :
    (∃ x outer, parts = x :: outer ∧ DrawnFrom files top (Spelling.mk isAbsolute outer).path s) ∧
      ∀ key ∈ visited, ∃ dir : Spelling, dir.Proper ∧ dir.key = key ∧
        DrawnFrom files top dir.path s := by
  induction parts generalizing visited with
  | nil => simp [upwards, Spelling.enclosing, search] at h
  | cons x outer ih =>
    have houter : ∀ y ∈ outer, IsName y.1 := fun y hy => hparts y (List.mem_cons_of_mem _ hy)
    have hproper : (Spelling.mk isAbsolute outer).Proper := houter
    rw [upwards_cons] at h
    by_cases hstarts : (Spelling.mk isAbsolute outer).path.startsWith top = true
    · rw [if_pos hstarts, search] at h
      cases hknown : cache.get? (Spelling.mk isAbsolute outer).key with
      | some known =>
        rw [hknown] at h
        obtain ⟨rfl, rfl⟩ := Prod.mk.inj h
        exact ⟨⟨x, outer, rfl, hcache _ _ hproper hknown⟩, by simp⟩
      | none =>
        rw [hknown] at h
        cases hmanifest : manifestIn? files ⟨isAbsolute, outer⟩ with
        | some package =>
          rw [hmanifest] at h
          obtain ⟨hpackage, rfl⟩ := Prod.mk.inj h
          obtain rfl : package = s := Option.some.inj hpackage
          have hdrawn : DrawnFrom files top (Spelling.mk isAbsolute outer).path package :=
            ⟨_, hproper, rfl, List.prefix_refl _, hstarts, hmanifest⟩
          refine ⟨⟨x, outer, rfl, hdrawn⟩, fun key hkey => ⟨_, hproper, ?_, hdrawn⟩⟩
          exact (List.mem_singleton.mp hkey).symm
        | none =>
          rw [hmanifest] at h
          obtain ⟨hfound, rfl⟩ := Prod.mk.inj h
          obtain ⟨⟨y, above, rfl, hdrawn⟩, hpassed⟩ := ih houter (Prod.ext hfound rfl)
          have hhere : DrawnFrom files top (Spelling.mk isAbsolute (y :: above)).path s :=
            hdrawn.mono rfl (by simp [Spelling.path])
          refine ⟨⟨x, y :: above, rfl, hhere⟩, fun key hkey => ?_⟩
          rcases List.mem_cons.mp hkey with rfl | hkey
          · exact ⟨_, hproper, rfl, hhere⟩
          · exact hpassed key hkey
    · rw [if_neg hstarts] at h
      simp [search] at h

theorem drawn_empty (files : FileSystem) (top : Path) : Cache.Drawn files top {} := by
  intro dir s _ hknown
  simp at hknown

/-- One question is answered from a directory above the file, and leaves a cache on which the next
one can rely. -/
theorem resolve_drawn (hcache : cache.Drawn files (Path.ofString root)) (fileName : String) :
    (∀ s, ((resolve files root fileName).run cache).1 = some s →
      ∃ x outer, (Spelling.ofString (Path.joinText root fileName)).parts = x :: outer ∧
        DrawnFrom files (Path.ofString root) (Spelling.mk
          (Spelling.ofString (Path.joinText root fileName)).isAbsolute outer).path s) ∧
      ((resolve files root fileName).run cache).2.Drawn files (Path.ofString root) := by
  have hproper := Spelling.ofString_proper (Path.joinText root fileName)
  cases hsearch : search files cache (candidates root fileName) with
  | mk found visited =>
    have hrun : (resolve files root fileName).run cache =
        (found, visited.foldl (fun cache key => cache.insert key found) cache) := by
      rw [resolve]
      simp only [StateT.run_modifyGet, hsearch]
      rfl
    rw [candidates_eq] at hsearch
    rw [hrun]
    refine ⟨?_, fun dir s hdir hknown => ?_⟩
    · rintro s rfl
      exact (search_drawn hcache hproper hsearch).1
    · rcases get?_foldl_insert hknown with ⟨hmem, rfl⟩ | hold
      · obtain ⟨dir', hdir', hkey, hdrawn⟩ := (search_drawn hcache hproper hsearch).2 _ hmem
        rw [← Spelling.key_injective hdir' hdir hkey]
        exact hdrawn
      · exact hcache dir s hdir hold

theorem mapM_resolve_drawn (hcache : cache.Drawn files (Path.ofString root))
    (queries : List String) :
    ((queries.mapM (resolve files root)).run cache).2.Drawn files (Path.ofString root) := by
  induction queries generalizing cache with
  | nil => exact hcache
  | cons name queries ih =>
    rw [List.mapM_cons]
    exact ih (resolve_drawn hcache name).2

theorem path_ofString (text : String) : (Spelling.ofString text).path = Path.ofString text := by
  simp [Spelling.ofString, Spelling.path, Path.ofString, List.map_reverse]

/-- Whatever was asked before, a package that is found for a file is described by a manifest at the
place to which a beginning of the file's path leads, one that goes at least as far as the root.
This place is the root or below it if the way there from the root goes nowhere further up than down.
It is the directory of the file or above it if the same holds for the way on to the file and that
way ends below the place. Only an empty root lets absolute paths in as well as relative ones. -/
theorem found_between_root_and_file (earlier : List String) {fileName : String}
    (h : ((resolve files root fileName).run
      ((earlier.mapM (resolve files root)).run {}).2).1 = some s) :
    let top := Path.ofString root
    let file := Path.ofString (Path.joinText root fileName)
    (top.isAbsolute = file.isAbsolute ∨ top.components = []) ∧
    ∃ down rest, file.parts = top.parts ++ (down ++ rest) ∧ rest ≠ [] ∧
      let dir : Path := ⟨file.isAbsolute, top.parts ++ down⟩
      DescribedAt files (files.place dir) s ∧
      (top.isAbsolute = file.isAbsolute → StaysBelow down → files.place top <+: files.place dir) ∧
      (StaysBelow rest → settle rest ≠ [] →
        files.place dir <+: (files.place file).dropLast) := by
  intro top file
  have hcache := mapM_resolve_drawn (drawn_empty files (Path.ofString root)) earlier
  obtain ⟨x, outer, hparts, dir, hdir, habsolute, habove, hstarts, hmanifest⟩ :=
    (resolve_drawn hcache fileName).1 s h
  obtain ⟨⟨down, hdown⟩, hroot⟩ := (Path.startsWith_iff hdir.isName (top_isName root)).mp hstarts
  obtain ⟨between, hbetween⟩ := habove
  have hsame : dir.isAbsolute = file.isAbsolute := habsolute
  have hfile : file.parts = dir.path.parts ++ (between ++ [x.1]) := by
    have hpath := congrArg Path.parts (path_ofString (Path.joinText root fileName))
    rw [Spelling.path, hparts] at hpath
    rw [← List.append_assoc, hbetween]
    simpa [Spelling.path] using hpath.symm
  have hdirectory : dir.path = ⟨file.isAbsolute, top.parts ++ down⟩ := by
    rw [← hsame, hdown]
    rfl
  rw [← hdown] at hfile
  refine ⟨?_, down, between ++ [x.1], by rw [hfile, List.append_assoc], by simp, ?_, ?_, ?_⟩
  · rcases hroot with hroot | ⟨hrelative, hnone⟩
    · exact .inl (hroot.trans hsame)
    · exact .inr (by simp [Path.components, hrelative, hnone, top])
  · rw [← hdirectory]
    exact describedAt_of_manifestIn? hmanifest
  · intro hroot hbelow
    rw [← hroot, FileSystem.place_append _ _ hbelow]
    exact List.prefix_append _ _
  · intro hbelow hends
    have hplace : files.place file =
        files.place ⟨file.isAbsolute, top.parts ++ down⟩ ++ settle (between ++ [x.1]) := by
      rw [← FileSystem.place_append _ _ hbelow, ← hfile]
    rw [hplace, List.dropLast_append_of_ne_nil hends]
    exact List.prefix_append _ _

/-- The package is described at the root or below it, and in the directory of the file or above
it. -/
def FoundBetween (files : FileSystem) (root fileName : String) (s : Symbol) : Prop :=
  ∃ place, DescribedAt files place s ∧ files.place (Path.ofString root) <+: place ∧
    place <+: (files.place (Path.ofString (Path.joinText root fileName))).dropLast

/-- Two directories, one of which has a manifest, seen from the one around both. -/
def oneManifest : FileSystem where
  tree :=
    (FileTree.empty.write ["o", "a", "package.json"] "\x7b\"name\":\"a\"\x7d").makeDirectories
      ["o", "b"]
  workingDirectory := ["o"]

/-- A root that is spelled with `..` does no harm, and neither does an answer that is remembered. -/
theorem oneManifest_found_between :
    ((resolve oneManifest "b/.." "a/x.ts").run
        ((["a/y.ts"].mapM (resolve oneManifest "b/..")).run {}).2).1 = some (.package "a" "") ∧
      FoundBetween oneManifest "b/.." "a/x.ts" (.package "a" "") := by
  have hanswer : ((resolve oneManifest "b/.." "a/x.ts").run
      ((["a/y.ts"].mapM (resolve oneManifest "b/..")).run {}).2).1 = some (.package "a" "") := by
    decide +kernel
  obtain ⟨-, down, rest, hfile, hrest, hdescribed, hroot, habove⟩ :=
    found_between_root_and_file ["a/y.ts"] hanswer
  have hway : down ++ rest = ["a", "x.ts"] := by
    have hparts : (Path.ofString (Path.joinText "b/.." "a/x.ts")).parts =
        (Path.ofString "b/..").parts ++ ["a", "x.ts"] := by
      decide +kernel
    exact (List.append_cancel_left (hparts.symm.trans hfile)).symm
  have hnames : ∀ name ∈ down ++ rest, IsDown name := by
    rw [hway]
    decide
  have hdots : ".." ∉ down ++ rest := fun hmem => (hnames _ hmem).2 rfl
  rw [List.mem_append, not_or] at hdots
  refine ⟨hanswer, _, hdescribed, hroot (by decide +kernel) (staysBelow_of_not_mem hdots.1),
    habove (staysBelow_of_not_mem hdots.2) ?_⟩
  rw [settle_of_forall_isDown fun name hname => hnames name (List.mem_append_right _ hname)]
  exact hrest

/-- With `..` the search leaves the project, or comes into a directory that is not above the
file. -/
theorem oneManifest_found_elsewhere :
    (((resolve oneManifest "/o/b" "../a/x.ts").run {}).1 = some (.package "a" "") ∧
        ¬ FoundBetween oneManifest "/o/b" "../a/x.ts" (.package "a" "")) ∧
      ((resolve oneManifest "." "a/../b/x.ts").run {}).1 = some (.package "a" "") ∧
        ¬ FoundBetween oneManifest "." "a/../b/x.ts" (.package "a" "") := by
  refine ⟨⟨by decide +kernel, ?_⟩, by decide +kernel, ?_⟩
  · rintro ⟨place, -, hroot, hfile⟩
    exact absurd (hroot.trans hfile) (by decide +kernel)
  · rintro ⟨place, ⟨text, hplace, -⟩, hroot, hfile⟩
    have hplaces : ∀ place ∈
        (oneManifest.place (Path.ofString (Path.joinText "." "a/../b/x.ts"))).dropLast.inits,
        oneManifest.place (Path.ofString ".") <+: place →
          (oneManifest.tree.at? (place ++ ["package.json"])).isNone = true := by
      decide +kernel
    have hnone := hplaces place ((List.mem_inits _ _).mpr hfile) hroot
    rw [hplace] at hnone
    cases hnone

end Package

end SourceIndex
