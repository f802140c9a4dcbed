import SourceIndex.Proofs.LinePositions
import SourceIndex.Proofs.Linkage

/-! Links by byte offsets. Where every span cuts its text between characters, the linker finds by
lines and columns what it would find by bytes: it only compares ends of ranges within one file, and
there both orders agree. -/

namespace SourceIndex

/-- A stretch of bytes as a place on a single line, where a column is a byte offset. -/
def byteLocation (file : String) (start stop : Nat) : Location := ⟨file, ⟨⟨0, start⟩, ⟨0, stop⟩⟩⟩

theorem byteLocation_contains_iff {file file' : String} {a b c d : Nat} :
    (byteLocation file a b).range.contains (byteLocation file' c d).range = true ↔
      a ≤ c ∧ d ≤ b := by
  simp [byteLocation, Range.contains_iff, Position.le_iff]

/-- Each range lies inside the other one or not alike in both placements. -/
def Alike (outer inner outer' inner' : Range) : Prop :=
  outer.contains inner = outer'.contains inner'

theorem Alike.eq_iff {a b a' b' : Range} (hab : Alike a b a' b') (hba : Alike b a b' a') :
    a = b ↔ a' = b' := by
  constructor
  · rintro rfl
    refine Range.contains_antisymm (hab ▸ ?_) (hba ▸ ?_) <;> exact Range.contains_refl a
  · rintro rfl
    refine Range.contains_antisymm ?_ ?_
    · rw [hab]
      exact Range.contains_refl a'
    · rw [hba]
      exact Range.contains_refl a'

section Placement

variable {f g : Scope → Location} {scopes : List Scope} {r r' : Location}

/-- The scopes lie around a reference, and those that do inside one another, in one placement as in
the other. -/
structure Agree (f g : Scope → Location) (scopes : List Scope) (r r' : Location) : Prop where
  covers : ∀ o ∈ scopes, Covers (f o) r ↔ Covers (g o) r'
  inside : ∀ o ∈ scopes, ∀ o' ∈ scopes, Covers (f o) r → Covers (f o') r →
    Alike (f o).range (f o').range (g o).range (g o').range

/-- Both scans have chosen the same scope, or none. -/
def SameChoice (f g : Scope → Location) (scopes : List Scope) (r : Location)
    (choice choice' : Option (Nat × Range)) : Prop :=
  (choice = none ∧ choice' = none) ∨
    ∃ o ∈ scopes, Covers (f o) r ∧ choice = some (o.id, (f o).range) ∧
      choice' = some (o.id, (g o).range)

theorem SameChoice.narrow {choice choice' : Option (Nat × Range)} {o : Scope}
    (h : SameChoice f g scopes r choice choice') (hagree : Agree f g scopes r r')
    (ho : o ∈ scopes) :
    SameChoice f g scopes r (narrow r choice (o.id, f o)) (narrow r' choice' (o.id, g o)) := by
  by_cases hcovers : Covers (f o) r
  · have hcovers' := (hagree.covers o ho).mp hcovers
    have htake : SameChoice f g scopes r (some (o.id, (f o).range)) (some (o.id, (g o).range)) :=
      .inr ⟨o, ho, hcovers, rfl, rfl⟩
    rcases h with ⟨rfl, rfl⟩ | ⟨o', ho', hcovers₀, rfl, rfl⟩
    · rw [narrow_none hcovers, narrow_none hcovers']
      exact htake
    · have hin := hagree.inside o' ho' o ho hcovers₀ hcovers
      have hout := hagree.inside o ho o' ho' hcovers hcovers₀
      have hcond : ((f o').range ≠ (f o).range ∧ (f o').range.contains (f o).range = true) ↔
          ((g o').range ≠ (g o).range ∧ (g o').range.contains (g o).range = true) := by
        rw [ne_eq, ne_eq, hin.eq_iff hout, hin]
      rw [narrow_some hcovers, narrow_some hcovers']
      simp only [hcond]
      split
      · exact htake
      · exact .inr ⟨o', ho', hcovers₀, rfl, rfl⟩
  · have hcovers' := fun h' => hcovers ((hagree.covers o ho).mpr h')
    rw [narrow_of_not_covers hcovers, narrow_of_not_covers hcovers']
    exact h

theorem foldl_narrow_sameChoice (hagree : Agree f g scopes r r') {seen : List Scope}
    (hseen : seen ⊆ scopes) {choice choice' : Option (Nat × Range)}
    (h : SameChoice f g scopes r choice choice') :
    SameChoice f g scopes r
      ((seen.map fun o => (o.id, f o)).foldl (narrow r) choice)
      ((seen.map fun o => (o.id, g o)).foldl (narrow r') choice') := by
  induction seen generalizing choice choice' with
  | nil => exact h
  | cons o seen ih =>
    obtain ⟨ho, hrest⟩ := List.cons_subset.mp hseen
    exact ih hrest (h.narrow hagree ho)

/-- The innermost scope around a reference is the same in both placements. -/
theorem innermost?_eq_of_agree (hagree : Agree f g scopes r r') :
    innermost? (scopes.map fun o => (o.id, f o)) r =
      innermost? (scopes.map fun o => (o.id, g o)) r' := by
  have hnone : SameChoice f g scopes r none none := .inl ⟨rfl, rfl⟩
  unfold innermost?
  rcases foldl_narrow_sameChoice hagree (List.Subset.refl _) hnone with
    ⟨hf, hg⟩ | ⟨o, -, -, hf, hg⟩
  · rw [hf, hg]
  · rw [hf, hg]
    rfl

end Placement

namespace SourceFile

/-- The bytes that a node covers. -/
def span (f : SourceFile) (r : NodeRef) : Nat × Nat :=
  ((f.arena.get? r).map fun n => (n.start, n.stop)).getD (0, 0)

theorem nodeRange_eq (f : SourceFile) (r : NodeRef) :
    f.nodeRange r = f.spanRange (f.span r).1 (f.span r).2 := by
  unfold nodeRange span
  cases f.arena.get? r with
  | some n => rfl
  | none =>
    have hzero : f.lines.position f.text 0 = ⟨0, 0⟩ := by
      rw [f.lines_eq]
      exact LineMap.position_zero f.text
    simp [spanRange, LineMap.range, hzero]

theorem spanRange_alike {f : SourceFile} {a b c d : Nat} (ha : f.text.SplitsAt a)
    (hb : f.text.SplitsAt b) (hc : f.text.SplitsAt c) (hd : f.text.SplitsAt d) (name : String) :
    Alike (f.spanRange a b) (f.spanRange c d) (byteLocation name a b).range
      (byteLocation name c d).range := by
  rw [Alike, Bool.eq_iff_iff, byteLocation_contains_iff, spanRange, spanRange, f.lines_eq]
  exact LineMap.range_contains_iff ha hb hc hd

end SourceFile

def Scope.bytes (o : Scope) : Location :=
  byteLocation o.context.file.name (o.context.file.span o.site).1 (o.context.file.span o.site).2

def Reference.bytes (r : Reference) : Location := byteLocation r.file r.start (r.start + r.length)

theorem Program.fileNamed?_eq_some {program : Program} {f : SourceFile}
    (hnames : (program.files.toList.map (·.name)).Nodup) (hf : f ∈ program.files.toList) :
    program.fileNamed? f.name = some f := by
  cases hfound : program.fileNamed? f.name with
  | none =>
    have hnot := List.find?_eq_none.mp hfound f (List.mem_reverse.mpr hf)
    simp at hnot
  | some found =>
    have hname : found.name = f.name := by simpa using List.find?_some hfound
    have hmem : found ∈ program.files.toList :=
      List.mem_reverse.mp (List.mem_of_find?_eq_some hfound)
    rw [List.inj_on_of_nodup_map hnames hmem hf hname]

namespace Project

variable {p : Project}

/-- Files are told apart by their names, and all spans of nodes and of references to these files
fall between characters of the text. -/
structure Aligned (p : Project) : Prop where
  names : (p.program.files.toList.map (·.name)).Nodup
  nodes : ∀ f ∈ p.program.files.toList, ∀ n ∈ f.arena.nodes.toList,
    f.text.SplitsAt n.start ∧ f.text.SplitsAt n.stop
  references : ∀ name offset rs, p.collaborators.references name offset = .ok rs → ∀ r ∈ rs,
    ∀ f ∈ p.program.files.toList, f.name = r.file →
      f.text.SplitsAt r.start ∧ f.text.SplitsAt (r.start + r.length)

/-- The links of the run's scopes when each scope, and each reference that is kept, stands for its
file and its bytes. -/
def byteGraph (p : Project) (keep : Reference → Bool) : Table Nat (List Nat) :=
  link ⟨p.scopes.map fun o => (o.id, o.bytes)⟩
    ⟨(p.scopes.filter (·.isDeclaration)).map fun o =>
      (o.id, (o.answers.filter keep).map (·.bytes))⟩

theorem Aligned.span (h : p.Aligned) {f : SourceFile} (hf : f ∈ p.program.files.toList)
    (r : NodeRef) : f.text.SplitsAt (f.span r).1 ∧ f.text.SplitsAt (f.span r).2 := by
  unfold SourceFile.span
  cases hget : f.arena.get? r with
  | none => exact ⟨⟨[], f.text, rfl, rfl⟩, ⟨[], f.text, rfl, rfl⟩⟩
  | some n =>
    obtain ⟨i, -, hi⟩ := Option.bind_eq_some_iff.mp hget
    exact h.nodes f hf n (Array.mem_toList_iff.mpr (Array.mem_of_getElem? hi))

theorem file_mem {o : Scope} (ho : o ∈ p.scopes) :
    o.context.file ∈ p.program.files.toList ∧ o.context.world.program = p.program := by
  obtain ⟨⟨_, f, hf, hc⟩, -⟩ := scope_spec ho
  rw [hc]
  exact ⟨hf, rfl⟩

theorem locate_of_name {o o' : Scope} (hnames : (p.program.files.toList.map (·.name)).Nodup)
    (ho : o ∈ p.scopes) (ho' : o' ∈ p.scopes) {r : Reference}
    (hname : o'.context.file.name = r.file) :
    o.context.locate r = ⟨r.file, o'.context.file.spanRange r.start (r.start + r.length)⟩ := by
  have hfound : o.context.world.program.fileNamed? r.file = some o'.context.file := by
    rw [(file_mem ho).2, ← hname]
    exact Program.fileNamed?_eq_some hnames (file_mem ho').1
  rw [FileContext.locate, hfound]
  rfl

theorem Aligned.agree (h : p.Aligned) {o : Scope} (ho : o ∈ p.scopes) {r : Reference}
    (hr : r ∈ o.answers) :
    Agree Scope.place Scope.bytes p.scopes (o.context.locate r) r.bytes where
  covers o' ho' := by
    refine and_congr_right fun hname => ?_
    obtain ⟨name, offset, rs, hrs, hmem⟩ := (scope_spec ho).2 r hr
    have hspan := h.span (file_mem ho').1 o'.site
    have hreference := h.references name offset rs hrs r hmem _ (file_mem ho').1 hname
    have halike := SourceFile.spanRange_alike hspan.1 hspan.2 hreference.1 hreference.2 r.file
    rw [locate_of_name h.names ho ho' hname, Scope.place, SourceFile.nodeRange_eq, halike]
    rfl
  inside o₁ ho₁ o₂ ho₂ hcovers₁ hcovers₂ := by
    have hname : o₁.context.file.name = o₂.context.file.name := hcovers₁.1.trans hcovers₂.1.symm
    have hfile : o₁.context.file = o₂.context.file :=
      List.inj_on_of_nodup_map h.names (file_mem ho₁).1 (file_mem ho₂).1 hname
    have hspan₁ := h.span (file_mem ho₁).1 o₁.site
    have hspan₂ := h.span (file_mem ho₂).1 o₂.site
    rw [Scope.place, Scope.place, Scope.bytes, Scope.bytes, SourceFile.nodeRange_eq,
      SourceFile.nodeRange_eq]
    rw [hfile] at hspan₁ ⊢
    exact SourceFile.spanRange_alike hspan₁.1 hspan₁.2 hspan₂.1 hspan₂.2 r.file

/-- What lies in no file of the program lies in no scope. -/
theorem winner?_eq_none_of_foreign {l : Location} (h : p.program.fileNamed? l.file = none) :
    winner? p.recorded.definitions l = none := by
  rcases winner?_spec p.recorded.definitions l with ⟨hnone, -⟩ | ⟨id, l', -, hin⟩
  · exact hnone
  · have hmem := hin.mem
    rw [(recorded_registers p).definitions] at hmem
    obtain ⟨o, ho, heq⟩ := List.mem_map.mp hmem
    have hname : o.context.file.name = l.file := by
      have hfile := hin.covers.1
      rw [← (Prod.mk.inj heq).2] at hfile
      exact hfile
    have hnot := List.find?_eq_none.mp h _ (List.mem_reverse.mpr (file_mem ho).1)
    simp [hname] at hnot

variable {keep : Reference → Bool}

theorem Aligned.referrers_eq (h : p.Aligned)
    (hkeep : ∀ r, (p.program.fileNamed? r.file).isSome → keep r = true) {o : Scope}
    (ho : o ∈ p.scopes) :
    referrers (p.scopes.map fun o => (o.id, o.place)) o.id o.references =
      referrers (p.scopes.map fun o => (o.id, o.bytes)) o.id
        ((o.answers.filter keep).map (·.bytes)) := by
  unfold referrers Scope.references
  rw [List.filterMap_map, List.filterMap_map, List.filterMap_filter]
  congr 2
  refine List.filterMap_congr fun r hr => ?_
  by_cases hr' : keep r = true
  · rw [if_pos hr']
    exact innermost?_eq_of_agree (h.agree ho hr)
  · have hforeign : p.program.fileNamed? r.file = none := by
      rw [← Option.not_isSome_iff_eq_none]
      exact fun hsome => hr' (hkeep r hsome)
    have hnone : winner? p.recorded.definitions (o.context.locate r) = none :=
      winner?_eq_none_of_foreign hforeign
    rw [if_neg hr', ← hnone, winner?_recorded]
    rfl

theorem Aligned.graph_eq (h : p.Aligned)
    (hkeep : ∀ r, (p.program.fileNamed? r.file).isSome → keep r = true) :
    p.graph = p.byteGraph keep := by
  have hdefs : p.recorded.definitions = ⟨p.scopes.map fun o => (o.id, o.place)⟩ :=
    congrArg Table.mk (recorded_registers p).definitions
  have hrefs : p.recorded.references =
      ⟨(p.scopes.filter (·.isDeclaration)).map fun o => (o.id, o.references)⟩ :=
    congrArg Table.mk (recorded_registers p).references
  have hentries : p.graph.entries = (p.byteGraph keep).entries := by
    rw [graph, byteGraph, hdefs, hrefs, link_entries, link_entries, sortedByKey_scopes,
      sortedByKey_scopes, List.filterMap_map, List.filterMap_map]
    refine List.filterMap_congr fun o ho => ?_
    simp only [Function.comp, h.referrers_eq hkeep (List.mem_of_mem_filter ho)]
  exact congrArg Table.mk hentries

/-- Linking by lines and columns is linking by bytes, where all spans fall between characters and
files are told apart by their names. References to files that are not there make no difference. -/
theorem links_by_bytes (h : p.Aligned) :
    p.WritesLinks (p.byteGraph fun _ => true) ∧
      p.WritesLinks (p.byteGraph fun r => (p.program.fileNamed? r.file).isSome) := by
  have hall := writesLinks p
  refine ⟨?_, ?_⟩
  · rw [← h.graph_eq fun _ _ => rfl]
    exact hall
  · rw [← h.graph_eq fun _ hsome => hsome]
    exact hall

/-- A class, and another one on the next line that refers to it. The name of the first takes two
bytes, so that columns and bytes differ. Nobody knows the file of the second reference. -/
def accented : Project where
  program := ⟨#[
    { name := "a.ts"
      text := "class é{}\r\nclass B{é}".toList
      arena := Arena.empty
        |>.add .identifier 6 8 (.identifier "é")
        |>.add .classDeclaration 0 10 (.declaration (.classLike none (some 0) none none []))
        |>.add .identifier 18 19 (.identifier "B")
        |>.add .classDeclaration 12 23 (.declaration (.classLike none (some 2) none none []))
        |>.add .sourceFile 0 23 (.sourceFile [some 1, some 3] "a.ts" .ts false)
      root := some 4 },
    { name := "b.ts"
      text := ['é']
      arena := Arena.empty.add .sourceFile 0 2 (.sourceFile [] "b.ts" .ts false)
      root := some 0 }]⟩
  options := {}
  collaborators := { Collaborators.none with
    references := fun _ _ => .ok [⟨"a.ts", 20, 2⟩, ⟨"c.ts", 3, 1⟩] }

theorem accented_aligned : accented.Aligned where
  names := by decide
  nodes := by
    simp only [Text.splitsAt_iff]
    decide +kernel
  references name offset rs hrs := by
    obtain rfl := Except.ok.inj hrs
    simp only [Text.splitsAt_iff]
    decide +kernel

theorem accented_links_by_bytes :
    accented.Aligned ∧ (accented.byteGraph fun _ => true).entries = [(6, [10])] ∧
      accented.WritesLinks (accented.byteGraph fun _ => true) := by
  refine ⟨accented_aligned, ?_, (links_by_bytes accented_aligned).1⟩
  decide +kernel

end Project

end SourceIndex
