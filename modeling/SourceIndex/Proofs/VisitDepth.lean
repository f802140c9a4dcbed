import Mathlib.Data.List.Chain
import SourceIndex.Proofs.LiveRuns
import SourceIndex.Proofs.TreeTokens
import SourceIndex.Proofs.WalkedChildren

/-! How deep a tour goes. The stored nodes may form any graph, with nodes that are shared, come
later or contain themselves, so a tour is a walk along chains of nodes and not down a tree. It is
cut off exactly if one of these chains is too long; chains side by side do not add up. -/

namespace SourceIndex

theorem Node.mem_targets_steps {n : Node} {inMapped : Bool} {i : Nat} :
    i ∈ Step.targets (n.steps inMapped) ↔
      i ∈ n.payload.childrenIn fun part => !n.passes part := by
  rw [n.targets_steps inMapped]
  dsimp only
  split
  · exact List.mem_reverse
  · exact Iff.rfl

namespace Tour

variable {visit : NodeRef → Tour}

theorem steps_isCut_iff (hnone : (visit none).isCut = false) (ss : List Step) :
    (steps visit ss).isCut = true ↔ ∃ i ∈ Step.targets ss, (visit (some i)).isCut = true := by
  induction ss with
  | nil => simp [steps]
  | cons s ss ih =>
    rw [steps, ← Bool.not_eq_false, isCut_append, not_and_or, Bool.not_eq_false,
      Bool.not_eq_false, ih]
    cases s with
    | operator token => simp [step]
    | operand token => simp [step]
    | visit r => cases r <;> simp [step, hnone]

end Tour

namespace SourceFile

variable {f : SourceFile}

def CanVisit (f : SourceFile) (i : Nat) : Prop :=
  ∃ n, f.arena.get? (some i) = some n ∧ n.hasParseError = false

/-- A node and one of its children that is not in a part that is passed over. -/
def Walks (f : SourceFile) (i j : Nat) : Prop :=
  ∃ n, f.arena.get? (some i) = some n ∧ j ∈ n.payload.childrenIn fun part => !n.passes part

structure IsWay (f : SourceFile) (way : List Nat) : Prop where
  canVisit : ∀ i ∈ way, f.CanVisit i
  walks : way.IsChain f.Walks

theorem IsWay.cons_iff {i j : Nat} {way : List Nat} :
    f.IsWay (i :: j :: way) ↔ f.CanVisit i ∧ f.Walks i j ∧ f.IsWay (j :: way) := by
  constructor
  · rintro ⟨hvisit, hwalks⟩
    obtain ⟨hwalk, hwalks⟩ := List.isChain_cons_cons.mp hwalks
    exact ⟨hvisit i (by simp), hwalk, fun k hk => hvisit k (by simp [hk]), hwalks⟩
  · rintro ⟨hvisit, hwalk, hway⟩
    refine ⟨fun k hk => ?_, List.isChain_cons_cons.mpr ⟨hwalk, hway.walks⟩⟩
    rcases List.mem_cons.mp hk with rfl | hk
    · exact hvisit
    · exact hway.canVisit k hk

theorem visit_none (levels : Nat) : f.visit levels none = {} := by
  cases levels <;> rfl

theorem visit_zero_isCut_iff (i : Nat) :
    (f.visit 0 (some i)).isCut = true ↔ f.CanVisit i := by
  unfold visit CanVisit
  cases hn : f.arena.get? (some i) with
  | none => simp
  | some n => cases herror : n.hasParseError <;> simp [herror]

theorem visit_succ_isCut {levels i : Nat} {n : Node} (hn : f.arena.get? (some i) = some n)
    (herror : n.hasParseError = false) :
    (f.visit (levels + 1) (some i)).isCut = (f.inside levels i n).isCut := by
  have hleave : ((f.inside levels i n).append fun _ => { events := [.leave] }).isCut =
      (f.inside levels i n).isCut := by
    cases hcut : (f.inside levels i n).isCut <;> simp [Tour.append, hcut]
  unfold visit
  simp only [hn, herror]
  exact hleave

theorem visit_succ_isCut_iff (levels i : Nat) :
    (f.visit (levels + 1) (some i)).isCut = true ↔
      f.CanVisit i ∧ ∃ j, f.Walks i j ∧ (f.visit levels (some j)).isCut = true := by
  have hsteps : ∀ n, (f.inside levels i n).isCut = true ↔
      ∃ j ∈ n.payload.childrenIn (fun part => !n.passes part),
        (f.visit levels (some j)).isCut = true := by
    intro n
    rw [inside, Tour.steps_isCut_iff (by rw [visit_none])]
    simp only [Node.mem_targets_steps]
  constructor
  · intro hcut
    cases hn : f.arena.get? (some i) with
    | none =>
      unfold visit at hcut
      simp [hn] at hcut
    | some n =>
      cases herror : n.hasParseError with
      | true =>
        unfold visit at hcut
        simp [hn, herror] at hcut
      | false =>
        rw [visit_succ_isCut hn herror] at hcut
        obtain ⟨j, hj, hcut⟩ := (hsteps n).mp hcut
        exact ⟨⟨n, hn, herror⟩, j, ⟨n, hn, hj⟩, hcut⟩
  · rintro ⟨⟨n, hn, herror⟩, j, ⟨n', hn', hj⟩, hcut⟩
    obtain rfl := Option.some.inj (hn.symm.trans hn')
    rw [visit_succ_isCut hn herror]
    exact (hsteps n).mpr ⟨j, hj, hcut⟩

theorem visit_isCut_iff (levels i : Nat) :
    (f.visit levels (some i)).isCut = true ↔
      ∃ way : List Nat, way.length = levels + 1 ∧ way.head? = some i ∧ f.IsWay way := by
  induction levels generalizing i with
  | zero =>
    rw [visit_zero_isCut_iff]
    constructor
    · intro hvisit
      exact ⟨[i], rfl, rfl, by simpa using hvisit, List.isChain_singleton i⟩
    · rintro ⟨way, -, hhead, hway⟩
      exact hway.canVisit i (List.mem_of_mem_head? hhead)
  | succ levels ih =>
    rw [visit_succ_isCut_iff]
    constructor
    · rintro ⟨hvisit, j, hwalk, hcut⟩
      obtain ⟨way, hlength, hhead, hway⟩ := (ih j).mp hcut
      obtain ⟨way, rfl⟩ := List.head?_eq_some_iff.mp hhead
      refine ⟨i :: j :: way, by simpa using hlength, rfl, ?_⟩
      exact IsWay.cons_iff.mpr ⟨hvisit, hwalk, hway⟩
    · rintro ⟨way, hlength, hhead, hway⟩
      match way, hhead with
      | [_], rfl => simp at hlength
      | _ :: j :: way, rfl =>
        obtain ⟨hvisit, hwalk, hway⟩ := IsWay.cons_iff.mp hway
        exact ⟨hvisit, j, hwalk, (ih j).mpr ⟨j :: way, by simpa using hlength, rfl, hway⟩⟩

end SourceFile

namespace World

variable {w : World} {ε : Type} {maxDepth : UInt32} {fileId i : Nat} {f : SourceFile} {n : Node}
  {m : Memory}

/-- A declaration that is its own parent, where no depth is beyond the limit: it has itself for an
owner at every depth that can be counted. -/
theorem symbolIn_ownParent (hmax : maxDepth.toNat + 1 = bound32)
    (hnode : w.node? ⟨fileId, some i⟩ = some (f, n)) (hdecl : n.isDeclaration = true)
    (hparent : f.arena.parent (some i) = some i) (hnew : m.known? ⟨fileId, some i⟩ = none)
    (room : Nat) :
    (w.symbolIn maxDepth room ⟨fileId, some i⟩ : Attempt Memory ε Symbol) m =
      .error (.overflow .ownerDepth) m := by
  have hrules : ∀ other : NodeKey → Attempt Memory ε Symbol,
      w.resolveByRules other ⟨fileId, some i⟩ = w.resolveBelow other ⟨fileId, some i⟩ f n := by
    intro other
    unfold resolveByRules
    rw [hnode]
    dsimp only
    split
    all_goals first
      | rfl
      | next hkind => simp [Node.isDeclaration, hkind] at hdecl
  have hat : ∀ (depth : Nat) (other : NodeKey → Attempt Memory ε Symbol), depth < bound32 →
      other ⟨fileId, some i⟩ m = .error (.overflow .ownerDepth) m →
      w.symbolAt maxDepth depth other ⟨fileId, some i⟩ m = .error (.overflow .ownerDepth) m := by
    intro depth other hdepth hother
    have hnext : w.symbolAt maxDepth depth other ⟨fileId, some i⟩ m =
        w.resolveBelow other ⟨fileId, some i⟩ f n m := by
      unfold symbolAt
      rw [bind_of_ok (rfl : (get : Attempt Memory ε Memory) m = .ok m m), hnew]
      dsimp only
      rw [if_neg (by omega), hrules]
    rw [hnext]
    unfold resolveBelow
    dsimp only
    rw [hparent]
    exact bind_of_error hother
  induction room with
  | zero => exact hat _ _ (by decide) rfl
  | succ room ih => exact hat _ _ (by unfold bound32; omega) ih

end World

namespace FileContext

variable {c : FileContext}

theorem tour_isCut_iff (hroot : c.file.arena.kind? c.file.root = some .sourceFile) :
    c.file.tour.isCut = true ↔
      ∃ way : List Nat, way.length = 1001 ∧ way.head? = c.file.root ∧ c.file.IsWay way := by
  obtain ⟨n, hn, -⟩ := Option.map_eq_some_iff.mp hroot
  obtain ⟨i, hi, -⟩ := Option.bind_eq_some_iff.mp hn
  rw [SourceFile.tour, hi]
  exact SourceFile.visit_isCut_iff SourceFile.maxVisitDepth i

/-- The tour of a file fails exactly if there are 1001 nodes, each walked to from the one before,
that begin with the root, are all there and have no parse error. -/
theorem index_result_iff (hroot : c.file.arena.kind? c.file.root = some .sourceFile)
    (document : Nat) (s : Session) :
    (((c.index document).run s).1 = .error (.tooDeep c.file.name) ↔
      ∃ way : List Nat, way.length = 1001 ∧ way.head? = c.file.root ∧ c.file.IsWay way) ∧
    ((∃ summary, ((c.index document).run s).1 = .ok summary) ↔
      ¬ ∃ way : List Nat, way.length = 1001 ∧ way.head? = c.file.root ∧ c.file.IsWay way) := by
  have hcut := tour_isCut_iff hroot
  have hfault : c.file.fault? = if c.file.tour.isCut then some (.tooDeep c.file.name) else none :=
    if_pos hroot
  have herror := index_error_iff (c := c) document s
  rw [← hcut, herror, hfault]
  refine ⟨by simp, ?_⟩
  cases hresult : ((c.index document).run s).1 with
  | ok summary =>
    have hwhole : c.file.tour.isCut ≠ true := by
      intro hcut
      have hfailed := (herror (.tooDeep c.file.name)).mpr (by rw [hfault, if_pos hcut])
      simp [hresult] at hfailed
    exact ⟨fun _ => hwhole, fun _ => ⟨summary, rfl⟩⟩
  | error e =>
    have hfound := (herror e).mp hresult
    have hcut : c.file.tour.isCut = true := by
      by_contra hwhole
      rw [hfault, if_neg hwhole] at hfound
      cases hfound
    simp [hcut]

theorem resolve_ownParent {σ ε : Type} {i : Nat} {n : Node}
    (hmax : c.options.maxSymbolDepth.toNat + 1 = bound32)
    (hnode : c.world.node? ⟨c.fileId, some i⟩ = some (c.file, n)) (hdecl : n.isDeclaration = true)
    (hparent : c.file.arena.parent (some i) = some i) {l : Live Recorder σ}
    (hnew : l.state.memory.known? ⟨c.fileId, some i⟩ = none) :
    (Live.resolve c i : Attempt (Live Recorder σ) ε Symbol) l =
      .error (.overflow .ownerDepth) l := by
  have hendless := World.symbolIn_ownParent (ε := ε) hmax hnode hdecl hparent hnew (bound32 - 1)
  simp only [Live.resolve, Attempt.within, World.symbolOf, hendless]
  rfl

section

variable {σ : Type} [Sink σ] {ready : σ → Prop}

theorem index_visit_fails (hroot : c.file.arena.kind? c.file.root = some .sourceFile)
    (document : Nat) {l : Live Session σ} {fault : Fault IndexError}
    (h : ∀ l₁ : Live Recorder σ, l₁.state.memory = ({ session := l.state } : Recorder).memory →
      ∃ l', Live.visit c SourceFile.maxVisitDepth c.file.root l₁ = .error fault l') :
    ∃ l', Live.index c document l = .error fault l' := by
  have hrecord : ∃ r, Live.recordFile c document ⟨{ session := l.state }, l.sink⟩ =
      .error fault r := by
    obtain ⟨r, hvisit⟩ := h ⟨c.start document l.state, l.sink⟩ rfl
    exact ⟨r, (bind_of_ok rfl).trans ((bind_of_ok rfl).trans (bind_of_error hvisit))⟩
  obtain ⟨r, hrecord⟩ := hrecord
  rw [Live.index, if_pos hroot]
  simp only [Live.recording, Attempt.within, hrecord]
  exact ⟨_, rfl⟩

/-- An overflow while a file is recorded has a reason. -/
theorem recordFile_overflow (hs : Sink.Reliable ready) {document : Nat} {l r : Live Recorder σ}
    (hl : ready l.sink) {o : Overflow}
    (h : Live.recordFile c document l = .error (.overflow o) r) : c.Full o r := by
  obtain ⟨sink, -, hrun⟩ := (Live.recordFile_enacts (c := c) document).of_reliable hs l.state hl
  have hfollows : Follows (Live.IsRecorder l.state.opened) (Live.IsRecorder l.state.opened)
      Live.SameSession c.Full (Live.recordFile c document) (c.recordAll document) :=
    Live.recordFile_follows document
  have hends := hfollows.ends ⟨l.state, {}⟩ l.state rfl
  rw [hrun] at h
  cases hquiet : Live.recordFile c document (⟨l.state, {}⟩ : Live Recorder Quiet) with
  | ok summary l' =>
    rw [hquiet] at h
    cases h
  | error fault l' =>
    rw [hquiet] at h hends
    obtain ⟨rfl, rfl⟩ := EStateM.Result.error.inj h
    have hfull := hends.1
    cases o <;> exact hfull

/-- On a reliable sink a file is indexed as planned, unless a number overflows. -/
theorem index_run (hs : Sink.Reliable ready)
    (hroot : c.file.arena.kind? c.file.root = some .sourceFile) (document : Nat)
    {l : Live Session σ} (hl : ready l.sink) :
    (∃ o l', Live.index c document l = .error (.overflow o) l' ∧
      ∃ r, Live.recordFile c document ⟨{ session := l.state }, l.sink⟩ = .error (.overflow o) r ∧
        c.Full o r) ∨
    ∃ l', Live.index c document l = ended ((c.index document).run l.state).1 l' := by
  obtain ⟨sink, -, hrun⟩ := (Live.index_enacts (c := c) document).of_reliable hs l.state hl
  rcases ended_of_follows (Live.index_follows (c := c) document) l.state with
    ⟨o, l', hquiet, -⟩ | hquiet
  · rw [hquiet] at hrun
    refine .inl ⟨o, _, hrun, ?_⟩
    have hrecord : Live.recording (Live.recordFile c document) l =
        .error (.overflow o) ⟨l'.state, sink⟩ := by
      rw [Live.index, if_pos hroot] at hrun
      exact hrun
    simp only [Live.recording, Attempt.within] at hrecord
    cases hfile : Live.recordFile c document ⟨{ session := l.state }, l.sink⟩ with
    | ok summary r =>
      rw [hfile] at hrecord
      cases hrecord
    | error fault r =>
      rw [hfile] at hrecord
      obtain ⟨rfl, -⟩ := EStateM.Result.error.inj hrecord
      exact ⟨r, rfl, recordFile_overflow hs hl hfile⟩
  · rw [hquiet, onSink_ended] at hrun
    exact .inr ⟨_, hrun⟩

/-- How the index of a file with a proper root ends on a reliable sink. Unless a number overflows,
it fails exactly if there are 1001 nodes, each walked to from the one before, that begin with the
root, are all there and have no parse error; otherwise it succeeds. An overflow has a reason: a
counter is at its end, an answer reaches too far, or no depth of an owner exceeds the limit. -/
theorem index_tooDeep_iff (hs : Sink.Reliable ready)
    (hroot : c.file.arena.kind? c.file.root = some .sourceFile) (document : Nat)
    {l : Live Session σ} (hl : ready l.sink) :
    (∃ o l', Live.index c document l = .error (.overflow o) l' ∧
      ∃ r, Live.recordFile c document ⟨{ session := l.state }, l.sink⟩ = .error (.overflow o) r ∧
        c.Full o r) ∨
    ((∃ l', Live.index c document l = .error (.error (.tooDeep c.file.name)) l') ↔
      ∃ way : List Nat, way.length = 1001 ∧ way.head? = c.file.root ∧ c.file.IsWay way) ∧
    ((∃ summary l', Live.index c document l = .ok summary l') ↔
      ¬ ∃ way : List Nat, way.length = 1001 ∧ way.head? = c.file.root ∧ c.file.IsWay way) := by
  refine (index_run hs hroot document hl).imp_right fun ⟨l', hrun⟩ => ?_
  obtain ⟨hdeep, hok⟩ := index_result_iff hroot document l.state
  rw [hrun]
  refine ⟨Iff.trans ?_ hdeep, Iff.trans ?_ hok⟩
  · cases ((c.index document).run l.state).1 <;> simp [ended]
  · cases ((c.index document).run l.state).1 <;> simp [ended]

end

def rootInItself : FileContext where
  world := ⟨{}, .none⟩
  options := {}
  fileId := 0
  file := {
    name := "a.ts"
    text := [';']
    arena := Arena.empty.add .sourceFile 0 1 (.sourceFile [some 0] "a.ts" .ts false)
    root := some 0 }

theorem rootInItself_tooDeep :
    rootInItself.file.arena.kind? rootInItself.file.root = some .sourceFile ∧
      rootInItself.file.IsWay (List.replicate 1001 0) ∧
      ∃ l, Live.index rootInItself 1 ⟨{}, ({} : MemorySink)⟩ =
        .error (.error (.tooDeep "a.ts")) l := by
  have hvisit : rootInItself.file.CanVisit 0 := ⟨_, rfl, rfl⟩
  have hwalks : rootInItself.file.Walks 0 0 := ⟨_, rfl, by decide⟩
  have hway : rootInItself.file.IsWay (List.replicate 1001 0) := by
    refine ⟨fun i hi => ?_, ?_⟩
    · rw [List.eq_of_mem_replicate hi]
      exact hvisit
    · exact List.isChain_replicate_of_rel 1001 hwalks
  refine ⟨rfl, hway, ?_⟩
  have hfits : overflow? (Live.index rootInItself 1 ⟨{}, ({} : MemorySink)⟩) = none := by
    decide +kernel
  rcases index_tooDeep_iff (c := rootInItself) Project.memory_reliable rfl 1
    (l := ⟨{}, ({} : MemorySink)⟩) trivial with ⟨o, l, hoverflow, -⟩ | ⟨hdeep, -⟩
  · rw [hoverflow] at hfits
    cases hfits
  · exact hdeep.mpr ⟨_, List.length_replicate, rfl, hway⟩

/-- One class, to which there is a reference that begins at the last offset there is. -/
def farReference : FileContext where
  world := ⟨{}, { Collaborators.none with references := fun _ _ => .ok [⟨"a.ts", 4294967295, 1⟩] }⟩
  options := {}
  fileId := 0
  file := {
    name := "a.ts"
    text := "class F{}".toList
    arena := ((Arena.empty.add .identifier 6 7 (.identifier "F")).add .classDeclaration 0 9
      (.declaration (.classLike none (some 0) none none []))).add .sourceFile 0 9
      (.sourceFile [some 1] "a.ts" .ts false)
    root := some 2 }

/-- An arrow function that is its own name and so its own parent. Names of arrow functions are not
walked to. -/
def ownNameFile : SourceFile where
  name := "a.ts"
  text := "()=>0".toList
  arena := (Arena.empty.add .sourceFile 0 5 (.sourceFile [some 1] "a.ts" .ts false)).add
    .arrowFunction 0 5 (.declaration (.function none false (some 1) none [] none none))
  root := some 0

/-- No depth exceeds the limit. -/
def ownName : FileContext where
  world := ⟨⟨#[ownNameFile]⟩, .none⟩
  options := { maxSymbolDepth := 4294967295 }
  fileId := 0
  file := ownNameFile

theorem visit_ownName (levels : Nat) {l : Live Recorder MemorySink}
    (hnew : l.state.memory.known? ⟨0, some 1⟩ = none) :
    Live.visit ownName (levels + 2) (some 0) l = .error (.overflow .ownerDepth) l := by
  have hresolve := resolve_ownParent (c := ownName) (ε := IndexError) rfl rfl rfl rfl hnew
  have hchild : Live.visit ownName (levels + 1) (some 1) l = .error (.overflow .ownerDepth) l :=
    bind_of_error (bind_of_error hresolve)
  have hopened : Live.openDeclaration ownName 0 ownName.file.arena.nodes[0] l = .ok false l := rfl
  exact (bind_of_ok hopened).trans (bind_of_error (bind_of_error hchild))

theorem index_ownName :
    ∃ l, Live.index ownName 1 ⟨{}, ({} : MemorySink)⟩ = .error (.overflow .ownerDepth) l := by
  refine index_visit_fails rfl 1 fun l hsymbols => ⟨l, visit_ownName 998 ?_⟩
  rw [hsymbols]
  rfl

/-- In neither file there are 1001 nodes of this kind, but neither is indexed: the end of a
reference and the depth of an owner have no number in 32 bits. -/
theorem index_overflows :
    ((¬ ∃ way : List Nat, way.length = 1001 ∧ way.head? = farReference.file.root ∧
        farReference.file.IsWay way) ∧
      ∃ l, Live.index farReference 1 ⟨{}, ({} : MemorySink)⟩ =
        .error (.overflow .referenceEnd) l) ∧
    (¬ ∃ way : List Nat, way.length = 1001 ∧ way.head? = ownName.file.root ∧
        ownName.file.IsWay way) ∧
      ∃ l, Live.index ownName 1 ⟨{}, ({} : MemorySink)⟩ = .error (.overflow .ownerDepth) l := by
  refine ⟨⟨?_, ?_⟩, ?_, ?_⟩
  · rw [← tour_isCut_iff rfl]
    decide +kernel
  · have hfar : overflow? (Live.index farReference 1 ⟨{}, ({} : MemorySink)⟩) =
        some .referenceEnd := by
      decide +kernel
    exact overflow?_eq_some_iff.mp hfar
  · rw [← tour_isCut_iff (c := ownName) rfl]
    decide +kernel
  · exact index_ownName

end FileContext

end SourceIndex
