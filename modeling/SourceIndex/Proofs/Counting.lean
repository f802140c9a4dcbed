import SourceIndex.Proofs.Attempts
import SourceIndex.Proofs.Journals

/-! Symbols counted in 32 bits. What is found before an overflow is what the rules say without the
bound. An overflow has a reason: a counter is at its end, or the limit of the options is the
greatest number there is, so that no depth exceeds it. -/

namespace SourceIndex

open Memory Resolving

namespace Memory

variable {ε α : Type}

theorem consult_talked (query : Query) (answer : Except OracleError α) (nothing : α) (m : Memory) :
    Talked m ((consult query answer nothing).run m).2 := by
  obtain ⟨reports, hj⟩ := m.journal.consult_toList query answer nothing
  refine ⟨_, hj, fun e he => ?_⟩
  rcases List.mem_cons.mp he with rfl | he
  · rfl
  · obtain ⟨error, -, rfl⟩ := List.mem_map.mp he
    rfl

end Memory

theorem World.propTarget?_talked (w : World) (f : SourceFile) (key : NodeKey) (m : Memory) :
    Talked m ((w.propTarget? f key).run m).2 := by
  unfold propTarget?
  cases f.arena.parent (f.arena.parent key.node) with
  | none => exact .refl m
  | some element =>
    cases f.arena.identifierText? (f.arena.nameOf key.node) with
    | none => exact .refl m
    | some name =>
      have htype := consult_talked (.propsType ⟨key.file, some element⟩)
        (w.collaborators.propsType ⟨key.file, some element⟩) none m
      simp only [run_bind]
      cases hrun : (consult (.propsType ⟨key.file, some element⟩)
        (w.collaborators.propsType ⟨key.file, some element⟩) none).run m with
      | mk type m₁ =>
        rw [hrun] at htype
        cases type with
        | none => exact htype
        | some type => exact htype.trans (consult_talked (.properties type name) _ [] m₁)

theorem World.propTarget?_resolver (w : World) (f : SourceFile) (key : NodeKey) (m : Memory) :
    ((w.propTarget? f key).run m).2.resolver = m.resolver := by
  unfold propTarget?
  cases f.arena.parent (f.arena.parent key.node) with
  | none => rfl
  | some element =>
    cases f.arena.identifierText? (f.arena.nameOf key.node) with
    | none => rfl
    | some name =>
      simp only [run_bind]
      cases ((consult (.propsType ⟨key.file, some element⟩)
        (w.collaborators.propsType ⟨key.file, some element⟩) none).run m).1 <;> rfl

/-- Why counting may end: a counter has no next number, or there is no greater depth. -/
def Memory.Full (maxDepth : UInt32) : Overflow → Memory → Prop
  | .localNumber, m => bound32 ≤ m.resolver.lastLocal + 1
  | .keyNumber, m =>
    ∃ spelling, bound32 ≤ (m.resolver.keyCounts.get? spelling).getD 0 + 1
  | .ownerDepth, _ => maxDepth.toNat + 1 = bound32
  | .id, _ | .referenceEnd, _ => False

/-- All numbers given out have 32 bits. -/
structure Resolver.Fits (r : Resolver) : Prop where
  lastLocal : r.lastLocal < bound32
  keyCounts : ∀ spelling n, r.keyCounts.get? spelling = some n → n < bound32

theorem Resolver.fits_empty : Fits {} := ⟨by decide, by simp [Table.get?]⟩

/-- Counted in 32 bits and without a bound, with the same result. -/
structure Counts {ε α : Type} (maxDepth : UInt32) (x : Attempt Memory ε α) (y : StateM Memory α) :
    Prop where
  talks : Talks x
  agrees : Agrees Eq Eq (Memory.Full maxDepth) x y
  fits : ∀ m : Memory, m.resolver.Fits → (stateAfter (x m)).resolver.Fits

namespace Counts

variable {ε α β : Type} {maxDepth : UInt32}

theorem pure (a : α) : Counts maxDepth (Pure.pure a : Attempt Memory ε α) (Pure.pure a) :=
  ⟨fun m => .refl m, .pure a, fun _ h => h⟩

theorem bind {x : Attempt Memory ε α} {y : StateM Memory α} {f : α → Attempt Memory ε β}
    {g : α → StateM Memory β} (hx : Counts maxDepth x y) (hf : ∀ a, Counts maxDepth (f a) (g a)) :
    Counts maxDepth (x >>= f) (y >>= g) := by
  refine ⟨hx.talks.bind fun a => (hf a).talks, hx.agrees.bind fun a => (hf a).agrees,
    fun m hm => ?_⟩
  have hfits := hx.fits m hm
  cases hrun : x m with
  | ok a m' =>
    rw [hrun] at hfits
    rw [bind_of_ok hrun]
    exact (hf a).fits m' hfits
  | error fault m' =>
    rw [hrun] at hfits
    rw [bind_of_error hrun]
    exact hfits

theorem fromMemory {y : StateM Memory α} (h : ∀ m, Talked m (y.run m).2)
    (hresolver : ∀ m, (y.run m).2.resolver = m.resolver) :
    Counts maxDepth (Resolving.fromMemory y : Attempt Memory ε α) y := by
  refine ⟨h, ⟨fun m => (h m).grows, ?_⟩, fun m hm => (hresolver m).symm ▸ hm⟩
  rintro m _ rfl
  exact ⟨rfl, rfl⟩

/-- One more, if a counter is not at its end. -/
theorem bounded (next : Memory → Nat) {o : Overflow} {y : StateM Memory α}
    (hlog : ∀ m, log (y.run m).2 = log m)
    (hfull : ∀ m, ¬ next m < bound32 → Memory.Full maxDepth o m)
    (hfits : ∀ m, next m < bound32 → m.resolver.Fits → (y.run m).2.resolver.Fits) :
    Counts maxDepth (do
      if next (← get) < bound32 then Attempt.sure y else Attempt.overflow o : Attempt Memory ε α)
      y := by
  have hrun : ∀ m, (do
      if next (← get) < bound32 then Attempt.sure y
      else Attempt.overflow o : Attempt Memory ε α) m =
        if next m < bound32 then .ok (y.run m).1 (y.run m).2 else .error (.overflow o) m := by
    intro m
    change (if next m < bound32 then Attempt.sure y else Attempt.overflow o) m = _
    split <;> rfl
  refine ⟨fun m => .of_eq ?_, ⟨fun m => ?_, ?_⟩, fun m hm => ?_⟩
  · rw [hrun]
    split
    · exact hlog m
    · rfl
  · exact (Talked.of_eq (hlog m)).grows
  · rintro m _ rfl
    rw [hrun]
    split
    · exact ⟨rfl, rfl⟩
    · next h => exact ⟨hfull m h, (Talked.of_eq (hlog m)).grows⟩
  · rw [hrun]
    split
    · next h => exact hfits m h hm
    · exact hm

theorem newLocal (key : NodeKey) :
    Counts maxDepth (Resolving.newLocal key : Attempt Memory ε Symbol) (Memory.newLocal key) :=
  bounded (fun m => m.resolver.lastLocal + 1) (fun _ => rfl) (fun _ h => Nat.le_of_not_lt h)
    fun _ h hm => ⟨h, hm.keyCounts⟩

theorem countKey (spelling : String) :
    Counts maxDepth (Resolving.countKey spelling : Attempt Memory ε Nat)
      (Memory.countKey spelling) := by
  refine bounded (fun m => (m.resolver.keyCounts.get? spelling).getD 0 + 1) (fun _ => rfl)
    (fun _ h => ⟨spelling, Nat.le_of_not_lt h⟩) fun m h hm => ⟨hm.lastLocal, fun other n hn => ?_⟩
  rcases Table.eq_or_of_get?_insert hn with ⟨-, rfl⟩ | hn
  · exact h
  · exact hm.keyCounts other n hn

/-- Nothing is counted for a node that has a symbol. -/
theorem unlessKnown {x : Attempt Memory ε Symbol} {y : StateM Memory Symbol}
    (h : Counts maxDepth x y) (key : NodeKey) :
    Counts maxDepth
      (do
        match (← get).known? key with
        | some s => Pure.pure s
        | none => x)
      (do
        match (← get).known? key with
        | some s => Pure.pure s
        | none => y) := by
  have hknown : ∀ {ε : Type} {known : Option Symbol} {x : Attempt Memory ε Symbol}
      {y : StateM Memory Symbol}, Counts maxDepth x y → Counts maxDepth
        (match known with
          | some s => Pure.pure s
          | none => x)
        (match known with
          | some s => Pure.pure s
          | none => y) := by
    intro ε known x y h
    cases known with
    | some s => exact .pure s
    | none => exact h
  refine ⟨fun m => (hknown h).talks m, ⟨fun m => (hknown h).agrees.grows m, ?_⟩,
    fun m hm => (hknown h).fits m hm⟩
  rintro m _ rfl
  exact (hknown h).agrees.ends m m rfl

/-- Too deep for a counter, although not for the options. -/
theorem overflow {y : StateM Memory α} (hlimit : maxDepth.toNat + 1 = bound32)
    (hgrows : ∀ m, log m <+: log (y.run m).2) :
    Counts maxDepth (Attempt.overflow .ownerDepth : Attempt Memory ε α) y := by
  refine ⟨fun m => .refl m, ⟨hgrows, ?_⟩, fun _ hm => hm⟩
  rintro m _ rfl
  exact ⟨hlimit, hgrows m⟩

theorem remember (key : NodeKey) (s : Symbol) :
    Counts maxDepth (Resolving.fromMemory (Memory.remember key s) : Attempt Memory ε Symbol)
      (Memory.remember key s) :=
  fromMemory (fun _ => .of_eq rfl) fun _ => rfl

end Counts

namespace World

variable {ε : Type} {w : World} {maxDepth : UInt32} {other : NodeKey → Attempt Memory ε Symbol}
  {other' : NodeKey → StateM Memory Symbol}

theorem resolveOwned_counts (hother : ∀ key, Counts maxDepth (other key) (other' key))
    (key : NodeKey) (f : SourceFile) (n : Node) (owner : Symbol) :
    Counts maxDepth (w.resolveOwned other key f n owner) (w.resolveOwned other' key f n owner) := by
  unfold resolveOwned
  extract_lets declared declared'
  have hdeclared : Counts maxDepth declared declared' := by
    unfold declared declared'
    cases descriptor? f n with
    | some d => exact .remember key _
    | none => exact .newLocal key
  by_cases hcontainer : n.isContainer = true
  · simp only [hcontainer, if_true]
    exact .remember key owner
  by_cases himport : n.isImport = true
  · simp only [hcontainer, himport, if_true]
    refine (Counts.fromMemory (fun m => consult_talked _ _ _ m) fun _ => rfl).bind fun targets => ?_
    cases targets with
    | nil => exact hdeclared
    | cons target _ => exact hother target
  · simp only [hcontainer, himport]
    exact hdeclared

theorem resolveBelow_counts (hother : ∀ key, Counts maxDepth (other key) (other' key))
    (key : NodeKey) (f : SourceFile) (n : Node) :
    Counts maxDepth (w.resolveBelow other key f n) (w.resolveBelow other' key f n) := by
  unfold resolveBelow
  cases f.arena.parent key.node with
  | none => exact .newLocal key
  | some parent =>
    refine (hother _).bind fun owner => ?_
    cases owner with
    | global text => exact resolveOwned_counts hother key f n _
    | empty => exact .newLocal key
    | fileLocal k => exact .newLocal key

theorem resolveByRules_counts (hother : ∀ key, Counts maxDepth (other key) (other' key))
    (key : NodeKey) :
    Counts maxDepth (w.resolveByRules other key) (w.resolveByRules other' key) := by
  unfold resolveByRules
  cases w.node? key with
  | none => exact .pure _
  | some fn =>
    obtain ⟨f, n⟩ := fn
    have hkey : Counts maxDepth
        (do
          let number ← Resolving.countKey (f.nodeText n.payload.name)
          let owner ← other ⟨key.file, f.root⟩
          Resolving.fromMemory (Memory.remember key
            (owner.extend ⟨.metadata, f.nodeText n.payload.name ++ toString number⟩)))
        (do
          let number ← Resolving.countKey (f.nodeText n.payload.name)
          let owner ← other' ⟨key.file, f.root⟩
          Resolving.fromMemory (Memory.remember key
            (owner.extend ⟨.metadata, f.nodeText n.payload.name ++ toString number⟩))) :=
      (Counts.countKey _).bind fun number => (hother _).bind fun owner => .remember key _
    dsimp only
    split
    · exact .pure _
    · exact (Counts.fromMemory (fun _ => .of_eq rfl) fun _ => rfl).bind
        fun package => .remember key _
    · exact hkey
    · exact hkey
    · refine (Counts.fromMemory (propTarget?_talked w f key) (propTarget?_resolver w f key)).bind
        fun target => ?_
      cases target with
      | some target => exact hother target
      | none => exact resolveBelow_counts hother key f n
    · exact resolveBelow_counts hother key f n

theorem resolveWithin_grows (links : Nat) (key : NodeKey) (m : Memory) :
    log m <+: log ((w.resolveWithin links key).run m).2 := by
  induction links generalizing key m with
  | zero =>
    have hlocal : Counts (0 : UInt32) (Resolving.newLocal key : Attempt Memory Empty Symbol)
        (Memory.newLocal key) := .newLocal key
    exact (hlocal.unlessKnown key).agrees.grows m
  | succ links ih =>
    have hother : ∀ key, Counts (ε := Empty) (.ofNat (bound32 - 1))
        (Attempt.overflow .ownerDepth) (w.resolveWithin links key) :=
      fun key => .overflow (by decide) (ih key)
    exact ((resolveByRules_counts hother key).unlessKnown key).agrees.grows m

/-- Where the depth is beyond its limit there are no links left to follow. -/
theorem symbolAt_counts {depth links : Nat} (hdepth : depth + links = maxDepth.toNat + 1)
    (hother : ∀ rest, links = rest + 1 →
      ∀ key, Counts maxDepth (other key) (w.resolveWithin rest key)) (key : NodeKey) :
    Counts maxDepth (w.symbolAt maxDepth depth other key) (w.resolveWithin links key) := by
  unfold symbolAt
  cases links with
  | zero =>
    rw [if_pos (by omega)]
    exact (Counts.newLocal key).unlessKnown key
  | succ rest =>
    rw [if_neg (by omega)]
    exact (resolveByRules_counts (hother rest rfl) key).unlessKnown key

theorem symbolIn_counts {room links : Nat} (hroom : room < bound32)
    (hlinks : bound32 - 1 - room + links = maxDepth.toNat + 1) (key : NodeKey) :
    Counts maxDepth (w.symbolIn maxDepth room key : Attempt Memory ε Symbol)
      (w.resolveWithin links key) := by
  induction room generalizing links key with
  | zero =>
    refine symbolAt_counts hlinks (fun rest hrest key => ?_) key
    have hlimit : maxDepth.toNat + 1 = bound32 := by
      have hdepth := maxDepth.toNat_lt
      unfold bound32 at hlinks ⊢
      omega
    exact .overflow hlimit (resolveWithin_grows rest key)
  | succ room ih =>
    exact symbolAt_counts hlinks (fun rest hrest key => ih (by omega) (by omega) key) key

/-- A resolver finds what the rules say, with as many links as the options allow. -/
theorem symbolOf_counts (maxDepth : UInt32) (key : NodeKey) :
    Counts maxDepth (w.symbolOf maxDepth key : Attempt Memory ε Symbol)
      (w.resolve maxDepth.toNat key) :=
  symbolIn_counts (by decide) (by omega) key

end World

end SourceIndex
