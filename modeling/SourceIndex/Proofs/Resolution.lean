import SourceIndex.FileIndex
import SourceIndex.Proofs.Run
import SourceIndex.Proofs.Stream

/-! Resolution as a relation. Every rule is a constructor that shows the memory before and after, so
that facts about the resolver are proved by induction, one rule at a time. -/

namespace SourceIndex

open Memory

/-- Neither a block, nor a file, nor a key: such a node asks its owner. -/
def Node.hasOwner (n : Node) : Bool := n.kind ≠ .block && n.kind ≠ .sourceFile && !n.isKey

namespace World

theorem node?_eq_some_iff {w : World} {key : NodeKey} {f : SourceFile} {n : Node} :
    w.node? key = some (f, n) ↔
      w.program.file? key.file = some f ∧ f.arena.get? key.node = some n := by
  simp only [node?, bind, Option.bind_eq_some_iff, Option.some.injEq, Prod.mk.injEq]
  constructor
  · rintro ⟨_, hfile, _, hnode, rfl, rfl⟩
    exact ⟨hfile, hnode⟩
  · rintro ⟨hfile, hnode⟩
    exact ⟨f, hfile, n, hnode, rfl, rfl⟩

theorem node?_unique {w : World} {key : NodeKey} {f f' : SourceFile} {n n' : Node}
    (h : w.node? key = some (f, n)) (h' : w.node? key = some (f', n')) : f = f' ∧ n = n' :=
  Prod.mk.inj (Option.some.inj (h.symm.trans h'))

theorem kinds (w : World) (key : NodeKey) :
    w.node? key = none ∨ ∃ f n, w.node? key = some (f, n) ∧
      (n.kind = .block ∨ n.kind = .sourceFile ∨ n.isKey = true ∨ n.hasOwner = true) := by
  cases hnode : w.node? key with
  | none => exact .inl rfl
  | some fn =>
    refine .inr ⟨fn.1, fn.2, rfl, ?_⟩
    by_cases hblock : fn.2.kind = .block
    · exact .inl hblock
    · by_cases hfile : fn.2.kind = .sourceFile
      · exact .inr (.inl hfile)
      · cases hkey : fn.2.isKey <;> simp [Node.hasOwner, hblock, hfile, hkey]

def setTarget? (w : World) (f : SourceFile) (n : Node) (key : NodeKey) :
    StateM Memory (Option NodeKey) :=
  if n.kind = .jsxAttribute then w.propTarget? f key else pure none

def importTarget? (w : World) (n : Node) (key : NodeKey) : StateM Memory (Option NodeKey) :=
  if n.isImport then do
    pure (← consult (.aliases key) (w.collaborators.aliases key) []).head?
  else pure none

variable {w : World} {links : Nat} {key : NodeKey} {m : Memory} {f : SourceFile} {n : Node}
  {other : NodeKey → StateM Memory Symbol}

theorem resolveWithin_known {s : Symbol} (h : m.known? key = some s) :
    (w.resolveWithin links key).run m = (s, m) := by
  cases links <;> simp only [resolveWithin, StateT.run_bind, StateT.run_get, pure_bind, h] <;> rfl

theorem resolveWithin_zero (h : m.known? key = none) :
    (w.resolveWithin 0 key).run m = (newLocal key).run m := by
  simp [resolveWithin, h]

theorem resolveWithin_succ (h : m.known? key = none) :
    (w.resolveWithin (links + 1) key).run m =
      (w.resolveByRules (w.resolveWithin links) key).run m := by
  simp [resolveWithin, h]

theorem resolveByRules_missing (hnode : w.node? key = none) :
    w.resolveByRules other key = pure .empty := by
  simp [resolveByRules, hnode]

theorem resolveByRules_block (hnode : w.node? key = some (f, n)) (hkind : n.kind = .block) :
    w.resolveByRules other key = pure .empty := by
  simp [resolveByRules, hnode, hkind]

theorem resolveByRules_file (hnode : w.node? key = some (f, n)) (hkind : n.kind = .sourceFile) :
    w.resolveByRules other key =
      packageOf w.collaborators f.name >>= fun package => remember key (package.getD .empty) := by
  simp [resolveByRules, hnode, hkind]

theorem resolveByRules_key (hnode : w.node? key = some (f, n)) (hkey : n.isKey = true) :
    w.resolveByRules other key =
      countKey (f.nodeText n.payload.name) >>= fun number =>
        other ⟨key.file, f.root⟩ >>= fun owner =>
          remember key (owner.extend
            ⟨.metadata, f.nodeText n.payload.name ++ toString number⟩) := by
  simp only [Node.isKey, Bool.or_eq_true, decide_eq_true_eq] at hkey
  rcases hkey with hkind | hkind <;> simp [resolveByRules, hnode, hkind]

theorem resolveByRules_owned (hnode : w.node? key = some (f, n)) (howned : n.hasOwner = true) :
    w.resolveByRules other key =
      w.setTarget? f n key >>= fun
        | some target => other target
        | none => w.resolveBelow other key f n := by
  simp only [Node.hasOwner, Node.isKey, ne_eq, Bool.and_eq_true, decide_eq_true_eq,
    Bool.not_eq_true', Bool.or_eq_false_iff, decide_eq_false_iff_not] at howned
  obtain ⟨⟨hblock, hfile⟩, hassign, hshort⟩ := howned
  by_cases hjsx : n.kind = .jsxAttribute
  · have hrules : w.resolveByRules other key = w.propTarget? f key >>= fun target =>
        target.elim (w.resolveBelow other key f n) other := by
      simp only [resolveByRules, hnode, hjsx]
      refine bind_congr fun target => ?_
      cases target <;> rfl
    rw [hrules, setTarget?, if_pos hjsx]
    refine bind_congr fun target => ?_
    cases target <;> rfl
  · simp only [resolveByRules, hnode, setTarget?, hjsx, if_false, pure_bind]

theorem resolveOwned_container {owner : Symbol} (hc : n.isContainer = true) :
    w.resolveOwned other key f n owner = remember key owner := by
  simp [resolveOwned, hc]

theorem resolveOwned_declaration {owner : Symbol} (hc : n.isContainer = false) :
    w.resolveOwned other key f n owner =
      w.importTarget? n key >>= fun
        | some target => other target
        | none =>
          match descriptor? f n with
          | some d => remember key (owner.extend d)
          | none => newLocal key := by
  by_cases hi : n.isImport = true
  · simp only [resolveOwned, hc, hi, importTarget?, if_true, bind_assoc, pure_bind]
    refine bind_congr fun targets => ?_
    cases targets <;> rfl
  · simp only [resolveOwned, hc, hi, importTarget?]
    rfl

end World

/-- Nothing is remembered of the node and it sets no property, so that its owner decides. The
question whether it sets one turns the memory `m` into `m₁`. -/
structure AsksOwner (w : World) (key : NodeKey) (m : Memory) (f : SourceFile) (n : Node)
    (m₁ : Memory) : Prop where
  unknown : m.known? key = none
  node : w.node? key = some (f, n)
  hasOwner : n.hasOwner = true
  target : (w.setTarget? f n key).run m = (none, m₁)

/-- `Resolves w mayCut links key m s m'`: with so many links left, the node has the symbol `s`, and
finding that turns the memory `m` into `m'`. Only if `mayCut` holds may a chain of owners have been
too long. -/
inductive Resolves (w : World) (mayCut : Prop) :
    Nat → NodeKey → Memory → Symbol → Memory → Prop where
  | known {links key m s} (h : m.known? key = some s) : Resolves w mayCut links key m s m
  | cut {key m} (hcut : mayCut) (h : m.known? key = none) :
    Resolves w mayCut 0 key m ((newLocal key).run m).1 ((newLocal key).run m).2
  | missing {links key m} (h : m.known? key = none) (hnode : w.node? key = none) :
    Resolves w mayCut (links + 1) key m .empty m
  | block {links key m f n} (h : m.known? key = none) (hnode : w.node? key = some (f, n))
    (hkind : n.kind = .block) : Resolves w mayCut (links + 1) key m .empty m
  | file {links key m f n package m₁} (h : m.known? key = none)
    (hnode : w.node? key = some (f, n)) (hkind : n.kind = .sourceFile)
    (hpackage : (packageOf w.collaborators f.name).run m = (package, m₁)) :
    Resolves w mayCut (links + 1) key m (package.getD .empty)
      ((remember key (package.getD .empty)).run m₁).2
  | counted {links key m f n number m₁ owner m₂} (h : m.known? key = none)
    (hnode : w.node? key = some (f, n)) (hkey : n.isKey = true)
    (hnumber : (countKey (f.nodeText n.payload.name)).run m = (number, m₁))
    (howner : Resolves w mayCut links ⟨key.file, f.root⟩ m₁ owner m₂) :
    Resolves w mayCut (links + 1) key m
      (owner.extend ⟨.metadata, f.nodeText n.payload.name ++ toString number⟩)
      ((remember key
        (owner.extend ⟨.metadata, f.nodeText n.payload.name ++ toString number⟩)).run m₂).2
  | property {links key m f n target m₁ s m'} (h : m.known? key = none)
    (hnode : w.node? key = some (f, n)) (howned : n.hasOwner = true)
    (htarget : (w.setTarget? f n key).run m = (some target, m₁))
    (hs : Resolves w mayCut links target m₁ s m') : Resolves w mayCut (links + 1) key m s m'
  | orphan {links key m f n m₁} (hasks : AsksOwner w key m f n m₁)
    (hparent : f.arena.parent key.node = none) :
    Resolves w mayCut (links + 1) key m ((newLocal key).run m₁).1 ((newLocal key).run m₁).2
  | unowned {links key m f n m₁ parent owner m₂} (hasks : AsksOwner w key m f n m₁)
    (hparent : f.arena.parent key.node = some parent)
    (howner : Resolves w mayCut links ⟨key.file, some parent⟩ m₁ owner m₂)
    (hlocal : ∀ text, owner ≠ .global text) :
    Resolves w mayCut (links + 1) key m ((newLocal key).run m₂).1 ((newLocal key).run m₂).2
  | container {links key m f n m₁ parent text m₂} (hasks : AsksOwner w key m f n m₁)
    (hparent : f.arena.parent key.node = some parent)
    (howner : Resolves w mayCut links ⟨key.file, some parent⟩ m₁ (.global text) m₂)
    (hcontainer : n.isContainer = true) :
    Resolves w mayCut (links + 1) key m (.global text) ((remember key (.global text)).run m₂).2
  | imported {links key m f n m₁ parent text m₂ target m₃ s m'} (hasks : AsksOwner w key m f n m₁)
    (hparent : f.arena.parent key.node = some parent)
    (howner : Resolves w mayCut links ⟨key.file, some parent⟩ m₁ (.global text) m₂)
    (hcontainer : n.isContainer = false)
    (himport : (w.importTarget? n key).run m₂ = (some target, m₃))
    (hs : Resolves w mayCut links target m₃ s m') : Resolves w mayCut (links + 1) key m s m'
  | declared {links key m f n m₁ parent text m₂ m₃ d} (hasks : AsksOwner w key m f n m₁)
    (hparent : f.arena.parent key.node = some parent)
    (howner : Resolves w mayCut links ⟨key.file, some parent⟩ m₁ (.global text) m₂)
    (hcontainer : n.isContainer = false)
    (himport : (w.importTarget? n key).run m₂ = (none, m₃))
    (hd : descriptor? f n = some d) :
    Resolves w mayCut (links + 1) key m (Symbol.extend (.global text) d)
      ((remember key (Symbol.extend (.global text) d)).run m₃).2
  | undeclared {links key m f n m₁ parent text m₂ m₃} (hasks : AsksOwner w key m f n m₁)
    (hparent : f.arena.parent key.node = some parent)
    (howner : Resolves w mayCut links ⟨key.file, some parent⟩ m₁ (.global text) m₂)
    (hcontainer : n.isContainer = false)
    (himport : (w.importTarget? n key).run m₂ = (none, m₃))
    (hd : descriptor? f n = none) :
    Resolves w mayCut (links + 1) key m ((newLocal key).run m₃).1 ((newLocal key).run m₃).2

namespace World

variable {w : World} {mayCut : Prop} {links : Nat} {key : NodeKey} {m m' : Memory} {s : Symbol}

theorem resolves_below {f : SourceFile} {n : Node} {m₁ : Memory}
    (hasks : AsksOwner w key m f n m₁)
    (ih : ∀ key m, Resolves w True links key m ((w.resolveWithin links key).run m).1
      ((w.resolveWithin links key).run m).2) :
    Resolves w True (links + 1) key m
      ((w.resolveBelow (w.resolveWithin links) key f n).run m₁).1
      ((w.resolveBelow (w.resolveWithin links) key f n).run m₁).2 := by
  cases hparent : f.arena.parent key.node with
  | none =>
    simp only [resolveBelow, hparent]
    exact .orphan hasks hparent
  | some parent =>
    have howner := ih ⟨key.file, some parent⟩ m₁
    simp only [resolveBelow, hparent, run_bind]
    cases hrun : (w.resolveWithin links ⟨key.file, some parent⟩).run m₁ with
    | mk owner m₂ =>
      rw [hrun] at howner
      cases owner with
      | empty => exact .unowned hasks hparent howner (by simp)
      | fileLocal => exact .unowned hasks hparent howner (by simp)
      | global text =>
        by_cases hc : n.isContainer = true
        · simp only [resolveOwned_container hc]
          exact .container hasks hparent howner hc
        · have hc : n.isContainer = false := Bool.eq_false_iff.mpr hc
          simp only [resolveOwned_declaration hc, run_bind]
          cases himport : (w.importTarget? n key).run m₂ with
          | mk target m₃ =>
            cases target with
            | some target =>
              exact .imported hasks hparent howner hc himport (ih target m₃)
            | none =>
              cases hd : descriptor? f n with
              | some d => exact .declared hasks hparent howner hc himport hd
              | none => exact .undeclared hasks hparent howner hc himport hd

theorem resolves_unknown (h : m.known? key = none)
    (ih : ∀ key m, Resolves w True links key m ((w.resolveWithin links key).run m).1
      ((w.resolveWithin links key).run m).2) :
    Resolves w True (links + 1) key m
      ((w.resolveByRules (w.resolveWithin links) key).run m).1
      ((w.resolveByRules (w.resolveWithin links) key).run m).2 := by
  rcases w.kinds key with hnode | ⟨f, n, hnode, hkind | hkind | hkey | howned⟩
  · rw [resolveByRules_missing hnode]
    exact .missing h hnode
  · rw [resolveByRules_block hnode hkind]
    exact .block h hnode hkind
  · rw [resolveByRules_file hnode hkind]
    exact .file h hnode hkind rfl
  · rw [resolveByRules_key hnode hkey]
    exact .counted h hnode hkey rfl (ih _ _)
  · rw [resolveByRules_owned hnode howned, run_bind]
    cases htarget : (w.setTarget? f n key).run m with
    | mk target m₁ =>
      cases target with
      | some target => exact .property h hnode howned htarget (ih target m₁)
      | none => exact resolves_below ⟨h, hnode, howned, htarget⟩ ih

/-- What the resolver does is what the rules say. -/
theorem resolves_run (links : Nat) (key : NodeKey) (m : Memory) :
    Resolves w True links key m ((w.resolveWithin links key).run m).1
      ((w.resolveWithin links key).run m).2 := by
  induction links generalizing key m with
  | zero =>
    cases h : m.known? key with
    | some s =>
      rw [resolveWithin_known h]
      exact .known h
    | none =>
      rw [resolveWithin_zero h]
      exact .cut trivial h
  | succ links ih =>
    cases h : m.known? key with
    | some s =>
      rw [resolveWithin_known h]
      exact .known h
    | none =>
      rw [resolveWithin_succ h]
      exact resolves_unknown h ih

theorem resolveWithin_asks {f : SourceFile} {n : Node} {m₁ : Memory}
    (hasks : AsksOwner w key m f n m₁) :
    (w.resolveWithin (links + 1) key).run m =
      (w.resolveBelow (w.resolveWithin links) key f n).run m₁ := by
  rw [resolveWithin_succ hasks.unknown, resolveByRules_owned hasks.node hasks.hasOwner, run_bind,
    hasks.target]

theorem resolveWithin_owner {f : SourceFile} {n : Node} {m₁ m₂ : Memory} {parent : Nat}
    {owner : Symbol} (hasks : AsksOwner w key m f n m₁)
    (hparent : f.arena.parent key.node = some parent)
    (howner : (w.resolveWithin links ⟨key.file, some parent⟩).run m₁ = (owner, m₂)) :
    (w.resolveWithin (links + 1) key).run m =
      (match owner with
        | .global text => w.resolveOwned (w.resolveWithin links) key f n (.global text)
        | _ => newLocal key).run m₂ := by
  rw [resolveWithin_asks hasks]
  cases owner <;>
    simp only [resolveBelow, hparent, run_bind, howner, Resolving.newLocal_eq]

end World

theorem Resolves.run {w : World} {mayCut : Prop} {links : Nat} {key : NodeKey} {m m' : Memory}
    {s : Symbol} (h : Resolves w mayCut links key m s m') :
    (w.resolveWithin links key).run m = (s, m') := by
  induction h with
  | known h => exact World.resolveWithin_known h
  | cut _ h => exact World.resolveWithin_zero h
  | missing h hnode =>
    rw [World.resolveWithin_succ h, World.resolveByRules_missing hnode]
    rfl
  | block h hnode hkind =>
    rw [World.resolveWithin_succ h, World.resolveByRules_block hnode hkind]
    rfl
  | file h hnode hkind hpackage =>
    rw [World.resolveWithin_succ h, World.resolveByRules_file hnode hkind, run_bind, hpackage]
    rfl
  | counted h hnode hkey hnumber _ ih =>
    rw [World.resolveWithin_succ h, World.resolveByRules_key hnode hkey, run_bind, hnumber,
      run_bind, ih]
    rfl
  | property h hnode howned htarget _ ih =>
    rw [World.resolveWithin_succ h, World.resolveByRules_owned hnode howned, run_bind, htarget]
    exact ih
  | orphan hasks hparent =>
    rw [World.resolveWithin_asks hasks]
    simp only [World.resolveBelow, hparent]
    rfl
  | @unowned _ _ _ _ _ _ _ owner _ hasks hparent _ hlocal ih =>
    rw [World.resolveWithin_owner hasks hparent ih]
    cases owner with
    | empty => rfl
    | fileLocal n => rfl
    | global text => exact absurd rfl (hlocal text)
  | container hasks hparent _ hcontainer ih =>
    rw [World.resolveWithin_owner hasks hparent ih]
    simp only [World.resolveOwned_container hcontainer]
    rfl
  | imported hasks hparent _ hcontainer himport _ ih ih' =>
    rw [World.resolveWithin_owner hasks hparent ih]
    simp only [World.resolveOwned_declaration hcontainer, run_bind, himport]
    exact ih'
  | declared hasks hparent _ hcontainer himport hd ih =>
    rw [World.resolveWithin_owner hasks hparent ih]
    simp only [World.resolveOwned_declaration hcontainer, run_bind, himport, hd]
    rfl
  | undeclared hasks hparent _ hcontainer himport hd ih =>
    rw [World.resolveWithin_owner hasks hparent ih]
    simp only [World.resolveOwned_declaration hcontainer, run_bind, himport, hd]
    rfl

namespace Memory

theorem known?_eq_none_iff {m : Memory} {key : NodeKey} :
    m.known? key = none ↔ m.table.get? key = none ∧ m.resolver.locals.get? key = none := by
  simp [Memory.known?, Resolver.local?]

theorem known?_isSome_iff {m : Memory} {key : NodeKey} :
    (m.known? key).isSome ↔ (m.table.get? key).isSome ∨ (m.resolver.locals.get? key).isSome := by
  simp [Memory.known?, Resolver.local?]

theorem known?_eq_some {m : Memory} {key : NodeKey} {s : Symbol} (h : m.known? key = some s) :
    m.table.get? key = some s ∨ ∃ n, m.resolver.locals.get? key = some n ∧ s = .fileLocal n := by
  cases ht : m.table.get? key with
  | some s' => exact .inl (by simpa [Memory.known?, ht] using h)
  | none =>
    obtain ⟨n, hn, rfl⟩ : ∃ n, m.resolver.locals.get? key = some n ∧ Symbol.fileLocal n = s := by
      simpa [Memory.known?, Resolver.local?, ht] using h
    exact .inr ⟨n, hn, rfl⟩

theorem eq_or_of_get?_remember {m : Memory} {key k : NodeKey} {s s' : Symbol}
    (h : ((remember key s).run m).2.table.get? k = some s') :
    k = key ∧ s' = s ∨ m.table.get? k = some s' :=
  Table.eq_or_of_get?_insert (t := m.table) h

theorem eq_or_of_get?_newLocal {m : Memory} {key k : NodeKey} {n : Nat}
    (h : ((newLocal key).run m).2.resolver.locals.get? k = some n) :
    k = key ∧ n = m.resolver.lastLocal + 1 ∨ m.resolver.locals.get? k = some n :=
  Table.eq_or_of_get?_insert (t := m.resolver.locals) h

/-- The memory `m'` is `m` after some questions: only the journal differs, by no entry. -/
structure Heard (m m' : Memory) : Prop where
  table : m'.table = m.table
  resolver : m'.resolver = m.resolver
  packages : m'.packages = m.packages
  entries : m'.journal.entries = m.journal.entries

theorem Heard.refl (m : Memory) : Heard m m := ⟨rfl, rfl, rfl, rfl⟩

theorem Heard.trans {m₁ m₂ m₃ : Memory} (h : Heard m₁ m₂) (h' : Heard m₂ m₃) : Heard m₁ m₃ :=
  ⟨h'.table.trans h.table, h'.resolver.trans h.resolver, h'.packages.trans h.packages,
    h'.entries.trans h.entries⟩

theorem Heard.known? {m m' : Memory} (h : Heard m m') (key : NodeKey) :
    m'.known? key = m.known? key := by
  rw [Memory.known?, Memory.known?, h.table, h.resolver]

theorem consult_spec {α : Type} (query : Query) (answer : Except OracleError α) (nothing : α)
    (m : Memory) :
    ((consult query answer nothing).run m).1 = answer.toOption.getD nothing ∧
      Heard m ((consult query answer nothing).run m).2 := by
  refine ⟨?_, rfl, rfl, rfl, Journal.consult_entries m.journal query answer nothing⟩
  cases answer <;> rfl

end Memory

namespace World

/-- The declaration of the property that a node sets, without asking twice. -/
def declaredProperty? (w : World) (f : SourceFile) (n : Node) (key : NodeKey) : Option NodeKey :=
  if n.kind = .jsxAttribute then
    match f.arena.parent (f.arena.parent key.node),
      f.arena.identifierText? (f.arena.nameOf key.node) with
    | some element, some name =>
      ((w.collaborators.propsType ⟨key.file, some element⟩).toOption.getD none).bind fun type =>
        ((w.collaborators.properties type name).toOption.getD []).head?
    | _, _ => none
  else none

def declaredImport? (w : World) (n : Node) (key : NodeKey) : Option NodeKey :=
  if n.isImport then ((w.collaborators.aliases key).toOption.getD []).head? else none

theorem propTarget?_spec (w : World) (f : SourceFile) (n : Node) (key : NodeKey) (m : Memory)
    (hkind : n.kind = .jsxAttribute) :
    ((w.propTarget? f key).run m).1 = w.declaredProperty? f n key ∧
      Heard m ((w.propTarget? f key).run m).2 := by
  simp only [propTarget?, declaredProperty?, hkind, if_true]
  cases f.arena.parent (f.arena.parent key.node) with
  | none => exact ⟨rfl, .refl m⟩
  | some element =>
    cases f.arena.identifierText? (f.arena.nameOf key.node) with
    | none => exact ⟨rfl, .refl m⟩
    | some name =>
      have htype := consult_spec (.propsType ⟨key.file, some element⟩)
        (w.collaborators.propsType ⟨key.file, some element⟩) none m
      simp only [run_bind]
      rw [← htype.1]
      cases hrun : (consult (.propsType ⟨key.file, some element⟩)
        (w.collaborators.propsType ⟨key.file, some element⟩) none).run m with
      | mk type m₁ =>
        rw [hrun] at htype
        cases type with
        | none => exact ⟨rfl, htype.2⟩
        | some type =>
          have hprops := consult_spec (.properties type name)
            (w.collaborators.properties type name) [] m₁
          exact ⟨congrArg List.head? hprops.1, htype.2.trans hprops.2⟩

theorem setTarget?_spec {w : World} {f : SourceFile} {n : Node} {key : NodeKey} {m m₁ : Memory}
    {target : Option NodeKey} (h : (w.setTarget? f n key).run m = (target, m₁)) :
    target = w.declaredProperty? f n key ∧ Heard m m₁ := by
  by_cases hkind : n.kind = .jsxAttribute
  · have hs := propTarget?_spec w f n key m hkind
    simp only [setTarget?, hkind, if_true] at h
    simpa only [h] using hs
  · simp only [setTarget?, hkind, if_false] at h
    obtain ⟨rfl, rfl⟩ := Prod.mk.inj h
    exact ⟨by simp [declaredProperty?, hkind], .refl m⟩

theorem importTarget?_spec {w : World} {n : Node} {key : NodeKey} {m m₁ : Memory}
    {target : Option NodeKey} (h : (w.importTarget? n key).run m = (target, m₁)) :
    target = w.declaredImport? n key ∧ Heard m m₁ := by
  by_cases hi : n.isImport = true
  · have hs := consult_spec (.aliases key) (w.collaborators.aliases key) [] m
    simp only [importTarget?, hi, if_true, run_bind] at h
    obtain ⟨rfl, rfl⟩ := Prod.mk.inj h
    exact ⟨by rw [declaredImport?, if_pos hi, ← hs.1], hs.2⟩
  · simp only [importTarget?, hi] at h
    obtain ⟨rfl, rfl⟩ := Prod.mk.inj h
    exact ⟨by simp [declaredImport?, hi], .refl m⟩

end World

theorem AsksOwner.heard {w : World} {key : NodeKey} {m m₁ : Memory} {f : SourceFile} {n : Node}
    (h : AsksOwner w key m f n m₁) : Memory.Heard m m₁ :=
  (World.setTarget?_spec h.target).2

theorem Resolves.entries {w : World} {mayCut : Prop} {links : Nat} {key : NodeKey} {m m' : Memory}
    {s : Symbol} (h : Resolves w mayCut links key m s m') :
    m'.journal.entries = m.journal.entries := by
  induction h with
  | known => rfl
  | cut => rfl
  | missing => rfl
  | block => rfl
  | file _ _ _ hpackage =>
    obtain ⟨rfl, rfl⟩ := Prod.mk.inj hpackage
    rfl
  | counted _ _ _ hnumber _ ih =>
    obtain ⟨rfl, rfl⟩ := Prod.mk.inj hnumber
    exact ih
  | property _ _ _ htarget _ ih => exact ih.trans (World.setTarget?_spec htarget).2.entries
  | orphan hasks _ => exact hasks.heard.entries
  | unowned hasks _ _ _ ih => exact ih.trans hasks.heard.entries
  | container hasks _ _ _ ih => exact ih.trans hasks.heard.entries
  | imported hasks _ _ _ himport _ ih ih' =>
    exact ih'.trans ((World.importTarget?_spec himport).2.entries.trans
      (ih.trans hasks.heard.entries))
  | declared hasks _ _ _ himport _ ih =>
    exact (World.importTarget?_spec himport).2.entries.trans (ih.trans hasks.heard.entries)
  | undeclared hasks _ _ _ himport _ ih =>
    exact (World.importTarget?_spec himport).2.entries.trans (ih.trans hasks.heard.entries)

/-- What is known in the first memory is the same in the second. -/
def Memory.Keeps (m m' : Memory) : Prop :=
  ∀ key, (m.known? key).isSome → m'.table.get? key = m.table.get? key ∧
    m'.resolver.locals.get? key = m.resolver.locals.get? key

namespace Memory.Keeps

variable {m m₁ m₂ : Memory} {key : NodeKey}

theorem refl (m : Memory) : m.Keeps m := fun _ _ => ⟨rfl, rfl⟩

theorem known? (h : m.Keeps m₁) (hk : (m.known? key).isSome) :
    m₁.known? key = m.known? key := by
  obtain ⟨htable, hlocals⟩ := h key hk
  rw [Memory.known?, Memory.known?, Resolver.local?, Resolver.local?, htable, hlocals]

theorem trans (h : m.Keeps m₁) (h' : m₁.Keeps m₂) : m.Keeps m₂ := by
  intro key hk
  obtain ⟨htable, hlocals⟩ := h key hk
  obtain ⟨htable', hlocals'⟩ := h' key (by rwa [h.known? hk])
  exact ⟨htable'.trans htable, hlocals'.trans hlocals⟩

theorem congr (h : m.Keeps m₁) (htable : m₂.table = m₁.table)
    (hlocals : m₂.resolver.locals = m₁.resolver.locals) : m.Keeps m₂ := by
  intro key hk
  rw [htable, hlocals]
  exact h key hk

theorem heard (hheard : Heard m m₁) : m.Keeps m₁ :=
  (refl m).congr hheard.table (congrArg Resolver.locals hheard.resolver)

theorem newLocal (h : m.Keeps m₁) (hunknown : m.known? key = none) :
    m.Keeps ((newLocal key).run m₁).2 := by
  intro k hk
  obtain ⟨htable, hlocals⟩ := h k hk
  refine ⟨htable, ?_⟩
  have hne : k ≠ key := by
    rintro rfl
    simp [hunknown] at hk
  have hget : ((Memory.newLocal key).run m₁).2.resolver.locals.get? k =
      m₁.resolver.locals.get? k := Table.get?_insert_of_ne _ hne _
  rw [hget, hlocals]

theorem remember (h : m.Keeps m₁) (hunknown : m.known? key = none) (s : Symbol) :
    m.Keeps ((remember key s).run m₁).2 := by
  intro k hk
  obtain ⟨htable, hlocals⟩ := h k hk
  refine ⟨?_, hlocals⟩
  have hne : k ≠ key := by
    rintro rfl
    simp [hunknown] at hk
  have hget : ((Memory.remember key s).run m₁).2.table.get? k = m₁.table.get? k :=
    Table.get?_insert_of_ne _ hne _
  rw [hget, htable]

end Memory.Keeps

/-- During a resolution a node may be given a symbol more than once, but only if it had none. -/
theorem Resolves.keeps {w : World} {mayCut : Prop} {links : Nat} {key : NodeKey} {m m₁ : Memory}
    {s : Symbol} (h : Resolves w mayCut links key m s m₁) : m.Keeps m₁ := by
  induction h with
  | known => exact .refl _
  | cut _ h => exact (Memory.Keeps.refl _).newLocal h
  | missing => exact .refl _
  | block => exact .refl _
  | file h _ _ hpackage =>
    obtain ⟨-, rfl⟩ := Prod.mk.inj hpackage
    exact ((Memory.Keeps.refl _).congr rfl rfl).remember h _
  | counted h _ _ hnumber _ ih =>
    obtain ⟨-, rfl⟩ := Prod.mk.inj hnumber
    exact (((Memory.Keeps.refl _).congr rfl rfl).trans ih).remember h _
  | property _ _ _ htarget _ ih =>
    exact (Memory.Keeps.heard (World.setTarget?_spec htarget).2).trans ih
  | orphan hasks _ => exact (Memory.Keeps.heard hasks.heard).newLocal hasks.unknown
  | unowned hasks _ _ _ ih =>
    exact ((Memory.Keeps.heard hasks.heard).trans ih).newLocal hasks.unknown
  | container hasks _ _ _ ih =>
    exact ((Memory.Keeps.heard hasks.heard).trans ih).remember hasks.unknown _
  | imported hasks _ _ _ himport _ ih ih' =>
    exact ((Memory.Keeps.heard hasks.heard).trans ih).trans
      ((Memory.Keeps.heard (World.importTarget?_spec himport).2).trans ih')
  | declared hasks _ _ _ himport _ ih =>
    exact (((Memory.Keeps.heard hasks.heard).trans ih).trans
      (Memory.Keeps.heard (World.importTarget?_spec himport).2)).remember hasks.unknown _
  | undeclared hasks _ _ _ himport _ ih =>
    exact (((Memory.Keeps.heard hasks.heard).trans ih).trans
      (Memory.Keeps.heard (World.importTarget?_spec himport).2)).newLocal hasks.unknown

end SourceIndex
