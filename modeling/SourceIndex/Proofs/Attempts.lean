import SourceIndex.LiveFile
import SourceIndex.Proofs.Run

/-! Attempts and what they would do without bounds. An attempt follows a computation that cannot
overflow: as long as it does not overflow itself, it gives the same result and comes to a state that
is related. Where it overflows there is a reason for that, and all it did by then is part of what
the computation does. -/

namespace SourceIndex

/-- States that hold a list of what was done. -/
class Logged (S : Type) where
  log : S → List Effect

export Logged (log)

instance : Logged Memory := ⟨fun m => m.journal.toList⟩

instance : Logged Session := ⟨fun s => s.journal.toList⟩

instance : Logged Recorder := ⟨fun r => log r.session⟩

instance {S σ : Type} [Logged S] : Logged (Live S σ) := ⟨fun l => log l.state⟩

/-- A state within another one, with the same log. -/
structure Part {S T : Type} [Logged S] [Logged T] (get : T → S) (put : S → T → T) : Prop where
  log_get : ∀ t, log (get t) = log t
  log_put : ∀ s t, log (put s t) = log s

section

variable {S ε ε' α β : Type} {x : Attempt S ε α} {f : α → Attempt S ε β} {s s' : S}

theorem bind_of_ok {a : α} (h : x s = .ok a s') : (x >>= f) s = f a s' := by
  change EStateM.bind x f s = f a s'
  simp only [EStateM.bind, h]

theorem bind_of_error {fault : Fault ε} (h : x s = .error fault s') :
    (x >>= f) s = .error fault s' := by
  change EStateM.bind x f s = .error fault s'
  simp only [EStateM.bind, h]

namespace Attempt

theorem caught_of_ok {a : α} (h : x s = .ok a s') :
    (x.caught : Attempt S ε' (Except ε α)) s = .ok (.ok a) s' := by
  simp only [caught, h]

theorem caught_of_error {e : ε} (h : x s = .error (.error e) s') :
    (x.caught : Attempt S ε' (Except ε α)) s = .ok (.error e) s' := by
  simp only [caught, h]

theorem caught_of_overflow {o : Overflow} (h : x s = .error (.overflow o) s') :
    (x.caught : Attempt S ε' (Except ε α)) s = .error (.overflow o) s' := by
  simp only [caught, h]

theorem mapError_of_ok (f : ε → ε') {a : α} (h : x s = .ok a s') : x.mapError f s = .ok a s' := by
  simp only [mapError, h]

theorem mapError_of_error (f : ε → ε') {e : ε} (h : x s = .error (.error e) s') :
    x.mapError f s = .error (.error (f e)) s' := by
  simp only [mapError, h]

theorem mapError_of_overflow (f : ε → ε') {o : Overflow} (h : x s = .error (.overflow o) s') :
    x.mapError f s = .error (.overflow o) s' := by
  simp only [mapError, h]

end Attempt

end

def overflow? {S ε α : Type} : EStateM.Result (Fault ε) S α → Option Overflow
  | .error (.overflow o) _ => some o
  | _ => none

theorem overflow?_eq_some_iff {S ε α : Type} {result : EStateM.Result (Fault ε) S α}
    {o : Overflow} : overflow? result = some o ↔ ∃ s, result = .error (.overflow o) s := by
  cases result with
  | ok a s => simp [overflow?]
  | error fault s => cases fault <;> simp [overflow?]

/-- A question or a report, of which a sink takes no notice. -/
def Effect.isTalk : Effect → Bool
  | ask _ | report _ => true
  | _ => false

/-- Nothing but talk in between. -/
def Talked {S : Type} [Logged S] (s s' : S) : Prop :=
  ∃ talk, log s' = log s ++ talk ∧ ∀ e ∈ talk, e.isTalk = true

def stateAfter {ε S α : Type} : EStateM.Result ε S α → S
  | .ok _ s | .error _ s => s

def Talks {S ε α : Type} [Logged S] (x : Attempt S ε α) : Prop := ∀ s, Talked s (stateAfter (x s))

section

variable {S ε α β : Type} [Logged S] {s s' s'' : S}

theorem Talked.of_eq (h : log s' = log s) : Talked s s' := ⟨[], by simp [h], by simp⟩

theorem Talked.refl (s : S) : Talked s s := .of_eq rfl

theorem Talked.trans (h : Talked s s') (h' : Talked s' s'') : Talked s s'' := by
  obtain ⟨talk, hlog, htalk⟩ := h
  obtain ⟨talk', hlog', htalk'⟩ := h'
  refine ⟨talk ++ talk', by rw [hlog', hlog, List.append_assoc], fun e he => ?_⟩
  exact (List.mem_append.mp he).elim (htalk e) (htalk' e)

theorem Talked.grows (h : Talked s s') : log s <+: log s' := by
  obtain ⟨talk, hlog, -⟩ := h
  exact hlog ▸ List.prefix_append _ _

theorem Talks.bind {x : Attempt S ε α} {f : α → Attempt S ε β} (hx : Talks x)
    (hf : ∀ a, Talks (f a)) : Talks (x >>= f) := by
  intro s
  have htalked := hx s
  cases hrun : x s with
  | ok a s' =>
    rw [hrun] at htalked
    rw [bind_of_ok hrun]
    exact htalked.trans (hf a s')
  | error fault s' =>
    rw [hrun] at htalked
    rw [bind_of_error hrun]
    exact htalked

end

variable {S T S' T' ε α β : Type} [Logged S] [Logged T] [Logged S'] [Logged T']

/-- How an attempt ends where a computation without bounds has this result and this state. -/
def Matches (Q F : S → T → Prop) (full : Overflow → S → Prop) (done : Except ε α × T) :
    EStateM.Result (Fault ε) S α → Prop
  | .ok a s => done.1 = .ok a ∧ Q s done.2
  | .error (.error e) s => done.1 = .error e ∧ F s done.2
  | .error (.overflow o) s => full o s ∧ log s <+: log done.2

/-- From states with `P` the attempt comes to states with `Q`, after an error to states with `F`.
An overflow has a reason, which is told by `full`. -/
structure Follows (P Q F : S → T → Prop) (full : Overflow → S → Prop) (x : Attempt S ε α)
    (y : StateM T (Except ε α)) : Prop where
  grows : ∀ t, log t <+: log (y.run t).2
  ends : ∀ s t, P s t → Matches Q F full (y.run t) (x s)

/-- An attempt without errors. -/
def Agrees (P Q : S → T → Prop) (full : Overflow → S → Prop) (x : Attempt S ε α)
    (y : StateM T α) : Prop :=
  Follows P Q (fun _ _ => False) full x (Except.ok <$> y)

/-- After an error nothing more is done. -/
def unlessError (y : StateM T (Except ε α)) (g : α → StateM T (Except ε β)) :
    StateM T (Except ε β) := do
  match ← y with
  | .ok a => g a
  | .error e => pure (.error e)

section

variable {P Q R F : S → T → Prop} {full : Overflow → S → Prop}

theorem Matches.mono {F' : S → T → Prop} {full' : Overflow → S → Prop}
    {done : Except ε α × T} {result : EStateM.Result (Fault ε) S α}
    (h : Matches Q F full done result) (hF : ∀ s t, F s t → F' s t)
    (hfull : ∀ o s, full o s → full' o s) : Matches Q F' full' done result := by
  cases result with
  | ok a s => exact h
  | error fault s =>
    cases fault with
    | error e => exact ⟨h.1, hF _ _ h.2⟩
    | overflow o => exact ⟨hfull o s h.1, h.2⟩

/-- It is enough to follow from the results that are possible. -/
theorem Follows.bind_of {x : Attempt S ε α} {y : StateM T (Except ε α)}
    {f : α → Attempt S ε β} {g : α → StateM T (Except ε β)} (hx : Follows P Q F full x y)
    (hf : ∀ a t, (y.run t).1 = .ok a → Follows Q R F full (f a) (g a)) :
    Follows P R F full (x >>= f) (unlessError y g) := by
  have hgrows : ∀ t, log (y.run t).2 <+: log ((unlessError y g).run t).2 := by
    intro t
    simp only [unlessError, run_bind]
    cases hresult : (y.run t).1 with
    | ok a => exact (hf a t hresult).grows _
    | error e => exact List.prefix_refl _
  refine ⟨fun t => (hx.grows t).trans (hgrows t), fun s t hst => ?_⟩
  have hends := hx.ends s t hst
  have hrest := hgrows t
  simp only [unlessError, run_bind] at hrest ⊢
  cases hrun : x s with
  | ok a s' =>
    rw [hrun] at hends
    rw [bind_of_ok hrun, hends.1]
    exact (hf a t hends.1).ends _ _ hends.2
  | error fault s' =>
    rw [hrun] at hends
    rw [bind_of_error hrun]
    cases fault with
    | error e =>
      rw [hends.1]
      exact ⟨rfl, hends.2⟩
    | overflow o => exact ⟨hends.1, hends.2.trans hrest⟩

theorem Follows.bind {x : Attempt S ε α} {y : StateM T (Except ε α)}
    {f : α → Attempt S ε β} {g : α → StateM T (Except ε β)} (hx : Follows P Q F full x y)
    (hf : ∀ a, Follows Q R F full (f a) (g a)) :
    Follows P R F full (x >>= f) (unlessError y g) :=
  hx.bind_of fun a _ _ => hf a

theorem Agrees.follows {x : Attempt S ε α} {y : StateM T α} (h : Agrees P Q full x y) :
    Follows P Q F full x (Except.ok <$> y) :=
  ⟨h.grows, fun s t hst => (h.ends s t hst).mono (fun _ _ => False.elim) fun _ _ h => h⟩

theorem Agrees.then {x : Attempt S ε α} {y : StateM T α} {f : α → Attempt S ε β}
    {g : α → StateM T (Except ε β)} (hx : Agrees P Q full x y)
    (hf : ∀ a, Follows Q R F full (f a) (g a)) : Follows P R F full (x >>= f) (y >>= g) :=
  hx.follows.bind hf

theorem Agrees.bind_of {x : Attempt S ε α} {y : StateM T α} {f : α → Attempt S ε β}
    {g : α → StateM T β} (hx : Agrees P Q full x y)
    (hf : ∀ t, Agrees Q R full (f (y.run t).1) (g (y.run t).1)) :
    Agrees P R full (x >>= f) (y >>= g) := by
  rw [Agrees, map_bind]
  exact Follows.bind_of hx fun a t ha => Except.ok.inj ha ▸ hf t

theorem Agrees.bind {x : Attempt S ε α} {y : StateM T α} {f : α → Attempt S ε β}
    {g : α → StateM T β} (hx : Agrees P Q full x y) (hf : ∀ a, Agrees Q R full (f a) (g a)) :
    Agrees P R full (x >>= f) (y >>= g) :=
  hx.bind_of fun _ => hf _

theorem Agrees.pure (a : α) : Agrees P P full (Pure.pure a : Attempt S ε α) (Pure.pure a) :=
  ⟨fun _ => List.prefix_refl _, fun _ _ hst => ⟨rfl, hst⟩⟩

theorem Follows.weaken {full' : Overflow → S → Prop} {x : Attempt S ε α}
    {y : StateM T (Except ε α)} (h : Follows P Q F full x y) (hfull : ∀ o s, full o s → full' o s) :
    Follows P Q F full' x y :=
  ⟨h.grows, fun s t hst => (h.ends s t hst).mono (fun _ _ h => h) hfull⟩

/-- First the computation has something to do by itself. -/
theorem Follows.modify {P' : S → T → Prop} {x : Attempt S ε α} {y : StateM T (Except ε α)}
    {g : T → T} (hlog : ∀ t, log (g t) = log t) (hP : ∀ s t, P s t → P' s (g t))
    (h : Follows P' Q F full x y) : Follows P Q F full x (do modify g; y) := by
  refine ⟨fun t => ?_, fun s t hst => h.ends s (g t) (hP s t hst)⟩
  have hgrows := h.grows (g t)
  rw [hlog] at hgrows
  exact hgrows

/-- Both look at their states, which look the same. -/
theorem Follows.get {V : S → T → Prop} {f : S → Attempt S ε α}
    {g : T → StateM T (Except ε α)} (hsame : ∀ s t, P s t → V s t) (hsome : ∀ t, ∃ s, V s t)
    (hf : ∀ s t, V s t → Follows P Q F full (f s) (g t)) :
    Follows P Q F full (do f (← MonadState.get)) (do g (← MonadState.get)) := by
  refine ⟨fun t => ?_, fun s t hst => (hf s t (hsame s t hst)).ends s t hst⟩
  obtain ⟨s, hst⟩ := hsome t
  exact (hf s t hst).grows t

theorem Agrees.get {V : S → T → Prop} {f : S → Attempt S ε α} {g : T → StateM T α}
    (hsame : ∀ s t, P s t → V s t) (hsome : ∀ t, ∃ s, V s t)
    (hf : ∀ s t, V s t → Agrees P Q full (f s) (g t)) :
    Agrees P Q full (do f (← MonadState.get)) (do g (← MonadState.get)) :=
  Follows.get hsame hsome hf

theorem Agrees.forM {as : List β} {f : β → Attempt S ε PUnit} {g : β → StateM T PUnit}
    (h : ∀ a ∈ as, Agrees P P full (f a) (g a)) : Agrees P P full (as.forM f) (as.forM g) := by
  induction as with
  | nil => exact .pure _
  | cons a as ih => exact (h a (by simp)).bind fun _ => ih fun b hb => h b (by simp [hb])

theorem Agrees.mapM {as : List β} {f : β → Attempt S ε α} {g : β → StateM T α}
    (h : ∀ a ∈ as, Agrees P P full (f a) (g a)) : Agrees P P full (as.mapM f) (as.mapM g) := by
  induction as with
  | nil => exact .pure _
  | cons a as ih =>
    rw [List.mapM_cons, List.mapM_cons]
    refine (h a (by simp)).bind fun c => ?_
    refine (ih fun b hb => h b (by simp [hb])).bind fun cs => .pure _

/-- An attempt on a part of the state. -/
theorem Follows.within {P' Q' F' : S' → T' → Prop} {full' : Overflow → S' → Prop}
    {x : Attempt S ε α} {y : StateM T (Except ε α)} {get : S' → S} {put : S → S' → S'}
    (get' : T' → T) (put' : T → T' → T') (hx : Follows P Q F full x y) (hpart : Part get put)
    (hpart' : Part get' put') (hP : ∀ s t, P' s t → P (get s) (get' t))
    (hQ : ∀ s t s' t', P' s t → Q s' t' → Q' (put s' s) (put' t' t))
    (hF : ∀ s t s' t', P' s t → F s' t' → F' (put s' s) (put' t' t))
    (hfull : ∀ s s' o, full o s' → full' o (put s' s)) :
    Follows P' Q' F' full' (Attempt.within get put x)
      (modifyGet fun t => ((y.run (get' t)).1, put' (y.run (get' t)).2 t)) := by
  refine ⟨fun t => ?_, fun s t hst => ?_⟩
  · have hgrows := hx.grows (get' t)
    rw [hpart'.log_get, ← hpart'.log_put _ t] at hgrows
    exact hgrows
  have hends := hx.ends (get s) (get' t) (hP s t hst)
  simp only [Attempt.within]
  cases hrun : x (get s) with
  | ok a s' =>
    rw [hrun] at hends
    exact ⟨hends.1, hQ _ _ _ _ hst hends.2⟩
  | error fault s' =>
    rw [hrun] at hends
    cases fault with
    | error e => exact ⟨hends.1, hF _ _ _ _ hst hends.2⟩
    | overflow o =>
      refine ⟨hfull _ _ _ hends.1, ?_⟩
      rw [hpart.log_put]
      exact hends.2.trans (by rw [← hpart'.log_put _ t]; exact List.prefix_refl _)

end

end SourceIndex
