import Mathlib.Data.List.Forall2

/-! Runs of computations with a state. A specification says which results and final states are
possible from the initial states of interest; specifications compose along a computation. So do
relations between two computations that run in step. -/

namespace SourceIndex

variable {σ α β : Type}

theorem run_bind (x : StateM σ α) (f : α → StateM σ β) (s : σ) :
    (x >>= f).run s = (f (x.run s).1).run (x.run s).2 := rfl

/-- From every state with `P`, the result and the final state satisfy `Q`. -/
def Ensures (P : σ → Prop) (x : StateM σ α) (Q : α → σ → Prop) : Prop :=
  ∀ s, P s → Q (x.run s).1 (x.run s).2

namespace Ensures

variable {P P' : σ → Prop} {Q Q' : α → σ → Prop} {R : β → σ → Prop}

theorem pure {a : α} (h : ∀ s, P s → Q a s) : Ensures P (Pure.pure a : StateM σ α) Q :=
  fun s hs => h s hs

theorem bind {x : StateM σ α} {f : α → StateM σ β} (hx : Ensures P x Q)
    (hf : ∀ a, Ensures (Q a) (f a) R) : Ensures P (x >>= f) R :=
  fun s hs => hf _ _ (hx s hs)

theorem mono {x : StateM σ α} (hx : Ensures P x Q) (hP : ∀ s, P' s → P s)
    (hQ : ∀ a s, Q a s → Q' a s) : Ensures P' x Q' :=
  fun s hs => hQ _ _ (hx s (hP s hs))

/-- An invariant of every round is one of the whole loop. -/
theorem forM {as : List α} {f : α → StateM σ PUnit}
    (h : ∀ a ∈ as, Ensures P (f a) fun _ => P) : Ensures P (as.forM f) fun _ => P := by
  induction as with
  | nil => exact .pure fun _ hs => hs
  | cons a as ih =>
    exact (h a (by simp)).bind fun _ => ih fun b hb => h b (by simp [hb])

end Ensures

variable {τ γ δ : Type}

/-- From states related by `R`, the results are related by `S` and the final states by `R`. -/
def InStep (R : σ → τ → Prop) (S : α → β → Prop) (x : StateM σ α) (y : StateM τ β) : Prop :=
  ∀ s t, R s t → S (x.run s).1 (y.run t).1 ∧ R (x.run s).2 (y.run t).2

namespace InStep

variable {R : σ → τ → Prop} {S : α → β → Prop} {T : γ → δ → Prop}

theorem pure {a : α} {b : β} (h : S a b) :
    InStep R S (Pure.pure a : StateM σ α) (Pure.pure b : StateM τ β) :=
  fun _ _ hst => ⟨h, hst⟩

theorem bind {x : StateM σ α} {y : StateM τ β} {f : α → StateM σ γ} {g : β → StateM τ δ}
    (hx : InStep R S x y) (hf : ∀ a b, S a b → InStep R T (f a) (g b)) :
    InStep R T (x >>= f) (y >>= g) := by
  intro s t hst
  obtain ⟨ha, hst'⟩ := hx s t hst
  exact hf _ _ ha _ _ hst'

/-- Two computations with the same result, continued alike. -/
theorem bind_eq {x : StateM σ α} {y : StateM τ α} {f : α → StateM σ γ} {g : α → StateM τ δ}
    (hx : InStep R Eq x y) (hf : ∀ a, InStep R T (f a) (g a)) : InStep R T (x >>= f) (y >>= g) :=
  hx.bind fun a _ hab => hab ▸ hf a

theorem forM {as : List α} {f : α → StateM σ PUnit} {g : α → StateM τ PUnit}
    (h : ∀ a ∈ as, InStep R Eq (f a) (g a)) : InStep R Eq (as.forM f) (as.forM g) := by
  induction as with
  | nil => exact .pure rfl
  | cons a as ih =>
    exact (h a (by simp)).bind_eq fun _ => ih fun b hb => h b (by simp [hb])

theorem mapM {as : List α} {f : α → StateM σ γ} {g : α → StateM τ δ}
    (h : ∀ a ∈ as, InStep R T (f a) (g a)) :
    InStep R (List.Forall₂ T) (as.mapM f) (as.mapM g) := by
  induction as with
  | nil => exact .pure .nil
  | cons a as ih =>
    rw [List.mapM_cons, List.mapM_cons]
    refine (h a (by simp)).bind fun c d hcd => ?_
    refine (ih fun b hb => h b (by simp [hb])).bind fun cs ds hcds => ?_
    exact .pure (.cons hcd hcds)

end InStep

end SourceIndex
