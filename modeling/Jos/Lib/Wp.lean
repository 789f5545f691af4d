import Mathlib.Logic.Basic

/-! Computations on a state that may stop for good, and what they end in. -/

universe u

namespace Jos.Lib

variable {σ α β ε : Type u} {D : Prop} {m : StateT σ Option α} {s t : σ} {Q Q' : α → σ → Prop}

/-- From `s`, the computation `m` ends in `Q`; it stops for good only if `D`. -/
def Wp (D : Prop) (m : StateT σ Option α) (s : σ) (Q : α → σ → Prop) : Prop :=
  match m.run s with
  | none => D
  | some (a, t) => Q a t

def require (p : Prop) [Decidable p] : StateT σ Option PUnit := if p then pure ⟨⟩ else failure

namespace Wp

theorem pure {a : α} (h : Q a s) : Wp D (pure a) s Q := h

theorem get {Q : σ → σ → Prop} (h : Q s s) : Wp D get s Q := h

theorem modify {f : σ → σ} {Q : PUnit → σ → Prop} (h : Q ⟨⟩ (f s)) : Wp D (modify f) s Q := h

theorem bind {f : α → StateT σ Option β} {Q : β → σ → Prop}
    (h : Wp D m s fun a t => Wp D (f a) t Q) : Wp D (m >>= f) s Q := by
  rw [Wp] at h ⊢
  rw [StateT.run_bind]
  cases hm : m.run s with
  | none =>
    rw [hm] at h
    exact h
  | some r =>
    rw [hm] at h
    exact h

theorem map {f : α → β} {Q : β → σ → Prop} (h : Wp D m s fun a t => Q (f a) t) :
    Wp D (f <$> m) s Q := by
  rw [Wp] at h ⊢
  rw [StateT.run_map]
  cases hm : m.run s with
  | none =>
    rw [hm] at h
    exact h
  | some r =>
    rw [hm] at h
    exact h

theorem mono (h : Wp D m s Q) (hQ : ∀ a t, Q a t → Q' a t) : Wp D m s Q' := by
  rw [Wp] at h ⊢
  split at h
  · exact h
  · exact hQ _ _ h

theorem and (h : Wp D m s Q) (h' : Wp True m s Q') : Wp D m s fun a t => Q a t ∧ Q' a t := by
  rw [Wp] at h h' ⊢
  split at h
  · exact h
  · next a t hm =>
    rw [hm] at h'
    exact ⟨h, h'⟩

theorem any (h : ∀ a t, Q a t) : Wp True m s Q := by
  rw [Wp]
  split
  · exact trivial
  · exact h _ _

theorem require {p : Prop} [Decidable p] {Q : PUnit → σ → Prop} (h : p → Q ⟨⟩ s) (hD : ¬ p → D) :
    Wp D (require p) s Q := by
  rw [Lib.require]
  split
  · next hp => exact h hp
  · next hp => exact hD hp

theorem ite {p : Prop} [Decidable p] {m' : StateT σ Option α} (h : p → Wp D m s Q)
    (h' : ¬ p → Wp D m' s Q) : Wp D (if p then m else m') s Q := by
  split
  · next hp => exact h hp
  · next hp => exact h' hp

theorem ends {a : α} (h : Wp D m s Q) (hm : m.run s = some (a, t)) : Q a t := by
  rw [Wp, hm] at h
  exact h

theorem exists_run (h : Wp False m s Q) : ∃ a t, m.run s = some (a, t) ∧ Q a t := by
  rw [Wp] at h
  split at h
  · exact h.elim
  · next a t hm => exact ⟨a, t, hm, h⟩

section Except

variable {m : ExceptT ε (StateT σ Option) α} {Q : Except ε β → σ → Prop}

theorem bindE {f : α → ExceptT ε (StateT σ Option) β}
    (h : Wp D m.run s fun r t =>
      match r with
      | .ok a => Wp D (f a).run t Q
      | .error e => Q (.error e) t) : Wp D (m >>= f).run s Q := by
  rw [ExceptT.run_bind]
  refine bind (mono h fun r t hr => ?_)
  cases r with
  | ok a => exact hr
  | error e => exact hr

theorem pureE {a : β} (h : Q (.ok a) s) : Wp D (Pure.pure a : ExceptT ε (StateT σ Option) β).run s Q :=
  h

theorem throwE {e : ε} (h : Q (.error e) s) :
    Wp D (throw e : ExceptT ε (StateT σ Option) β).run s Q :=
  h

theorem liftE {m : StateT σ Option β} (h : Wp D m s fun a t => Q (.ok a) t) :
    Wp D (liftM m : ExceptT ε (StateT σ Option) β).run s Q := by
  change Wp D (Except.ok <$> m) s Q
  exact map h

theorem bindL {m : StateT σ Option α} {f : α → ExceptT ε (StateT σ Option) β}
    (h : Wp D m s fun a t => Wp D (f a).run t Q) :
    Wp D (liftM m >>= f : ExceptT ε (StateT σ Option) β).run s Q :=
  bindE (liftE h)

end Except

end Wp

end Jos.Lib
