import Mathlib.Logic.Basic

/-! Runs of a machine that may get stuck.  `step s e` is the state after event `e`,
`none` when the machine does not come back from it. -/

universe u v w

namespace Jos.Lib

variable {S : Type u} {E : Type v} {A : Type w}

/-- `Run step G s es t`: from `s` the events `es` lead to `t`, and each of them meets the
guard `G` in the state it is taken from. -/
inductive Run (step : S → E → Option S) (G : S → E → Prop) : S → List E → S → Prop
  | nil {s} : Run step G s [] s
  | snoc {s t u es e} : Run step G s es t → G t e → step t e = some u → Run step G s (es ++ [e]) u

namespace Run

variable {step : S → E → Option S} {G G' : S → E → Prop} {s t u : S} {es es' : List E}

theorem invariant (I : S → Prop)
    (hstep : ∀ {t e u}, I t → G t e → step t e = some u → I u)
    (h : Run step G s es t) (hs : I s) : I t := by
  induction h with
  | nil => exact hs
  | snoc _ hg hst ih => exact hstep ih hg hst

theorem mono (hG : ∀ t e, G t e → G' t e) (h : Run step G s es t) : Run step G' s es t := by
  induction h with
  | nil => exact .nil
  | snoc _ hg hst ih => exact .snoc ih (hG _ _ hg) hst

theorem append (h : Run step G s es t) (h' : Run step G t es' u) : Run step G s (es ++ es') u := by
  induction h' with
  | nil => simpa using h
  | snoc _ hg hst ih =>
    rw [← List.append_assoc]
    exact .snoc ih hg hst

theorem single {e : E} (hg : G s e) (hst : step s e = some t) : Run step G s [e] t :=
  List.nil_append [e] ▸ .snoc .nil hg hst

theorem ofFoldlM (h : es.foldlM step s = some t) : Run step (fun _ _ => True) s es t := by
  induction es generalizing s with
  | nil =>
    cases h
    exact .nil
  | cons e es ih =>
    rw [List.foldlM_cons] at h
    obtain ⟨u, hu, h⟩ := Option.bind_eq_some_iff.mp h
    exact append (single trivial hu) (ih h)

theorem exists_ofFoldlM [∀ t e, Decidable (G t e)] {P : S → Prop} [DecidablePred P]
    (h : (es.foldlM (fun t e => if G t e then step t e else none) s).any (fun t => decide (P t)) = true) :
    ∃ t, Run step G s es t ∧ P t := by
  induction es generalizing s with
  | nil => exact ⟨s, .nil, of_decide_eq_true h⟩
  | cons e es ih =>
    rw [List.foldlM_cons] at h
    by_cases hg : G s e
    · rw [if_pos hg] at h
      cases hst : step s e with
      | none =>
        rw [hst] at h
        cases h
      | some u =>
        rw [hst] at h
        obtain ⟨t, hrun, ht⟩ := ih h
        exact ⟨t, append (single hg hst) hrun, ht⟩
    · rw [if_neg hg] at h
      cases h

end Run

/-- `Trace T a es a'`: the events `es` take `a` to `a'`, one after another. -/
inductive Trace (T : E → A → A → Prop) : A → List E → A → Prop
  | nil {a} : Trace T a [] a
  | snoc {a b c es e} : Trace T a es b → T e b c → Trace T a (es ++ [e]) c

theorem Run.simulate {step : S → E → Option S} {G : S → E → Prop} {T : E → A → A → Prop}
    {R : S → A → Prop} {s t : S} {es : List E} {a : A}
    (hstep : ∀ {t e u a}, R t a → G t e → step t e = some u → ∃ a', T e a a' ∧ R u a')
    (h : Run step G s es t) (ha : R s a) : ∃ a', Trace T a es a' ∧ R t a' := by
  induction h with
  | nil => exact ⟨a, .nil, ha⟩
  | snoc _ hg hst ih =>
    obtain ⟨a₁, htr, hr⟩ := ih
    obtain ⟨a₂, hT, hr'⟩ := hstep hr hg hst
    exact ⟨a₂, .snoc htr hT, hr'⟩

end Jos.Lib
