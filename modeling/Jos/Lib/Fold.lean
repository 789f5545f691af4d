import Mathlib.Data.List.Basic

/-! Loops that may fail, as `foldlM` in `Option`. -/

universe u v

namespace Jos.Lib

variable {S : Type u} {A : Type v}

theorem foldlM_range (f : S → Nat → Option S) (P : Nat → S → Prop) {n : Nat} {s : S} (h0 : P 0 s)
    (hstep : ∀ i s, i < n → P i s → ∃ s', f s i = some s' ∧ P (i + 1) s') :
    ∃ s', (List.range n).foldlM f s = some s' ∧ P n s' := by
  induction n with
  | zero => exact ⟨s, rfl, h0⟩
  | succ n ih =>
    obtain ⟨s', hs', hP⟩ := ih fun i s hi => hstep i s (Nat.lt_succ_of_lt hi)
    obtain ⟨s'', hs'', hP'⟩ := hstep n s' (Nat.lt_succ_self n) hP
    refine ⟨s'', ?_, hP'⟩
    rw [List.range_succ, List.foldlM_append, hs']
    simp [hs'']

theorem foldlM_range_keeps {f : S → Nat → Option S} (P : Nat → S → Prop) {n : Nat} {s t : S}
    (hstep : ∀ i s s', i < n → P i s → f s i = some s' → P (i + 1) s')
    (h : (List.range n).foldlM f s = some t) (h0 : P 0 s) : P n t := by
  induction n generalizing t with
  | zero =>
    cases h
    exact h0
  | succ n ih =>
    rw [List.range_succ, List.foldlM_append] at h
    obtain ⟨s', hs', h⟩ := Option.bind_eq_some_iff.1 h
    have hn := ih (fun i s s' hi => hstep i s s' (Nat.lt_succ_of_lt hi)) hs'
    rw [List.foldlM_cons] at h
    obtain ⟨s'', hs'', h⟩ := Option.bind_eq_some_iff.1 h
    cases h
    exact hstep n s' _ (Nat.lt_succ_self n) hn hs''

theorem foldlM_keeps {f : S → A → Option S} {P : S → Prop} {l : List A} {s t : S}
    (hstep : ∀ a s s', a ∈ l → P s → f s a = some s' → P s')
    (h : l.foldlM f s = some t) (h0 : P s) : P t := by
  induction l generalizing s with
  | nil =>
    cases h
    exact h0
  | cons a l ih =>
    rw [List.foldlM_cons] at h
    obtain ⟨s', hs', h'⟩ := Option.bind_eq_some_iff.1 h
    exact ih (fun a s s' ha => hstep a s s' (List.mem_cons_of_mem _ ha)) h'
      (hstep a s s' List.mem_cons_self h0 hs')

end Jos.Lib
