import Mathlib.Logic.Function.Basic

/-! A ring of `size` slots that holds the end of a list: the elements from position `k` on,
each in the slot of its position. -/

universe u

namespace Jos.Lib

variable {α : Type u}

structure Holds (size : Nat) (buf : Nat → α) (xs : List α) (k : Nat) : Prop where
  le : k ≤ xs.length
  fits : xs.length ≤ k + size
  slot : ∀ j, k ≤ j → xs[j]? = none ∨ xs[j]? = some (buf (j % size))

namespace Holds

variable {size k : Nat} {buf : Nat → α} {xs : List α} {x : α}

theorem mod_ne {i j : Nat} (hij : i < j) (hj : j < i + size) : i % size ≠ j % size := by
  intro h
  have hmod : (j - i) % size = 0 := Nat.sub_mod_eq_zero_of_mod_eq h.symm
  rw [Nat.mod_eq_of_lt (by omega)] at hmod
  omega

theorem get (h : Holds size buf xs k) (hk : k < xs.length) : xs[k]? = some (buf (k % size)) := by
  apply (h.slot k (Nat.le_refl k)).resolve_left
  rw [List.getElem?_eq_getElem hk]
  exact Option.some_ne_none _

theorem drop (h : Holds size buf xs k) (hk : k < xs.length) : Holds size buf xs (k + 1) where
  le := hk
  fits := by
    have := h.fits
    omega
  slot j hj := h.slot j (by omega)

theorem store (h : Holds size buf xs k) (hroom : xs.length < k + size) :
    Holds size (Function.update buf (xs.length % size) x) xs k where
  le := h.le
  fits := h.fits
  slot j hj := by
    by_cases hlt : j < xs.length
    · rw [Function.update_of_ne (mod_ne hlt (by omega))]
      exact h.slot j hj
    · exact .inl (List.getElem?_eq_none (Nat.le_of_not_lt hlt))

theorem push (h : Holds size buf xs k) (hroom : xs.length < k + size)
    (hx : buf (xs.length % size) = x) : Holds size buf (xs ++ [x]) k where
  le := by
    have := h.le
    rw [List.length_append, List.length_singleton]
    omega
  fits := by
    rw [List.length_append, List.length_singleton]
    omega
  slot j hj := by
    rcases Nat.lt_trichotomy j xs.length with hlt | rfl | hgt
    · rw [List.getElem?_append_left hlt]
      exact h.slot j hj
    · rw [List.getElem?_concat_length, hx]
      exact .inr rfl
    · apply Or.inl
      apply List.getElem?_eq_none
      rw [List.length_append, List.length_singleton]
      omega

end Holds

def arc (size h t : Nat) : List Nat :=
  (List.range ((t + size - h) % size)).map fun i => (h + i) % size

theorem mod_distance {size k n : Nat} (hk : k ≤ n) (hn : n < k + size) :
    (n % size + size - k % size) % size = n - k := by
  have hlt : k % size < size := Nat.mod_lt _ (by omega)
  have hmod : n % size = (k % size + (n - k)) % size := by
    rw [Nat.mod_add_mod]
    congr 1
    omega
  rw [hmod]
  by_cases hwrap : k % size + (n - k) < size
  · rw [Nat.mod_eq_of_lt hwrap, show k % size + (n - k) + size - k % size = n - k + size by omega,
      Nat.add_mod_right]
    exact Nat.mod_eq_of_lt (by omega)
  · have hsub : (k % size + (n - k)) % size = k % size + (n - k) - size := by
      rw [Nat.mod_eq_sub_mod (by omega)]
      exact Nat.mod_eq_of_lt (by omega)
    rw [hsub, show k % size + (n - k) - size + size - k % size = n - k by omega]
    exact Nat.mod_eq_of_lt (by omega)

theorem arc_mod {size k n : Nat} (hk : k ≤ n) (hn : n < k + size) :
    arc size (k % size) (n % size) = (List.range (n - k)).map fun i => (k + i) % size := by
  simp only [arc, mod_distance hk hn, Nat.mod_add_mod]

theorem Holds.map_range {size k : Nat} {buf : Nat → α} {xs : List α} (h : Holds size buf xs k) :
    ((List.range (xs.length - k)).map fun i => buf ((k + i) % size)) = xs.drop k := by
  apply List.ext_getElem?
  intro i
  rw [List.getElem?_drop, List.getElem?_map]
  by_cases hi : k + i < xs.length
  · have hslot := (h.slot (k + i) (Nat.le_add_right k i)).resolve_left (by
      rw [List.getElem?_eq_getElem hi]
      exact Option.some_ne_none _)
    rw [hslot, List.getElem?_range (by omega)]
    rfl
  · rw [List.getElem?_eq_none (Nat.le_of_not_lt hi), List.getElem?_eq_none (by
      rw [List.length_range]
      omega)]
    rfl

theorem Holds.map_arc {size k : Nat} {buf : Nat → α} {xs : List α} (h : Holds size buf xs k)
    (hroom : xs.length < k + size) :
    (arc size (k % size) (xs.length % size)).map buf = xs.drop k := by
  rw [arc_mod h.le hroom, List.map_map]
  exact h.map_range

end Jos.Lib
