import Jos.Kern.Env
import Jos.Kern.FreeList
import Mathlib.Data.Fintype.Sigma
import Mathlib.Data.Fintype.Sum
import Mathlib.Tactic.DeriveFintype

/-! The address spaces below `UTOP` as a finite table of references to pages, and the
invariant that ties the page tables in memory, the reference counts and the free list to
it. -/

namespace Jos.Kern

open Lib Phys

abbrev Pdx := Fin 955

abbrev Ptx := Fin 1024

/-- The references to pages that `pp_ref` counts: the page directory of an environment,
the page table of a directory entry, the page of a table entry. -/
inductive Ref
  | dir (e : EnvIx)
  | pde (e : EnvIx) (i : Pdx)
  | pte (e : EnvIx) (i : Pdx) (j : Ptx)
  deriving DecidableEq, Fintype

def Ref.Structural : Ref → Prop
  | .pte _ _ _ => False
  | _ => True

abbrev Dirs := EnvIx → Option Nat

def table (m : Phys) (ds : Dirs) (e : EnvIx) (i : Pdx) : Option Nat :=
  (ds e).bind fun d => present (m.mem d i)

def entry (m : Phys) (ds : Dirs) (e : EnvIx) (i : Pdx) (j : Ptx) : Word :=
  match table m ds e i with
  | none => 0
  | some t => m.mem t j

def target (m : Phys) (ds : Dirs) : Ref → Option Nat
  | .dir e => ds e
  | .pde e i => table m ds e i
  | .pte e i j => present (entry m ds e i j)

theorem entry_eq_mem {m : Phys} {ds : Dirs} {e : EnvIx} {i : Pdx} {t : Nat}
    (h : table m ds e i = some t) (j : Ptx) : entry m ds e i j = m.mem t j := by
  rw [entry, h]

theorem entry_eq_zero {m : Phys} {ds : Dirs} {e : EnvIx} {i : Pdx}
    (h : table m ds e i = none) (j : Ptx) : entry m ds e i j = 0 := by
  rw [entry, h]

theorem table_eq {m : Phys} {ds : Dirs} {e : EnvIx} {d : Nat} (h : ds e = some d) (i : Pdx) :
    table m ds e i = present (m.mem d i) := by
  rw [table, h, Option.bind_some]

/-! Which references change when a page is written. -/

section Write

variable {m : Phys} {ds : Dirs}

theorem table_setPage {p : Nat} {f : Nat → Word} (hd : ∀ e, ds e ≠ some p) :
    table (m.setPage p f) ds = table m ds := by
  funext e i
  cases h : ds e with
  | none => rw [table, table, h]; rfl
  | some d =>
    have hne : d ≠ p := by
      rintro rfl
      exact hd e h
    rw [table_eq h, table_eq h, mem_setPage_of_ne m f hne]

theorem entry_setPage {p : Nat} {f : Nat → Word} (hd : ∀ e, ds e ≠ some p)
    (ht : ∀ e i, table m ds e i ≠ some p) : entry (m.setPage p f) ds = entry m ds := by
  funext e i j
  have htab := congrFun (congrFun (table_setPage (m := m) (f := f) hd) e) i
  cases h : table m ds e i with
  | none => rw [entry_eq_zero (htab.trans h), entry_eq_zero h]
  | some t =>
    have hne : t ≠ p := by
      rintro rfl
      exact ht e i h
    rw [entry_eq_mem (htab.trans h), entry_eq_mem h, mem_setPage_of_ne m f hne]

theorem target_setPage {p : Nat} {f : Nat → Word}
    (hp : ∀ r : Ref, r.Structural → target m ds r ≠ some p) :
    target (m.setPage p f) ds = target m ds := by
  have hd : ∀ e, ds e ≠ some p := fun e => hp (.dir e) trivial
  have ht : ∀ e i, table m ds e i ≠ some p := fun e i => hp (.pde e i) trivial
  funext r
  cases r with
  | dir e => rfl
  | pde e i => simp only [target, table_setPage hd]
  | pte e i j => simp only [target, entry_setPage hd ht]

/-- No page table or directory is referred to twice, or mapped. -/
def Exclusive (f : Ref → Option Nat) : Prop :=
  ∀ r r' p, r.Structural → f r = some p → f r' = some p → r = r'

theorem table_store_table (hx : Exclusive (target m ds)) {e : EnvIx} {i : Pdx} {t : Nat}
    (ht : table m ds e i = some t) (j : Nat) (w : Word) :
    table (m.store t j w) ds = table m ds := by
  apply table_setPage
  intro e' he'
  have := hx (.dir e') (.pde e i) t trivial he' ht
  cases this

theorem entry_store_table (hx : Exclusive (target m ds)) {e : EnvIx} {i : Pdx} {t : Nat}
    (ht : table m ds e i = some t) (j : Ptx) (w : Word) (e' : EnvIx) (i' : Pdx) (j' : Ptx) :
    entry (m.store t j w) ds e' i' j' =
      if e' = e ∧ i' = i ∧ j' = j then w else entry m ds e' i' j' := by
  have htab := congrFun (congrFun (table_store_table hx ht j w) e') i'
  cases h : table m ds e' i' with
  | none =>
    have hne : ¬(e' = e ∧ i' = i ∧ j' = j) := by
      rintro ⟨rfl, rfl, -⟩
      rw [ht] at h
      cases h
    rw [entry_eq_zero (htab.trans h), entry_eq_zero h, if_neg hne]
  | some t' =>
    rw [entry_eq_mem (htab.trans h), entry_eq_mem h]
    by_cases htt : t' = t
    · subst htt
      have := hx (.pde e' i') (.pde e i) _ trivial h ht
      cases this
      by_cases hj : j' = j
      · subst hj; simp [Phys.store]
      · have hv : (j' : Nat) ≠ j := fun hv => hj (Fin.ext hv)
        simp [Phys.store, hv, hj]
    · have hne : ¬(e' = e ∧ i' = i ∧ j' = j) := by
        rintro ⟨rfl, rfl, -⟩
        rw [ht] at h
        exact htt (Option.some.inj h).symm
      rw [Phys.store, mem_setPage_of_ne m _ htt, if_neg hne]

theorem target_store_table (hx : Exclusive (target m ds)) {e : EnvIx} {i : Pdx} {t : Nat}
    (ht : table m ds e i = some t) (j : Ptx) (w : Word) :
    target (m.store t j w) ds = Function.update (target m ds) (.pte e i j) (present w) := by
  funext r
  cases r with
  | dir e' => simp [target]
  | pde e' i' => simp [target, table_store_table hx ht]
  | pte e' i' j' =>
    rw [target, entry_store_table hx ht]
    by_cases h : e' = e ∧ i' = i ∧ j' = j
    · obtain ⟨rfl, rfl, rfl⟩ := h; simp
    · have hne : Ref.pte e' i' j' ≠ .pte e i j := by simpa using h
      rw [if_neg h, Function.update_of_ne hne, target]

theorem table_store_dir (hx : Exclusive (target m ds)) {e : EnvIx} {d : Nat} (hd : ds e = some d)
    (i : Pdx) (w : Word) (e' : EnvIx) (i' : Pdx) :
    table (m.store d i w) ds e' i' = if e' = e ∧ i' = i then present w else table m ds e' i' := by
  cases h : ds e' with
  | none =>
    have hne : ¬(e' = e ∧ i' = i) := by
      rintro ⟨rfl, -⟩
      rw [hd] at h
      cases h
    rw [if_neg hne, table, table, h]; rfl
  | some d' =>
    rw [table_eq h, table_eq h]
    by_cases hdd : d' = d
    · subst hdd
      have := hx (.dir e') (.dir e) _ trivial h hd
      cases this
      by_cases hi : i' = i
      · subst hi; simp [Phys.store]
      · have hv : (i' : Nat) ≠ i := fun hv => hi (Fin.ext hv)
        simp [Phys.store, hv, hi]
    · have hne : ¬(e' = e ∧ i' = i) := by
        rintro ⟨rfl, -⟩
        rw [hd] at h
        exact hdd (Option.some.inj h).symm
      rw [Phys.store, mem_setPage_of_ne m _ hdd, if_neg hne]

theorem entry_store_dir (hx : Exclusive (target m ds)) {e : EnvIx} {d : Nat} (hd : ds e = some d)
    (i : Pdx) (w : Word) (hold : ∀ j, entry m ds e i j = 0)
    (hnew : ∀ t, present w = some t → t ≠ d ∧ ∀ j : Ptx, m.mem t j = 0) :
    entry (m.store d i w) ds = entry m ds := by
  funext e' i' j'
  have htab := table_store_dir hx hd i w e' i'
  by_cases hei : e' = e ∧ i' = i
  · obtain ⟨rfl, rfl⟩ := hei
    rw [hold]
    rw [if_pos ⟨rfl, rfl⟩] at htab
    cases hw : present w with
    | none => exact entry_eq_zero (htab.trans hw) _
    | some t =>
      obtain ⟨hne, hz⟩ := hnew t hw
      rw [entry_eq_mem (htab.trans hw), Phys.store, mem_setPage_of_ne m _ hne, hz]
  · rw [if_neg hei] at htab
    cases h : table m ds e' i' with
    | none => rw [entry_eq_zero (htab.trans h), entry_eq_zero h]
    | some t =>
      have hne : t ≠ d := by
        rintro rfl
        have := hx (.dir e) (.pde e' i') _ trivial hd h
        cases this
      rw [entry_eq_mem (htab.trans h), entry_eq_mem h, Phys.store, mem_setPage_of_ne m _ hne]

theorem target_store_dir (hx : Exclusive (target m ds)) {e : EnvIx} {d : Nat} (hd : ds e = some d)
    (i : Pdx) (w : Word) (hold : ∀ j, entry m ds e i j = 0)
    (hnew : ∀ t, present w = some t → t ≠ d ∧ ∀ j : Ptx, m.mem t j = 0) :
    target (m.store d i w) ds = Function.update (target m ds) (.pde e i) (present w) := by
  funext r
  cases r with
  | dir e' => simp [target]
  | pde e' i' =>
    rw [target, table_store_dir hx hd]
    by_cases h : e' = e ∧ i' = i
    · obtain ⟨rfl, rfl⟩ := h; simp
    · have hne : Ref.pde e' i' ≠ .pde e i := by simpa using h
      rw [if_neg h, Function.update_of_ne hne, target]
  | pte e' i' j' =>
    rw [target, entry_store_dir hx hd i w hold hnew, Function.update_of_ne (by simp), target]

theorem table_update_of_ne {e e' : EnvIx} (h : e' ≠ e) (v : Option Nat) :
    table m (Function.update ds e v) e' = table m ds e' := by
  funext i
  rw [table, table, Function.update_of_ne h]

theorem entry_update_of_ne {e e' : EnvIx} (h : e' ≠ e) (v : Option Nat) :
    entry m (Function.update ds e v) e' = entry m ds e' := by
  funext i j
  rw [entry, entry, table_update_of_ne h]

theorem table_of_dir_none {e : EnvIx} (h : ds e = none) (i : Pdx) : table m ds e i = none := by
  rw [table, h]; rfl

theorem entry_of_dir_none {e : EnvIx} (h : ds e = none) (i : Pdx) (j : Ptx) :
    entry m ds e i j = 0 :=
  entry_eq_zero (table_of_dir_none h i) j

theorem target_congr {m' : Phys} (h : m'.mem = m.mem) : target m' ds = target m ds := by
  funext r
  cases r <;> simp only [target, entry, table, h]

@[simp] theorem target_setRef (p : Nat) (r : BitVec 16) :
    target (m.setRef p r) ds = target m ds := rfl

@[simp] theorem entry_setRef (p : Nat) (r : BitVec 16) : entry (m.setRef p r) ds = entry m ds := rfl

@[simp] theorem target_unlink (p : Nat) : target (m.unlink p) ds = target m ds := rfl

@[simp] theorem entry_unlink (p : Nat) : entry (m.unlink p) ds = entry m ds := rfl

theorem target_update_dir {e : EnvIx} {v : Option Nat} (hold : ∀ i, table m ds e i = none)
    (hnew : ∀ d, v = some d → ∀ i : Pdx, m.mem d i = 0) :
    target m (Function.update ds e v) = Function.update (target m ds) (.dir e) v := by
  have htab : ∀ i, table m (Function.update ds e v) e i = none := by
    intro i
    cases v with
    | none => exact table_of_dir_none (Function.update_self ..) i
    | some d => rw [table_eq (Function.update_self ..), hnew d rfl, present_zero]
  funext r
  cases r with
  | dir e' =>
    by_cases h : e' = e
    · subst h; simp [target]
    · simp [target, h]
  | pde e' i =>
    rw [Function.update_of_ne (by simp)]
    by_cases h : e' = e
    · subst h; rw [target, target, htab, hold]
    · rw [target, target, table_update_of_ne h]
  | pte e' i j =>
    rw [Function.update_of_ne (by simp)]
    by_cases h : e' = e
    · subst h; rw [target, target, entry_eq_zero (htab i), entry_eq_zero (hold i)]
    · rw [target, target, entry_update_of_ne h]

end Write

namespace Exclusive

variable {f : Ref → Option Nat}

theorem update_none (h : Exclusive f) (r : Ref) : Exclusive (Function.update f r none) := by
  have hval : ∀ r' p, Function.update f r none r' = some p → f r' = some p := by
    intro r' p hp
    by_cases hr : r' = r
    · subst hr; simp at hp
    · rwa [Function.update_of_ne hr] at hp
  intro r₁ r₂ p hs h₁ h₂
  exact h r₁ r₂ p hs (hval _ _ h₁) (hval _ _ h₂)

theorem update_some (h : Exclusive f) {r : Ref} {p : Nat}
    (hp : ∀ r', r.Structural ∨ r'.Structural → f r' ≠ some p) :
    Exclusive (Function.update f r (some p)) := by
  intro r₁ r₂ q hs h₁ h₂
  by_cases hr₁ : r₁ = r
  · subst hr₁
    by_cases hr₂ : r₂ = r₁
    · exact hr₂.symm
    · rw [Function.update_self] at h₁
      rw [Function.update_of_ne hr₂, ← h₁] at h₂
      exact absurd h₂ (hp r₂ (.inl hs))
  · rw [Function.update_of_ne hr₁] at h₁
    by_cases hr₂ : r₂ = r
    · subst hr₂
      rw [Function.update_self] at h₂
      rw [← h₂] at h₁
      exact absurd h₁ (hp r₁ (.inr hs))
    · rw [Function.update_of_ne hr₂] at h₂
      exact h r₁ r₂ q hs h₁ h₂

end Exclusive

end Jos.Kern
