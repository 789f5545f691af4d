import Mathlib.Data.Fintype.Card
import Mathlib.Data.Fintype.BigOperators
import Mathlib.Data.Finset.Card
import Mathlib.Data.Set.Insert
import Mathlib.Logic.Function.Basic

/-! Reference counting.  `f r` is the cell that reference `r` points to; a cell's
counter is a machine word of `w` bits; cells without references are on a free list,
except those just taken from it and not yet given to anyone (`out`). -/

universe u v

namespace Jos.Lib

variable {R : Type u} {P : Type v} [Fintype R] [DecidableEq R] [DecidableEq P]

def refCount (f : R → Option P) (p : P) : Nat :=
  (Finset.univ.filter fun r => f r = some p).card

omit [DecidableEq R] in
theorem refCount_pos_iff {f : R → Option P} {p : P} : 0 < refCount f p ↔ ∃ r, f r = some p := by
  simp [refCount, Finset.card_pos, Finset.filter_nonempty_iff]

omit [DecidableEq R] in
theorem refCount_eq_zero_iff {f : R → Option P} {p : P} :
    refCount f p = 0 ↔ ∀ r, f r ≠ some p := by
  simp [refCount, Finset.card_eq_zero, Finset.filter_eq_empty_iff]

omit [DecidableEq R] in
theorem refCount_pos {f : R → Option P} {p : P} {r : R} (h : f r = some p) : 0 < refCount f p :=
  refCount_pos_iff.2 ⟨r, h⟩

omit [DecidableEq R] in
theorem refCount_mono {f g : R → Option P} {p : P} (h : ∀ r, g r = some p → f r = some p) :
    refCount g p ≤ refCount f p := by
  apply Finset.card_le_card
  intro r hr
  simp only [Finset.mem_filter, Finset.mem_univ, true_and] at hr ⊢
  exact h r hr

theorem refCount_update_self {f : R → Option P} {r : R} {p : P} (h : f r ≠ some p) :
    refCount (Function.update f r (some p)) p = refCount f p + 1 := by
  have hset : (Finset.univ.filter fun x => Function.update f r (some p) x = some p) =
      insert r (Finset.univ.filter fun x => f x = some p) := by
    ext x
    by_cases hx : x = r
    · subst hx; simp
    · simp [hx]
  rw [refCount, hset, Finset.card_insert_of_notMem (by simp [h]), refCount]

theorem refCount_update_none {f : R → Option P} {r : R} {p : P} (h : f r = some p) :
    refCount (Function.update f r none) p + 1 = refCount f p := by
  have hset : (Finset.univ.filter fun x => Function.update f r none x = some p) =
      (Finset.univ.filter fun x => f x = some p).erase r := by
    ext x
    by_cases hx : x = r
    · subst hx; simp
    · simp [hx]
  rw [refCount, hset, Finset.card_erase_add_one (by simp [h]), refCount]

theorem refCount_update_of_ne {f : R → Option P} {r : R} {v : Option P} {p : P}
    (hf : f r ≠ some p) (hv : v ≠ some p) :
    refCount (Function.update f r v) p = refCount f p := by
  have hset : (Finset.univ.filter fun x => Function.update f r v x = some p) =
      Finset.univ.filter fun x => f x = some p := by
    ext x
    by_cases hx : x = r
    · subst hx; simp [hf, hv]
    · simp [Function.update_of_ne hx]
  rw [refCount, hset, refCount]

theorem refCount_update_le {f : R → Option P} {r : R} {v : Option P} {p : P} (hv : v ≠ some p) :
    refCount (Function.update f r v) p ≤ refCount f p := by
  apply refCount_mono
  intro x hx
  by_cases hxr : x = r
  · subst hxr
    rw [Function.update_self] at hx
    exact absurd hx hv
  · rwa [Function.update_of_ne hxr] at hx

structure Balanced {w : Nat} (f : R → Option P) (ref : P → BitVec w) (free : List P)
    (pool out : Set P) : Prop where
  target_mem : ∀ {r p}, f r = some p → p ∈ pool
  ref_eq : ∀ {p}, p ∈ pool → ref p = BitVec.ofNat w (refCount f p)
  mem_free : ∀ {p}, p ∈ free ↔ p ∈ pool ∧ refCount f p = 0 ∧ p ∉ out
  out_mem : ∀ {p}, p ∈ out → p ∈ pool ∧ refCount f p = 0

namespace Balanced

variable {w : Nat} {f : R → Option P} {ref : P → BitVec w} {free : List P} {pool out : Set P}

omit [DecidableEq R] in
theorem notMem_free (h : Balanced f ref free pool out) {r : R} {p : P} (hr : f r = some p) :
    p ∉ free := by
  intro hp
  exact (refCount_pos hr).ne' (h.mem_free.1 hp).2.1

omit [DecidableEq R] in
theorem notMem_out (h : Balanced f ref free pool out) {r : R} {p : P} (hr : f r = some p) :
    p ∉ out := by
  intro hp
  exact (refCount_pos hr).ne' (h.out_mem hp).2

omit [DecidableEq R] in
theorem toNat_ref (h : Balanced f ref free pool out) {p : P} (hp : p ∈ pool)
    (hc : refCount f p < 2 ^ w) : (ref p).toNat = refCount f p := by
  rw [h.ref_eq hp, BitVec.toNat_ofNat, Nat.mod_eq_of_lt hc]

omit [DecidableEq R] in
theorem take {p : P} (h : Balanced f ref (p :: free) pool out) (hnd : (p :: free).Nodup) :
    Balanced f ref free pool (insert p out) where
  target_mem := h.target_mem
  ref_eq := h.ref_eq
  mem_free := by
    intro q
    have hq := h.mem_free (p := q)
    have hp := (List.nodup_cons.1 hnd).1
    simp only [List.mem_cons] at hq
    by_cases hqp : q = p
    · subst hqp; simp [hp]
    · simp only [hqp, false_or] at hq
      rw [hq, Set.mem_insert_iff]
      simp [hqp]
  out_mem := by
    rintro q (rfl | hq)
    · have := h.mem_free.1 List.mem_cons_self
      exact ⟨this.1, this.2.1⟩
    · exact h.out_mem hq

theorem give {r : R} {p : P} (h : Balanced f ref free pool out) (hr : f r = none)
    (hp : p ∈ pool) (hfree : p ∉ free) :
    Balanced (Function.update f r (some p)) (Function.update ref p (ref p + 1)) free pool
      (out \ {p}) where
  target_mem := by
    intro r' q hq
    by_cases hr' : r' = r
    · subst hr'
      rw [Function.update_self] at hq
      cases hq
      exact hp
    · rw [Function.update_of_ne hr'] at hq
      exact h.target_mem hq
  ref_eq := by
    intro q hq
    by_cases hqp : q = p
    · subst hqp
      rw [Function.update_self, refCount_update_self (by simp [hr]), h.ref_eq hq]
      apply BitVec.eq_of_toNat_eq
      simp
    · rw [Function.update_of_ne hqp, h.ref_eq hq,
        refCount_update_of_ne (by simp [hr]) (by simpa using Ne.symm hqp)]
  mem_free := by
    intro q
    by_cases hqp : q = p
    · subst hqp
      simp [hfree, refCount_update_self (show f r ≠ some q by simp [hr])]
    · rw [h.mem_free, refCount_update_of_ne (by simp [hr]) (by simpa using Ne.symm hqp)]
      simp [hqp]
  out_mem := by
    rintro q ⟨hq, hqp⟩
    rw [refCount_update_of_ne (by simp [hr]) (by simpa using Ne.symm hqp)]
    exact h.out_mem hq

theorem ofNat_succ_sub_one (w n : Nat) : BitVec.ofNat w (n + 1) - 1 = BitVec.ofNat w n := by
  rw [BitVec.ofNat_add]
  exact BitVec.add_sub_cancel _ _

omit [DecidableEq R] in
/-- Unless more than `2 ^ w` references were counted, a counter that drops to zero
belongs to a cell that had one reference. -/
theorem ref_sub_one_eq_zero_iff {p : P} (h : Balanced f ref free pool out) (hp : p ∈ pool)
    (hpos : 0 < refCount f p) (hle : refCount f p ≤ 2 ^ w) :
    ref p - 1 = 0 ↔ refCount f p = 1 := by
  have hsub : ref p - 1 = BitVec.ofNat w (refCount f p - 1) := by
    rw [h.ref_eq hp, ← ofNat_succ_sub_one w (refCount f p - 1), Nat.sub_add_cancel hpos]
  have hlt : refCount f p - 1 < 2 ^ w := by omega
  rw [hsub, ← BitVec.toNat_inj, BitVec.toNat_ofNat, Nat.mod_eq_of_lt hlt]
  simp only [BitVec.ofNat_eq_ofNat, BitVec.toNat_ofNat, Nat.zero_mod]
  omega

theorem drop_ref {r : R} {p : P} (h : Balanced f ref free pool out) (hr : f r = some p) :
    ∀ {q}, q ∈ pool → Function.update ref p (ref p - 1) q =
      BitVec.ofNat w (refCount (Function.update f r none) q) := by
  intro q hq
  by_cases hqp : q = p
  · subst hqp
    rw [Function.update_self, h.ref_eq hq, ← refCount_update_none hr, ofNat_succ_sub_one]
  · rw [Function.update_of_ne hqp, h.ref_eq hq,
      refCount_update_of_ne (by rw [hr]; simpa using Ne.symm hqp) (by simp)]

theorem drop_target {r r' : R} {q : P} (h : Balanced f ref free pool out)
    (hq : Function.update f r none r' = some q) : q ∈ pool := by
  by_cases hr' : r' = r
  · subst hr'
    simp at hq
  · rw [Function.update_of_ne hr'] at hq
    exact h.target_mem hq

theorem drop_out {r : R} {p q : P} (h : Balanced f ref free pool out) (hr : f r = some p) (hq : q ∈ out) :
    q ∈ pool ∧ refCount (Function.update f r none) q = 0 := by
  have hqp : q ≠ p := by
    rintro rfl
    exact h.notMem_out hr hq
  rw [refCount_update_of_ne (by rw [hr]; simpa using Ne.symm hqp) (by simp)]
  exact h.out_mem hq

theorem drop_last {r : R} {p : P} (h : Balanced f ref free pool out) (hr : f r = some p)
    (h1 : refCount f p = 1) :
    Balanced (Function.update f r none) (Function.update ref p (ref p - 1)) (p :: free)
      pool out where
  target_mem := h.drop_target
  ref_eq := h.drop_ref hr
  mem_free := by
    intro q
    have hc := refCount_update_none hr
    by_cases hqp : q = p
    · subst hqp
      have hz : refCount (Function.update f r none) q = 0 := by omega
      simp [h.target_mem hr, h.notMem_out hr, hz]
    · rw [refCount_update_of_ne (by rw [hr]; simpa using Ne.symm hqp) (by simp)]
      simp [hqp, h.mem_free]
  out_mem := h.drop_out hr

theorem drop_shared {r : R} {p : P} (h : Balanced f ref free pool out) (hr : f r = some p)
    (h1 : refCount f p ≠ 1) :
    Balanced (Function.update f r none) (Function.update ref p (ref p - 1)) free
      pool out where
  target_mem := h.drop_target
  ref_eq := h.drop_ref hr
  mem_free := by
    intro q
    have hc := refCount_update_none hr
    by_cases hqp : q = p
    · subst hqp
      have hz : refCount (Function.update f r none) q ≠ 0 := by omega
      simp [hz, h.notMem_free hr]
    · rw [refCount_update_of_ne (by rw [hr]; simpa using Ne.symm hqp) (by simp)]
      exact h.mem_free
  out_mem := h.drop_out hr

omit [DecidableEq R] in
theorem putBack {p : P} (h : Balanced f ref free pool out) (hp : p ∈ out) :
    Balanced f ref (p :: free) pool (out \ {p}) where
  target_mem := h.target_mem
  ref_eq := h.ref_eq
  mem_free := by
    intro q
    by_cases hqp : q = p
    · subst hqp; simp [h.out_mem hp]
    · simp [hqp, h.mem_free]
  out_mem := fun hq => h.out_mem hq.1

omit [DecidableEq R] in
theorem of_refCount {S : Type u} [Fintype S] {g : S → Option P}
    (h : Balanced f ref free pool out) (hc : ∀ p, refCount g p = refCount f p) :
    Balanced g ref free pool out where
  target_mem := by
    intro s p hs
    have hpos : 0 < refCount f p := by
      rw [← hc]
      exact refCount_pos hs
    obtain ⟨r, hr⟩ := refCount_pos_iff.1 hpos
    exact h.target_mem hr
  ref_eq := by
    intro p
    rw [hc]
    exact h.ref_eq
  mem_free := by
    intro p
    rw [hc]
    exact h.mem_free
  out_mem := by
    intro p
    rw [hc]
    exact h.out_mem

end Balanced

/-- References with one more, held by the code that is running. -/
def hold (held : Option P) (f : R → Option P) : Option R → Option P
  | none => held
  | some r => f r

omit [DecidableEq R] in
theorem refCount_hold (held : Option P) (f : R → Option P) (p : P) :
    refCount (hold held f) p = refCount f p + if held = some p then 1 else 0 := by
  rw [refCount, refCount, Finset.card_filter, Finset.card_filter, Fintype.sum_option, Nat.add_comm]
  rfl

omit [Fintype R] [DecidableEq P] in
theorem hold_update_some (held : Option P) (f : R → Option P) (r : R) (v : Option P) :
    Function.update (hold held f) (some r) v = hold held (Function.update f r v) := by
  funext x
  cases x with
  | none => simp [hold]
  | some x =>
    by_cases h : x = r
    · subst h; simp [hold]
    · simp [hold, h]

omit [Fintype R] [DecidableEq P] in
theorem hold_update_none (held : Option P) (f : R → Option P) (v : Option P) :
    Function.update (hold held f) none v = hold v f := by
  funext x
  cases x <;> simp [hold]

theorem refCount_hold_move {f : R → Option P} {r : R} (hr : f r = none) (p q : P) :
    refCount (Function.update f r (some p)) q = refCount (hold (some p) f) q := by
  rw [refCount_hold]
  by_cases hq : p = q
  · subst hq
    rw [refCount_update_self (by simp [hr]), if_pos rfl]
  · rw [refCount_update_of_ne (by simp [hr]) (by simpa using hq), if_neg (by simpa using hq)]
    rfl

end Jos.Lib
