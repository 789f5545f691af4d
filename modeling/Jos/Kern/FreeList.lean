import Jos.Kern.Pmap
import Jos.Lib.Linked
import Jos.Lib.RefCount

/-! The free list and the counters of `kern/pmap.c` against a table of references. -/

namespace Jos.Kern

open Lib

namespace Phys

@[simp] theorem mem_setPage_self (m : Phys) (p : Nat) (f : Nat → Word) :
    (m.setPage p f).mem p = f := by
  simp [setPage]

theorem mem_setPage_of_ne (m : Phys) {p q : Nat} (f : Nat → Word) (h : q ≠ p) :
    (m.setPage p f).mem q = m.mem q := by
  simp [setPage, h]

theorem mem_store_of_ne (m : Phys) {p q : Nat} (i : Nat) (w : Word) (h : q ≠ p) :
    (m.store p i w).mem q = m.mem q := by
  rw [store, mem_setPage_of_ne m _ h]

theorem mem_store_self (m : Phys) (p i : Nat) (w : Word) (i' : Nat) :
    (m.store p i w).mem p i' = if i' = i then w else m.mem p i' := by
  rw [store, mem_setPage_self, Function.update_apply]

theorem mem_clear_of_ne (m : Phys) {p q : Nat} (h : q ≠ p) : (m.clear p).mem q = m.mem q := by
  rw [clear, mem_setPage_of_ne m _ h]

@[simp] theorem mem_clear_self (m : Phys) (p i : Nat) : (m.clear p).mem p i = 0 := by
  simp [clear]

theorem ppLink_unlink_of_ne (m : Phys) {p q : Nat} (h : q ≠ p) :
    (m.unlink p).ppLink q = m.ppLink q :=
  Function.update_of_ne h _ _

theorem ppLink_link_of_ne (m : Phys) {p q : Nat} (h : q ≠ p) :
    (m.link p).ppLink q = m.ppLink q :=
  Function.update_of_ne h _ _

@[simp] theorem ppRef_setRef_self (m : Phys) (p : Nat) (r : BitVec 16) :
    (m.setRef p r).ppRef p = r :=
  Function.update_self ..

theorem kaddr_eq {m : Phys} {pa : Word} (h : pgnum pa < m.npages) :
    m.kaddr pa = some (pgnum pa) := by
  rw [kaddr, if_neg (Nat.not_le.2 h)]

theorem pa2page_eq {m : Phys} {pa : Word} (h : pgnum pa < m.npages) :
    m.pa2page pa = some (pgnum pa) := by
  rw [pa2page, if_neg (Nat.not_le.2 h)]

theorem page2kva_eq {m : Phys} {pp : Nat} (h : pp < m.npages) (hn : m.npages ≤ 2 ^ 20) :
    m.page2kva pp = some pp := by
  have hp : pgnum (page2pa pp) = pp := pgnum_page2pa (Nat.lt_of_lt_of_le h hn)
  rw [page2kva, kaddr_eq (by rwa [hp]), hp]

end Phys

theorem pageAlloc_head {m : Phys} {pp : Nat} (hl : m.pageFreeList = some pp) (h : pp < m.npages)
    (hn : m.npages ≤ 2 ^ 20) (zero : Bool) :
    pageAlloc m zero =
      some (if zero then (m.unlink pp).clear pp else m.unlink pp, some pp) := by
  have hk : (m.unlink pp).page2kva pp = some pp := Phys.page2kva_eq h hn
  rw [pageAlloc, hl]
  cases zero with
  | false => rfl
  | true => simp [hk]

open Phys

section

variable {R : Type} [Fintype R] [DecidableEq R]

/-- `page_free_list` runs through `l`: each page of `pool` without references, but for those
handed `out`.  A page off the list has no link. -/
structure FreeList (m : Phys) (f : R → Option Nat) (pool out : Set Nat) (l : List Nat) : Prop where
  chain : Chain m.ppLink m.pageFreeList l
  balanced : Balanced f m.ppRef l pool out
  link_none : ∀ {p}, p ∈ pool → p ∉ l → m.ppLink p = none

namespace FreeList

variable {m m' : Phys} {f : R → Option Nat} {pool out : Set Nat} {l : List Nat}

omit [DecidableEq R] in
theorem congr (h : FreeList m f pool out l) (hr : m'.ppRef = m.ppRef) (hl : m'.ppLink = m.ppLink)
    (hf : m'.pageFreeList = m.pageFreeList) : FreeList m' f pool out l where
  chain := by rw [hl, hf]; exact h.chain
  balanced := by rw [hr]; exact h.balanced
  link_none := by rw [hl]; exact h.link_none

omit [DecidableEq R] in
theorem unlink {pp : Nat} {l : List Nat} (h : FreeList m f pool out (pp :: l)) :
    FreeList (m.unlink pp) f pool (insert pp out) l where
  chain := by
    have hc := h.chain
    rw [hc.head_eq, List.head?_cons] at hc
    exact hc.pop
  balanced := h.balanced.take h.chain.nodup
  link_none := by
    intro p hp hpl
    by_cases hpp : p = pp
    · subst hpp; simp [Phys.unlink]
    · rw [ppLink_unlink_of_ne m hpp]
      exact h.link_none hp (by simp [hpp, hpl])

omit [DecidableEq R] in
theorem pageFree {pp : Nat} (h : FreeList m f pool out l) (hpp : pp ∈ out) :
    pageFree m pp = some (m.link pp) ∧ FreeList (m.link pp) f pool (out \ {pp}) (pp :: l) := by
  obtain ⟨hpool, hzero⟩ := h.balanced.out_mem hpp
  have hnl : pp ∉ l := fun hl => (h.balanced.mem_free.1 hl).2.2 hpp
  have href : m.ppRef pp = 0 := by rw [h.balanced.ref_eq hpool, hzero]; rfl
  refine ⟨by rw [Kern.pageFree, if_pos ⟨href, h.link_none hpool hnl⟩], ?_, ?_, ?_⟩
  · exact h.chain.push hnl
  · exact h.balanced.putBack hpp
  · intro p hp hpl
    obtain ⟨hne, hpl⟩ := not_or.1 fun hm => hpl (List.mem_cons.2 hm)
    rw [ppLink_link_of_ne m hne]
    exact h.link_none hp hpl

theorem incref {pp : Nat} {r : R} (h : FreeList m f pool out l) (hr : f r = none)
    (hpool : pp ∈ pool) (hl : pp ∉ l) :
    FreeList (m.setRef pp (m.ppRef pp + 1)) (Function.update f r (some pp)) pool (out \ {pp}) l where
  chain := h.chain
  balanced := h.balanced.give hr hpool hl
  link_none := h.link_none

/-- `page_decref` for a reference that goes: it cannot panic, and unless the counter has
wrapped around it frees the page with its last reference only. -/
theorem pageDecref {pp : Nat} {r : R} (h : FreeList m f pool out l) (hr : f r = some pp)
    (hle : refCount f pp ≤ 65536) :
    ∃ m' l', pageDecref m pp = some m' ∧ m'.mem = m.mem ∧ m'.npages = m.npages ∧
      FreeList m' (Function.update f r none) pool out l' ∧ l.length ≤ l'.length ∧
      (refCount f pp = 1 → m'.pageFreeList = some pp) := by
  have hpool := h.balanced.target_mem hr
  have hiff := h.balanced.ref_sub_one_eq_zero_iff hpool (refCount_pos hr) hle
  have hnl := h.balanced.notMem_free hr
  by_cases h1 : refCount f pp = 1
  · have hz : m.ppRef pp - 1 = 0 := hiff.2 h1
    refine ⟨(m.setRef pp (m.ppRef pp - 1)).link pp, pp :: l, ?_, rfl, rfl, ⟨?_, ?_, ?_⟩, by simp,
      fun _ => rfl⟩
    · have hlink : (m.setRef pp (m.ppRef pp - 1)).ppLink pp = none := h.link_none hpool hnl
      rw [Kern.pageDecref, ppRef_setRef_self, if_pos hz, Kern.pageFree, ppRef_setRef_self,
        if_pos ⟨hz, hlink⟩]
    · exact h.chain.push hnl
    · exact h.balanced.drop_last hr h1
    · intro p hp hpl
      obtain ⟨hne, hpl⟩ := not_or.1 fun hm => hpl (List.mem_cons.2 hm)
      rw [ppLink_link_of_ne _ hne]
      exact h.link_none hp hpl
  · have hz : m.ppRef pp - 1 ≠ 0 := fun hz => h1 (hiff.1 hz)
    refine ⟨m.setRef pp (m.ppRef pp - 1), l, ?_, rfl, rfl, ⟨h.chain, ?_, h.link_none⟩, Nat.le_refl _,
      fun h1' => absurd h1' h1⟩
    · rw [Kern.pageDecref, ppRef_setRef_self, if_neg hz]
    · exact h.balanced.drop_shared hr h1

omit [DecidableEq R] in
theorem mem_pool_of_head {pp : Nat} (h : FreeList m f pool out (pp :: l)) :
    pp ∈ pool ∧ refCount f pp = 0 ∧ pp ∉ out :=
  h.balanced.mem_free.1 List.mem_cons_self

end FreeList

end

end Jos.Kern
