import Jos.Kern.BootPages

/-! The free list of `page_init` and the layout of physical memory. -/

namespace Jos.Kern

open Lib Phys

/-- The pages in use at the end of `page_init`: the first one, the one the other CPUs start in,
the hole between base memory and `EXTPHYSMEM`, and extended memory up to `boot_alloc`'s
`nextfree`. -/
def InUse (npagesBasemem : Nat) (nextfree : Word) (i : Nat) : Prop :=
  i = 0 ∨ i = pgnum mpentryPaddr ∨ (npagesBasemem ≤ i ∧ i < pgnum extphysmem) ∨
    (pgnum extphysmem ≤ i ∧ i * 4096 < (nextfree - kernbase).toNat)

structure FreeListExact (npagesBasemem : Nat) (nextfree : Word) (m : Phys) (l : List Nat) : Prop where
  chain : Chain m.ppLink m.pageFreeList l
  nodup : l.Nodup
  mem_iff : ∀ i, i ∈ l ↔ i < m.npages ∧ ¬ InUse npagesBasemem nextfree i
  ref_free : ∀ i ∈ l, m.ppRef i = 0
  ref_used : ∀ i, i < m.npages → i ∉ l → m.ppRef i = 1

section Rounds

variable {nb nio next n : Nat} {m : Phys}

theorem chain_pageInitRounds (n : Nat) :
    Chain ((List.range n).foldl (pageInitStep nb nio next) { m with pageFreeList := none }).ppLink
      ((List.range n).foldl (pageInitStep nb nio next) { m with pageFreeList := none }).pageFreeList
      (freed (reserved nb nio next) n) := by
  induction n with
  | zero => exact .nil
  | succ n ih =>
    rw [List.range_succ, List.foldl_append]
    exact chain_pageInitStep ih

theorem npages_pageInitRounds (n : Nat) :
    ((List.range n).foldl (pageInitStep nb nio next) m).npages = m.npages := by
  induction n with
  | zero => rfl
  | succ n ih =>
    rw [List.range_succ, List.foldl_append]
    refine Eq.trans ?_ ih
    rw [List.foldl_cons, List.foldl_nil, pageInitStep_eq]
    split <;> rfl

theorem ref_pageInitRounds {p : Nat} (hp : p < n) :
    ((List.range n).foldl (pageInitStep nb nio next) m).ppRef p =
      if reserved nb nio next p then 1 else 0 := by
  induction n with
  | zero => exact absurd hp (Nat.not_lt_zero p)
  | succ n ih =>
    rw [List.range_succ, List.foldl_append, List.foldl_cons, List.foldl_nil, pageInitStep_eq]
    by_cases hpn : p = n
    · subst hpn
      split
      · exact Function.update_self ..
      · exact Function.update_self ..
    · have hold := ih (by omega)
      split
      · exact (Function.update_of_ne hpn ..).trans hold
      · exact (Function.update_of_ne hpn ..).trans hold

end Rounds

variable {nb : Nat} {nextfree : Word} {m : Phys}

/-- What the code keeps: so many pages from the end of base memory on as the hole has, and as
there are below `nextfree`. -/
def kept (nb : Nat) (nextfree : Word) : Nat → Bool :=
  reserved nb (pgnum (extphysmem - iophysmem)) (pgnum (nextfree - kernbase))

theorem kept_iff {i : Nat} : kept nb nextfree i = true ↔
    i = 0 ∨ i = 7 ∨ (nb ≤ i ∧ i < nb + 96 + (nextfree - kernbase).toNat / 4096) := by
  rw [kept, reserved, decide_eq_true_iff, pgnum_eq (nextfree - kernbase)]
  exact Iff.rfl

theorem inUse_iff {i : Nat} : InUse nb nextfree i ↔
    i = 0 ∨ i = 7 ∨ (nb ≤ i ∧ i < 256) ∨ (256 ≤ i ∧ i * 4096 < (nextfree - kernbase).toNat) :=
  Iff.rfl

theorem chain_pageInit : Chain (pageInit nb nextfree m).ppLink (pageInit nb nextfree m).pageFreeList
    (freed (kept nb nextfree) m.npages) :=
  chain_pageInitRounds _

theorem npages_pageInit : (pageInit nb nextfree m).npages = m.npages := npages_pageInitRounds _

theorem ref_pageInit {p : Nat} (hp : p < m.npages) :
    (pageInit nb nextfree m).ppRef p = if kept nb nextfree p then 1 else 0 :=
  ref_pageInitRounds hp

theorem freeListExact_iff_kept :
    (∃ l, FreeListExact nb nextfree (pageInit nb nextfree m) l) ↔
      ∀ i < m.npages, (kept nb nextfree i = true ↔ InUse nb nextfree i) := by
  constructor
  · rintro ⟨l, h⟩ i hi
    obtain rfl := h.chain.unique chain_pageInit
    have hm := h.mem_iff i
    rw [mem_freed, npages_pageInit] at hm
    cases hk : kept nb nextfree i with
    | true =>
      rw [hk] at hm
      exact ⟨fun _ => by
        by_contra hn
        exact absurd (hm.mpr ⟨hi, hn⟩).2 (by decide), fun _ => rfl⟩
    | false =>
      rw [hk] at hm
      exact ⟨fun hf => absurd hf (by decide), fun hu => absurd hu (hm.mp ⟨hi, rfl⟩).2⟩
  · intro h
    have hmem : ∀ i, i ∈ freed (kept nb nextfree) m.npages ↔
        i < m.npages ∧ ¬ InUse nb nextfree i := by
      intro i
      rw [mem_freed]
      refine and_congr_right fun hi => ?_
      rw [← h i hi, Bool.not_eq_true]
    refine ⟨_, chain_pageInit, chain_pageInit.nodup, ?_, fun i hi => ?_, fun i hi hn => ?_⟩
    · rw [npages_pageInit]
      exact hmem
    · rw [mem_freed] at hi
      rw [ref_pageInit hi.1, hi.2]
      rfl
    · rw [npages_pageInit] at hi
      have hk : kept nb nextfree i = true := by
        by_contra hk
        exact hn (mem_freed.mpr ⟨hi, Bool.not_eq_true _ ▸ hk⟩)
      rw [ref_pageInit hi, hk]
      rfl

/-- `page_init` builds the right free list only where the pages it keeps, counted from the end
of base memory, come out at the end of the pages in use, or where there is no page past the
first of these two places. -/
theorem freeListExact_iff (hnb : nb ≤ pgnum iophysmem) (hnext : pgoff nextfree = 0) :
    (∃ l, FreeListExact nb nextfree (pageInit nb nextfree m) l) ↔
      nb + 96 + pgnum (nextfree - kernbase) = max 256 (pgnum (nextfree - kernbase)) ∨
        m.npages ≤ min (nb + 96 + pgnum (nextfree - kernbase)) (max 256 (pgnum (nextfree - kernbase))) := by
  have hnb' : nb ≤ 160 := hnb
  have hoff : (nextfree - kernbase).toNat % 4096 = 0 := by
    rw [pgoff_eq] at hnext
    rw [BitVec.toNat_sub, toNat_kernbase]
    omega
  rw [freeListExact_iff_kept, pgnum_eq]
  generalize hw : (nextfree - kernbase).toNat = w at hoff ⊢
  constructor
  · intro h
    by_contra hc
    have hlt : min (nb + 96 + w / 4096) (max 256 (w / 4096)) < m.npages := by omega
    have hi := h _ hlt
    rw [kept_iff, inUse_iff, hw] at hi
    omega
  · intro h i hi
    rw [kept_iff, inUse_iff, hw]
    omega

/-- Nothing free above the kernel: the one way in which extended memory comes out right. -/
theorem freeListExact_small : ∃ l, FreeListExact 160 0xF0100000 (pageInit 160 0xF0100000
    ⟨256, fun _ _ => 0, fun _ => 0, fun _ => none, none⟩) l :=
  (freeListExact_iff (by decide) (by decide)).mpr (.inr (by decide))

/-- With 640K of base memory, 4M in all and the kernel's data up to 2M, the pages from 2M to 3M
are neither in use nor on the list. -/
theorem pages_lost : ¬ ∃ l, FreeListExact 160 0xF0200000 (pageInit 160 0xF0200000
    ⟨1024, fun _ _ => 0, fun _ => 0, fun _ => none, none⟩) l := by
  rw [freeListExact_iff_kept]
  intro h
  have hi := h 600 (by decide)
  rw [kept_iff, inUse_iff] at hi
  revert hi
  decide

end Jos.Kern
