import Jos.Kern.Boot
import Jos.Kern.BootMap

/-! `boot_alloc` and `page_init`: what is free when `mem_init` starts to fill `kern_pgdir`. -/

namespace Jos.Kern

open Lib Phys

def reserved (npagesBasemem numIohole numExtmemAlloc i : Nat) : Bool :=
  decide (i = 0 ∨ i = pgnum mpentryPaddr ∨
    (npagesBasemem ≤ i ∧ i < npagesBasemem + numIohole + numExtmemAlloc))

def freed (res : Nat → Bool) (n : Nat) : List Nat := ((List.range n).filter fun i => !res i).reverse

theorem mem_freed {res : Nat → Bool} {n p : Nat} : p ∈ freed res n ↔ p < n ∧ res p = false := by
  simp [freed]

theorem freed_succ (res : Nat → Bool) (n : Nat) :
    freed res (n + 1) = if res n then freed res n else n :: freed res n := by
  rw [freed, List.range_succ, List.filter_append, List.reverse_append]
  cases h : res n <;> simp [h, freed]

theorem le_length_freed {res : Nat → Bool} {stop : Nat} (h : ∀ p, stop ≤ p → res p = false)
    (n : Nat) : n ≤ stop + (freed res n).length := by
  induction n with
  | zero => exact Nat.zero_le _
  | succ n ih =>
    rw [freed_succ]
    split
    · next hr =>
      have : n < stop := by
        by_contra hge
        rw [h n (Nat.not_lt.1 hge)] at hr
        cases hr
      omega
    · rw [List.length_cons]
      omega

structure PagesReady (res : Nat → Bool) (m₀ : Phys) (n : Nat) (m : Phys) : Prop where
  npages_eq : m.npages = m₀.npages
  mem_eq : m.mem = m₀.mem
  chain : Chain m.ppLink m.pageFreeList (freed res n)
  link_none : ∀ {p}, p ∉ freed res n → m.ppLink p = none
  ref_free : ∀ {p}, p ∈ freed res n → m.ppRef p = 0

theorem pageInitStep_eq (nb nio next : Nat) (m : Phys) (i : Nat) :
    pageInitStep nb nio next m i =
      if reserved nb nio next i then
        { m.setRef i 1 with ppLink := Function.update m.ppLink i none }
      else (m.setRef i 0).link i := by
  rw [pageInitStep, reserved]
  by_cases h1 : i = 0 ∨ i = pgnum mpentryPaddr
  · rw [if_pos h1, if_pos]
    rcases h1 with h | h <;> simp [h]
  · rw [if_neg h1]
    obtain ⟨h0, hm⟩ := not_or.1 h1
    simp only [h0, hm, false_or, decide_eq_true_eq]

theorem chain_pageInitStep {nb nio next n : Nat} {m : Phys}
    (h : Chain m.ppLink m.pageFreeList (freed (reserved nb nio next) n)) :
    Chain (pageInitStep nb nio next m n).ppLink (pageInitStep nb nio next m n).pageFreeList
      (freed (reserved nb nio next) (n + 1)) := by
  have hn : n ∉ freed (reserved nb nio next) n := fun hm => Nat.lt_irrefl _ (mem_freed.1 hm).1
  rw [pageInitStep_eq, freed_succ]
  split
  · exact h.update_of_notMem hn none
  · exact h.push hn

theorem PagesReady.step {nb nio next n : Nat} {m₀ m : Phys}
    (h : PagesReady (reserved nb nio next) m₀ n m) :
    PagesReady (reserved nb nio next) m₀ (n + 1) (pageInitStep nb nio next m n) := by
  have hn : n ∉ freed (reserved nb nio next) n := fun hm => Nat.lt_irrefl _ (mem_freed.1 hm).1
  have hc := chain_pageInitStep h.chain
  rw [pageInitStep_eq] at hc ⊢
  cases hr : reserved nb nio next n with
  | true =>
    have hl : freed (reserved nb nio next) (n + 1) = freed (reserved nb nio next) n := by
      rw [freed_succ, hr, if_pos rfl]
    rw [hr, if_pos rfl] at hc
    refine ⟨h.npages_eq, h.mem_eq, hc, ?_, ?_⟩ <;> rw [hl]
    · intro p hp
      by_cases hpn : p = n
      · simp [hpn]
      · simpa [hpn] using h.link_none hp
    · intro p hp
      have hpn : p ≠ n := by
        rintro rfl
        exact hn hp
      simpa [setRef, hpn] using h.ref_free hp
  | false =>
    have hl : freed (reserved nb nio next) (n + 1) = n :: freed (reserved nb nio next) n := by
      rw [freed_succ, hr, if_neg (by decide)]
    rw [hr, if_neg (by decide)] at hc
    refine ⟨h.npages_eq, h.mem_eq, hc, ?_, ?_⟩ <;> rw [hl]
    · intro p hp
      obtain ⟨hpn, hp⟩ := not_or.1 fun hm => hp (List.mem_cons.2 hm)
      rw [if_neg (by decide), ppLink_link_of_ne _ hpn]
      exact h.link_none hp
    · intro p hp
      by_cases hpn : p = n
      · subst hpn
        exact ppRef_setRef_self m p 0
      · have hp' : p ∈ freed (reserved nb nio next) n := (List.mem_cons.1 hp).resolve_left hpn
        simpa [link, setRef, hpn] using h.ref_free hp'

theorem PagesReady.foldl (nb nio next : Nat) {m : Phys} (hl : m.ppLink = fun _ => none) (n : Nat) :
    PagesReady (reserved nb nio next) m n
      ((List.range n).foldl (pageInitStep nb nio next) { m with pageFreeList := none }) := by
  induction n with
  | zero => exact ⟨rfl, rfl, .nil, fun _ => by simp [hl], fun hp => by simp [freed] at hp⟩
  | succ n ih =>
    rw [List.range_succ, List.foldl_append]
    exact ih.step

theorem pageInit_ready (nb : Nat) (nextfree : Word) {m : Phys} (hl : m.ppLink = fun _ => none) :
    PagesReady (reserved nb (pgnum (extphysmem - iophysmem)) (pgnum (nextfree - kernbase))) m
      m.npages (pageInit nb nextfree m) :=
  .foldl _ _ _ hl _

def Machine.reserved (M : Machine) (nextfree : Word) : Nat → Bool :=
  Kern.reserved M.npagesBasemem (pgnum (extphysmem - iophysmem)) (pgnum (nextfree - kernbase))

structure Within (M : Machine) (a : Word) : Prop where
  ge : kernbase.toNat ≤ a.toNat
  le : a.toNat ≤ kernbase.toNat + M.npages * 4096

theorem toNat_kernbase : kernbase.toNat = 0xF0000000 := rfl

theorem bootAlloc_eq_some {M : Machine} {nextfree n r next : Word}
    (h : bootAlloc M.npages nextfree n = some (r, next)) :
    r = nextfree ∧ next = roundUp (nextfree + n) pgsize ∧ Within M next := by
  rw [bootAlloc] at h
  split at h
  · cases h
  · next hle =>
    obtain ⟨rfl, rfl⟩ := Prod.mk.inj (Option.some.inj h)
    refine ⟨rfl, rfl, ?_, ?_⟩ <;> rw [BitVec.toNat_sub, toNat_kernbase] at hle <;>
      have := M.npages_le <;> have := (roundUp (nextfree + n) pgsize).isLt <;>
      rw [toNat_kernbase] <;> omega

theorem paddr_eq_some {a d : Word} (h : paddr a = some d) : d = a - kernbase := by
  rw [paddr] at h
  split at h
  · cases h
  · exact (Option.some.inj h).symm

theorem Within.toNat_sub {M : Machine} {a : Word} (h : Within M a) :
    (a - kernbase).toNat = a.toNat - 0xF0000000 := by
  have := h.ge
  rw [BitVec.toNat_sub_of_le (BitVec.le_def.2 this), toNat_kernbase]

theorem Within.next {M : Machine} {a n : Word} (ha : a.toNat % 4096 = 0)
    (h : Within M (roundUp (a + n) pgsize)) (hn : n.toNat ≤ 1048576)
    (hk : kernbase.toNat ≤ a.toNat ∨ a.toNat = 0) :
    kernbase.toNat ≤ a.toNat ∧ a.toNat + n.toNat ≤ (roundUp (a + n) pgsize).toNat ∧
      (roundUp (a + n) pgsize).toNat % 4096 = 0 := by
  have h1 := h.ge
  have h2 := h.le
  have := M.npages_le
  have := a.isLt
  rw [toNat_kernbase] at *
  rw [toNat_roundUp, BitVec.toNat_add] at *
  omega

theorem Machine.kernEnd_roundUp (M : Machine) :
    (roundUp M.kernEnd pgsize).toNat % 4096 = 0 ∧
      (0xF0100000 ≤ (roundUp M.kernEnd pgsize).toNat ∨ (roundUp M.kernEnd pgsize).toNat = 0) := by
  have h := BitVec.le_def.1 M.kernEnd_ge
  rw [show (kernbase + extphysmem).toNat = 0xF0100000 from rfl] at h
  have := M.kernEnd.isLt
  rw [toNat_roundUp]
  omega

structure PagesInit (M : Machine) (m : Phys) (d pages envs next : Word) : Prop where
  npages_eq : m.npages = M.npages
  chain : Chain m.ppLink m.pageFreeList (freed (M.reserved next) M.npages)
  link_none : ∀ {p}, p ∉ freed (M.reserved next) M.npages → m.ppLink p = none
  ref_free : ∀ {p}, p ∈ freed (M.reserved next) M.npages → m.ppRef p = 0
  dir : ∀ i, i ≠ 957 → m.mem (pgnum d) i = 0
  uvpt : present (m.mem (pgnum d) 957) = some (pgnum d)
  kern_lt : pgnum d < M.npages
  kern_reserved : M.reserved next (pgnum d) = true
  pages_aligned : pgoff pages = 0
  envs_aligned : pgoff envs = 0

theorem memInitPages_eq_some {M : Machine} {m : Phys} {d pages envs : Word}
    (h : memInitPages M = some (m, d, pages, envs)) :
    ∃ next, PagesInit M m d pages envs next := by
  simp only [memInitPages, Option.bind_eq_bind, Option.bind_eq_some_iff, Prod.exists] at h
  obtain ⟨a₀, a₁, h₀, b₀, a₂, h₁, c₀, a₃, h₂, d', hd, a₃', a₄, h₃, pp, hpp, ee, hee, h⟩ := h
  obtain ⟨rfl, rfl, w₀⟩ := bootAlloc_eq_some h₀
  obtain ⟨rfl, rfl, w₁⟩ := bootAlloc_eq_some h₁
  obtain ⟨rfl, rfl, w₂⟩ := bootAlloc_eq_some h₂
  obtain ⟨rfl, -, -⟩ := bootAlloc_eq_some h₃
  obtain rfl := paddr_eq_some hd
  obtain rfl := paddr_eq_some hpp
  obtain rfl := paddr_eq_some hee
  replace h := Option.some.inj h
  simp only [Prod.mk.injEq] at h
  obtain ⟨hm, rfl, rfl, rfl⟩ := h
  obtain ⟨ha, hk⟩ := M.kernEnd_roundUp
  generalize roundUp M.kernEnd pgsize = a at *
  have hpages : (BitVec.ofNat 32 (M.npages * 8)).toNat ≤ 1048576 := by
    have := M.npages_le
    rw [BitVec.toNat_ofNat]
    omega
  obtain ⟨ka, hb, hb0⟩ := w₀.next ha (by decide) (hk.imp_left (by rw [toNat_kernbase]; omega))
  generalize roundUp (a + pgsize) pgsize = b at *
  obtain ⟨-, hc, hc0⟩ := w₁.next hb0 hpages (.inl w₀.ge)
  generalize roundUp (b + BitVec.ofNat 32 (M.npages * 8)) pgsize = c at *
  obtain ⟨-, hd, -⟩ := w₂.next hc0 (by decide) (.inl w₁.ge)
  generalize roundUp (c + BitVec.ofNat 32 (124 * nenv)) pgsize = next at *
  rw [toNat_pgsize] at hb
  have hka : (a - kernbase).toNat = a.toNat - 0xF0000000 := by
    rw [BitVec.toNat_sub_of_le (BitVec.le_def.2 ka), toNat_kernbase]
  have hle := w₀.le
  rw [toNat_kernbase] at ka hle
  have hnum : pgnum (a - kernbase) = (a.toNat - 0xF0000000) / 4096 := by rw [pgnum_eq, hka]
  have hnext : pgnum (next - kernbase) = (next.toNat - 0xF0000000) / 4096 := by
    rw [pgnum_eq, w₂.toNat_sub]
  have hready : PagesReady (M.reserved next) _ M.npages _ :=
    hm ▸ pageInit_ready M.npagesBasemem next rfl
  have hmem := hready.mem_eq
  refine ⟨next, hready.npages_eq, hready.chain, hready.link_none, hready.ref_free, ?_, ?_, ?_, ?_,
    ?_, ?_⟩
  · intro i hi
    rw [hmem, mem_store_self, if_neg (by rwa [pdx_uvpt]), mem_clear_self]
  · have hlt : pgnum (a - kernbase) < 2 ^ 20 := by
      have := M.npages_le
      omega
    have hal : pgoff (a - kernbase) = 0 := by
      rw [pgoff_eq, hka]
      omega
    rw [hmem, mem_store_self, if_pos pdx_uvpt.symm]
    nth_rewrite 1 [eq_page2pa hal]
    exact present_entry hlt (by decide)
  · omega
  · have hio : pgnum iophysmem = 160 := by decide
    have hb := M.basemem_le
    rw [Machine.reserved, reserved, decide_eq_true_eq]
    refine .inr (.inr ?_)
    omega
  · rw [pgoff_eq, w₀.toNat_sub]
    omega
  · rw [pgoff_eq, w₁.toNat_sub]
    omega

theorem relink_mem (m : Phys) (l : List Nat) :
    (relink m l).mem = m.mem ∧ (relink m l).npages = m.npages ∧ (relink m l).ppRef = m.ppRef := by
  induction l with
  | nil => exact ⟨rfl, rfl, rfl⟩
  | cons p l ih => exact ih

theorem relink_chain (m : Phys) {l : List Nat} (hl : l.Nodup) :
    Chain (relink m l).ppLink (relink m l).pageFreeList l := by
  induction l with
  | nil => exact .nil
  | cons p l ih =>
    obtain ⟨hp, hl⟩ := List.nodup_cons.1 hl
    exact (ih hl).push hp

theorem relink_link (m : Phys) {l : List Nat} {p : Nat} (hp : p ∉ l) :
    (relink m l).ppLink p = m.ppLink p := by
  induction l with
  | nil => rfl
  | cons q l ih =>
    obtain ⟨hne, hp⟩ := not_or.1 fun hm => hp (List.mem_cons.2 hm)
    rw [relink, ppLink_link_of_ne _ hne, ih hp]

/-- The pages of the window for devices that start-up reserves, three of them in `check_page`. -/
def Machine.mmioPages (M : Machine) : Nat :=
  3 + (M.mmio.map fun r => (roundUp r.2 pgsize).toNat / 4096).sum

/-- What `mem_init` starts to map from, `order` being the order of the free list then. -/
def PagesInit.setup {M : Machine} {m : Phys} {d pages envs next : Word}
    (h : PagesInit M m d pages envs next) {order : List Nat}
    (hp : order.Perm (freed (M.reserved next) M.npages)) : Setup where
  npages := M.npages
  kern := pgnum d
  pages := order
  mmio := M.mmioPages
  npages_le := M.npages_le.trans (by decide)
  lt := fun hm => (mem_freed.1 (hp.mem_iff.1 hm)).1
  kern_lt := h.kern_lt
  kern_notMem := by
    intro hm
    have := (mem_freed.1 (hp.mem_iff.1 hm)).2
    rw [h.kern_reserved] at this
    cases this

theorem PagesInit.bootMap {M : Machine} {m : Phys} {d pages envs next : Word}
    (h : PagesInit M m d pages envs next) {order : List Nat}
    (hp : order.Perm (freed (M.reserved next) M.npages)) :
    BootMap (h.setup hp) (relink m order) order := by
  obtain ⟨hm, hn, hr⟩ := relink_mem m order
  refine BootMap.empty (s := h.setup hp) (hn.trans h.npages_eq)
    (relink_chain m (hp.nodup_iff.2 h.chain.nodup)) ?_ ?_ ?_ ?_
  · intro p hpo
    refine (relink_link m (l := order) hpo).trans ?_
    exact h.link_none fun hm => hpo (hp.mem_iff.2 hm)
  · intro p hpo
    rw [hr]
    exact h.ref_free (hp.mem_iff.1 hpo)
  · intro i hi
    rw [hm]
    exact h.dir i hi
  · rw [hm]
    exact h.uvpt

end Jos.Kern
