import Jos.Kern.Boot
import Jos.Kern.Shape
import Jos.Lib.Fold

/-! `kern_pgdir` while `mem_init` fills it. -/

namespace Jos.Kern

open Lib Phys

theorem pdeWord_ne_zero (t : Nat) : pdeWord t ≠ 0 := by
  intro h
  have hp := pdeWord_and (t := t) (f := pteP) (by decide)
  rw [h] at hp
  exact absurd hp (by decide)

/-- What may stand in entry `j` of the table of slot `i` of `kern_pgdir`: `UENVS` and `UPAGES`
are read-only, nothing above `ULIM` is open to user code, and the window for devices is empty
from page `mmio` on. -/
structure KernPte (mmio i j : Nat) (w : Word) : Prop where
  user : i < 957 → w &&& pteW = 0 ∧ (w = 0 ∨ w &&& pteP ≠ 0)
  kernel : 957 < i → w &&& pteU = 0
  window : i = 958 → mmio ≤ j → w = 0

theorem KernPte.zero (mmio i j : Nat) : KernPte mmio i j 0 :=
  ⟨fun _ => ⟨by decide, .inl rfl⟩, fun _ => by decide, fun _ _ => rfl⟩

/-- What `mem_init` starts from: `kern_pgdir` is in page `kern`, `page_init` has freed `pages`,
and at most `mmio` pages are reserved for devices. -/
structure Setup where
  npages : Nat
  kern : Nat
  pages : List Nat
  mmio : Nat
  npages_le : npages ≤ 65536
  lt : ∀ {p}, p ∈ pages → p < npages
  kern_lt : kern < npages
  kern_notMem : kern ∉ pages

theorem Setup.lt_twoPow (s : Setup) {p : Nat} (hp : p ∈ s.pages) : p < 2 ^ 20 := by
  have := s.lt hp
  have := s.npages_le
  omega

/-- The slots of `kern_pgdir` that `mem_init` fills: all from `UTOP` on but that of `UVPT`. -/
structure KernSlot (i : Nat) : Prop where
  ge : 955 ≤ i
  lt : i < 1024
  ne : i ≠ 957

structure BootMap (s : Setup) (m : Phys) (l : List Nat) : Prop where
  npages_eq : m.npages = s.npages
  chain : Chain m.ppLink m.pageFreeList l
  sub : ∀ {p}, p ∈ l → p ∈ s.pages
  link_none : ∀ {p}, p ∉ l → m.ppLink p = none
  ref_free : ∀ {p}, p ∈ l → m.ppRef p = 0
  taken : ∀ {p}, p ∈ s.pages → p ∉ l →
    m.ppRef p = 1 ∧ ∃ i, KernSlot i ∧ present (m.mem s.kern i) = some p
  low : ∀ {i}, i < 955 → m.mem s.kern i = 0
  uvpt : present (m.mem s.kern 957) = some s.kern
  pde : ∀ {i}, KernSlot i →
    m.mem s.kern i = 0 ∨ ∃ t, t ∈ s.pages ∧ t ∉ l ∧ m.mem s.kern i = pdeWord t
  inj : ∀ {i i' t}, KernSlot i → KernSlot i' →
    present (m.mem s.kern i) = some t → present (m.mem s.kern i') = some t → i = i'
  pte : ∀ {i t j}, KernSlot i → present (m.mem s.kern i) = some t → j < 1024 →
    KernPte s.mmio i j (m.mem t j)

def slots (m : Phys) (kern : Nat) : Nat :=
  ((Finset.range 1024).filter fun i => m.mem kern i = 0).card

structure Fill (s : Setup) (m : Phys) (l : List Nat) (m' : Phys) (l' : List Nat) : Prop where
  map : BootMap s m' l'
  kept : ∀ {i}, m.mem s.kern i ≠ 0 → m'.mem s.kern i = m.mem s.kern i
  spent : slots m' s.kern + l.length = slots m s.kern + l'.length

theorem slots_pos {m : Phys} {kern i : Nat} (hi : i < 1024) (h0 : m.mem kern i = 0) :
    0 < slots m kern :=
  Finset.card_pos.2 ⟨i, Finset.mem_filter.2 ⟨Finset.mem_range.2 hi, h0⟩⟩

theorem slots_store {m : Phys} {kern i : Nat} {w : Word} (hi : i < 1024) (h0 : m.mem kern i = 0)
    (hw : w ≠ 0) : slots (m.store kern i w) kern + 1 = slots m kern := by
  have hset : ((Finset.range 1024).filter fun j => (m.store kern i w).mem kern j = 0) =
      ((Finset.range 1024).filter fun j => m.mem kern j = 0).erase i := by
    ext j
    rw [Finset.mem_filter, Finset.mem_erase, Finset.mem_filter, mem_store_self]
    by_cases hj : j = i
    · rw [if_pos hj]
      exact ⟨fun h => absurd h.2 hw, fun h => absurd hj h.1⟩
    · rw [if_neg hj]
      exact ⟨fun h => ⟨hj, h⟩, fun h => h.2⟩
  rw [slots, hset, Finset.card_erase_add_one, slots]
  exact Finset.mem_filter.2 ⟨Finset.mem_range.2 hi, h0⟩

theorem Fill.enough {s : Setup} {m m' : Phys} {l l' : List Nat} (h : Fill s m l m' l')
    (hl : slots m s.kern ≤ l.length) : slots m' s.kern ≤ l'.length := by
  have := h.spent
  omega

theorem Fill.trans {s : Setup} {m m' m'' : Phys} {l l' l'' : List Nat} (h : Fill s m l m' l') (h' : Fill s m' l' m'' l'') :
    Fill s m l m'' l'' := by
  refine ⟨h'.map, fun hi => ?_, ?_⟩
  · have h1 := h.kept hi
    rw [h'.kept (by rwa [h1]), h1]
  · have := h.spent
    have := h'.spent
    omega

namespace BootMap

variable {s : Setup} {m : Phys} {l : List Nat} {va : Word}

theorem fill (h : BootMap s m l) : Fill s m l m l := ⟨h, fun _ => rfl, rfl⟩

theorem empty (hn : m.npages = s.npages) (hc : Chain m.ppLink m.pageFreeList s.pages)
    (hlink : ∀ {p}, p ∉ s.pages → m.ppLink p = none) (href : ∀ {p}, p ∈ s.pages → m.ppRef p = 0)
    (hz : ∀ i, i ≠ 957 → m.mem s.kern i = 0) (huv : present (m.mem s.kern 957) = some s.kern) :
    BootMap s m s.pages where
  npages_eq := hn
  chain := hc
  sub := id
  link_none := hlink
  ref_free := href
  taken hp hn := absurd hp hn
  low hi := hz _ (by omega)
  uvpt := huv
  pde hi := .inl (hz _ hi.ne)
  inj hi _ ht := by
    rw [hz _ hi.ne, present_zero] at ht
    cases ht
  pte hi ht := by
    rw [hz _ hi.ne, present_zero] at ht
    cases ht

theorem table_mem (h : BootMap s m l) {i t : Nat} (hi : KernSlot i)
    (ht : present (m.mem s.kern i) = some t) :
    t ∈ s.pages ∧ t ∉ l ∧ m.mem s.kern i = pdeWord t := by
  rcases h.pde hi with h0 | ⟨t', ht', htl, hw⟩
  · rw [h0, present_zero] at ht
    cases ht
  · rw [hw, present_pdeWord (s.lt_twoPow ht')] at ht
    cases ht
    exact ⟨ht', htl, hw⟩

theorem pde_eq_zero (h : BootMap s m l) {i : Nat} (hi : KernSlot i)
    (ht : present (m.mem s.kern i) = none) : m.mem s.kern i = 0 := by
  rcases h.pde hi with h0 | ⟨t, htp, -, hw⟩
  · exact h0
  · rw [hw, present_pdeWord (s.lt_twoPow htp)] at ht
    cases ht

theorem store (h : BootMap s m l) {i t : Nat} (hi : KernSlot i)
    (ht : present (m.mem s.kern i) = some t) {j : Nat} {w : Word} (hw : KernPte s.mmio i j w) :
    Fill s m l (m.store t j w) l := by
  have hne : s.kern ≠ t := by
    rintro rfl
    exact s.kern_notMem (h.table_mem hi ht).1
  have hkern : (m.store t j w).mem s.kern = m.mem s.kern := mem_store_of_ne m _ _ hne
  refine ⟨⟨h.npages_eq, h.chain, h.sub, h.link_none, h.ref_free, ?_, ?_, ?_, ?_, ?_, ?_⟩,
    fun _ => by rw [hkern], by simp only [slots, hkern]⟩
  · rw [hkern]
    exact h.taken
  · rw [hkern]
    exact h.low
  · rw [hkern]
    exact h.uvpt
  · rw [hkern]
    exact h.pde
  · rw [hkern]
    exact h.inj
  · intro i' t' j' hi' ht' hj'
    rw [hkern] at ht'
    by_cases htt : t' = t
    · subst htt
      obtain rfl := h.inj hi' hi ht' ht
      rw [mem_store_self]
      split
      · next hjj => rwa [hjj]
      · exact h.pte hi' ht' hj'
    · rw [mem_store_of_ne m _ _ htt]
      exact h.pte hi' ht' hj'

theorem giveTable {pp : Nat} (h : BootMap s m (pp :: l)) {i : Nat} (hi : KernSlot i)
    (h0 : m.mem s.kern i = 0) :
    Fill s m (pp :: l)
      ((((m.unlink pp).clear pp).setRef pp (m.ppRef pp + 1)).store s.kern i (pdeWord pp)) l := by
  have hpp : pp ∈ s.pages := h.sub List.mem_cons_self
  have hkp : s.kern ≠ pp := by
    rintro h
    exact s.kern_notMem (h ▸ hpp)
  have hnl : pp ∉ l := (List.nodup_cons.1 h.chain.nodup).1
  have hpres := present_pdeWord (s.lt_twoPow hpp)
  have hc := h.chain
  rw [hc.head_eq, List.head?_cons] at hc
  -- the directory changes in slot `i` only, the new table is empty, other tables are kept
  have hk : ∀ i', ((((m.unlink pp).clear pp).setRef pp (m.ppRef pp + 1)).store s.kern i
      (pdeWord pp)).mem s.kern i' = if i' = i then pdeWord pp else m.mem s.kern i' := by
    intro i'
    rw [mem_store_self]
    change (if i' = i then pdeWord pp else ((m.unlink pp).clear pp).mem s.kern i') = _
    rw [mem_clear_of_ne _ hkp]
    rfl
  have hnew : ∀ j, ((((m.unlink pp).clear pp).setRef pp (m.ppRef pp + 1)).store s.kern i
      (pdeWord pp)).mem pp j = 0 := by
    intro j
    rw [mem_store_of_ne _ _ _ hkp.symm]
    exact mem_clear_self _ pp j
  have hother : ∀ t, t ≠ pp → t ≠ s.kern → ((((m.unlink pp).clear pp).setRef pp
      (m.ppRef pp + 1)).store s.kern i (pdeWord pp)).mem t = m.mem t := by
    intro t h1 h2
    rw [mem_store_of_ne _ _ _ h2]
    exact mem_clear_of_ne _ h1
  have hold : ∀ {i' t}, i' ≠ i → KernSlot i' → present (m.mem s.kern i') = some t → t ≠ pp := by
    rintro i' t - hi' ht rfl
    exact (h.table_mem hi' ht).2.1 List.mem_cons_self
  refine ⟨⟨h.npages_eq, hc.pop, ?_, ?_, ?_, ?_, ?_, ?_, ?_, ?_, ?_⟩, ?_, ?_⟩
  · exact fun hp => h.sub (List.mem_cons_of_mem _ hp)
  · intro p hp
    change (m.unlink pp).ppLink p = none
    by_cases hpp : p = pp
    · subst hpp
      simp [Phys.unlink]
    · rw [ppLink_unlink_of_ne m hpp]
      exact h.link_none (by simp [hpp, hp])
  · intro p hp
    have hne : p ≠ pp := by
      rintro rfl
      exact hnl hp
    change Function.update m.ppRef pp _ p = 0
    rw [Function.update_of_ne hne]
    exact h.ref_free (List.mem_cons_of_mem _ hp)
  · intro p hp hpl
    change Function.update m.ppRef pp _ p = 1 ∧ _
    by_cases hpp : p = pp
    · subst hpp
      refine ⟨?_, i, hi, by rw [hk, if_pos rfl, hpres]⟩
      rw [Function.update_self, h.ref_free List.mem_cons_self]
      rfl
    · rw [Function.update_of_ne hpp]
      obtain ⟨href, i', hi', ht⟩ := h.taken hp (by simp [hpp, hpl])
      refine ⟨href, i', hi', ?_⟩
      rw [hk, if_neg, ht]
      rintro rfl
      rw [h0, present_zero] at ht
      cases ht
  · intro i' hi'
    rw [hk, if_neg (by have := hi.ge; omega)]
    exact h.low hi'
  · rw [hk, if_neg hi.ne.symm]
    exact h.uvpt
  · intro i' hi'
    rw [hk]
    split
    · exact .inr ⟨pp, hpp, hnl, rfl⟩
    · rcases h.pde hi' with h0 | ⟨t, ht, htl, hw⟩
      · exact .inl h0
      · exact .inr ⟨t, ht, fun hm => htl (List.mem_cons_of_mem _ hm), hw⟩
  · intro i1 i2 t h1 h2 ht1 ht2
    rw [hk] at ht1 ht2
    by_cases hi1 : i1 = i <;> by_cases hi2 : i2 = i
    · rw [hi1, hi2]
    · rw [if_pos hi1, hpres] at ht1
      rw [if_neg hi2] at ht2
      exact absurd (Option.some.inj ht1).symm (hold hi2 h2 ht2)
    · rw [if_pos hi2, hpres] at ht2
      rw [if_neg hi1] at ht1
      exact absurd (Option.some.inj ht2).symm (hold hi1 h1 ht1)
    · rw [if_neg hi1] at ht1
      rw [if_neg hi2] at ht2
      exact h.inj h1 h2 ht1 ht2
  · intro i' t j hi' ht hj
    rw [hk] at ht
    by_cases hii : i' = i
    · rw [if_pos hii, hpres] at ht
      cases ht
      rw [hnew]
      exact .zero ..
    · rw [if_neg hii] at ht
      have htk : t ≠ s.kern := by
        rintro rfl
        exact s.kern_notMem (h.table_mem hi' ht).1
      rw [hother t (hold hii hi' ht) htk]
      exact h.pte hi' ht hj
  · intro i' hi'
    rw [hk, if_neg]
    rintro rfl
    exact hi' h0
  · have hm : (((m.unlink pp).clear pp).setRef pp (m.ppRef pp + 1)).mem s.kern = m.mem s.kern :=
      mem_clear_of_ne _ hkp
    have h0' : (((m.unlink pp).clear pp).setRef pp (m.ppRef pp + 1)).mem s.kern i = 0 := by
      rw [hm]
      exact h0
    have hs := slots_store hi.lt h0' (pdeWord_ne_zero pp)
    have hs' : slots (((m.unlink pp).clear pp).setRef pp (m.ppRef pp + 1)) s.kern =
        slots m s.kern := by
      simp only [slots, hm]
    rw [List.length_cons, ← hs', ← hs]
    omega

theorem kaddr_pdeWord (h : BootMap s m l) {t : Nat} (ht : t ∈ s.pages) :
    m.kaddr (pteAddr (pdeWord t)) = some t := by
  have hp : pgnum (pteAddr (pdeWord t)) = t := by
    rw [pgnum_pteAddr, pgnum_pdeWord (s.lt_twoPow ht)]
  rw [kaddr_eq (by rw [hp, h.npages_eq]; exact s.lt ht), hp]

theorem pgdirWalk_some (h : BootMap s m l) (hi : KernSlot (pdx va)) {t : Nat}
    (ht : present (m.mem s.kern (pdx va)) = some t) (create : Bool) :
    pgdirWalk m (some s.kern) va create = some (m, some (t, ptx va)) := by
  obtain ⟨htp, -, hw⟩ := h.table_mem hi ht
  have hp : pdeWord t &&& pteP ≠ 0 := (present_eq_some_iff.1 (present_pdeWord (s.lt_twoPow htp))).1
  rw [pgdirWalk, Option.bind_eq_bind, Option.bind_some, hw, if_neg hp, h.kaddr_pdeWord htp]
  rfl

theorem pgdirWalk_create (h : BootMap s m l) (hi : KernSlot (pdx va)) :
    (l = [] ∧ 0 < slots m s.kern ∧ pgdirWalk m (some s.kern) va true = some (m, none)) ∨
    ∃ m' l' t, pgdirWalk m (some s.kern) va true = some (m', some (t, ptx va)) ∧
      Fill s m l m' l' ∧ present (m'.mem s.kern (pdx va)) = some t := by
  cases ht : present (m.mem s.kern (pdx va)) with
  | some t => exact .inr ⟨m, l, t, h.pgdirWalk_some hi ht true, h.fill, ht⟩
  | none =>
    have h0 := h.pde_eq_zero hi ht
    have hz : (0 : Word) &&& pteP = 0 := by decide
    cases l with
    | nil =>
      refine .inl ⟨rfl, slots_pos hi.lt h0, ?_⟩
      have hl : m.pageFreeList = none := h.chain.head_eq
      rw [pgdirWalk, Option.bind_eq_bind, Option.bind_some, h0, if_pos hz, pageAlloc, hl]
      rfl
    | cons pp l =>
      have hpp : pp ∈ s.pages := h.sub List.mem_cons_self
      have hfill := h.giveTable hi h0
      refine .inr ⟨_, l, pp, ?_, hfill, ?_⟩
      · have halloc := pageAlloc_head h.chain.head_eq (by rw [h.npages_eq]; exact s.lt hpp)
          (by rw [h.npages_eq]; have := s.npages_le; omega) true
        have hkaddr := hfill.map.kaddr_pdeWord hpp
        simp only [pgdirWalk, Option.bind_eq_bind, Option.bind_some, h0, hz, if_true,
          Bool.not_true, Bool.false_eq_true, if_false, halloc]
        rw [← pdeWord, mem_store_self, if_pos rfl]
        exact (congrArg (Option.bind · _) hkaddr).trans rfl
      · rw [mem_store_self, if_pos rfl, present_pdeWord (s.lt_twoPow hpp)]

theorem bootMapStep (h : BootMap s m l) {pa perm : Word} {i : Nat}
    (hi : KernSlot (pdx (va + BitVec.ofNat 32 i * pgsize)))
    (hw : KernPte s.mmio (pdx (va + BitVec.ofNat 32 i * pgsize))
      (ptx (va + BitVec.ofNat 32 i * pgsize))
      ((pa + BitVec.ofNat 32 i * pgsize) ||| perm ||| pteP)) :
    (l = [] ∧ 0 < slots m s.kern ∧ bootMapStep s.kern va pa perm m i = none) ∨
    ∃ m' l', bootMapStep s.kern va pa perm m i = some m' ∧ Fill s m l m' l' ∧
      m'.mem s.kern (pdx (va + BitVec.ofNat 32 i * pgsize)) ≠ 0 := by
  rcases h.pgdirWalk_create hi with ⟨hl, hs, hwalk⟩ | ⟨m', l', t, hwalk, hfill, ht⟩
  · refine .inl ⟨hl, hs, ?_⟩
    rw [Kern.bootMapStep, hwalk]
    rfl
  · have hne : m'.mem s.kern (pdx (va + BitVec.ofNat 32 i * pgsize)) ≠ 0 := by
      intro h0
      rw [h0, present_zero] at ht
      cases ht
    have hst := hfill.map.store hi ht hw
    refine .inr ⟨_, l', ?_, hfill.trans hst, ?_⟩
    · rw [Kern.bootMapStep, hwalk]
      rfl
    · rw [hst.kept hne]
      exact hne

def Maps (s : Setup) (va size pa perm : Word) : Prop :=
  ∀ i, i < (size / pgsize).toNat →
    KernSlot (pdx (va + BitVec.ofNat 32 i * pgsize)) ∧
    KernPte s.mmio (pdx (va + BitVec.ofNat 32 i * pgsize)) (ptx (va + BitVec.ofNat 32 i * pgsize))
      ((pa + BitVec.ofNat 32 i * pgsize) ||| perm ||| pteP)

theorem bootMapRegion (h : BootMap s m l) {size pa perm : Word} {m' : Phys}
    (hmaps : Maps s va size pa perm) (hm : Kern.bootMapRegion m s.kern va size pa perm = some m') :
    ∃ l', Fill s m l m' l' := by
  refine foldlM_keeps (P := fun m' => ∃ l', Fill s m l m' l') ?_ hm ⟨l, h.fill⟩
  rintro i m₁ m₂ hi ⟨l₁, hf⟩ hst
  obtain ⟨hslot, hw⟩ := hmaps i (List.mem_range.1 hi)
  rcases hf.map.bootMapStep hslot hw with ⟨-, -, hn⟩ | ⟨m₃, l₃, hst', hf', -⟩
  · rw [hn] at hst
    cases hst
  · rw [hst'] at hst
    cases hst
    exact ⟨l₃, hf.trans hf'⟩

theorem bootMapRegion_some (h : BootMap s m l) (hl : slots m s.kern ≤ l.length)
    {size pa perm : Word} (hmaps : Maps s va size pa perm) :
    ∃ m' l', Kern.bootMapRegion m s.kern va size pa perm = some m' ∧ Fill s m l m' l' ∧
      (0 < (size / pgsize).toNat → m'.mem s.kern (pdx va) ≠ 0) := by
  obtain ⟨m', hm', l', hf, hne⟩ := foldlM_range (Kern.bootMapStep s.kern va pa perm)
    (fun i m' => ∃ l', Fill s m l m' l' ∧ (0 < i → m'.mem s.kern (pdx va) ≠ 0))
    (n := (size / pgsize).toNat) ⟨l, h.fill, fun h => absurd h (by decide)⟩ (by
    rintro i m₁ hi ⟨l₁, hf, hne⟩
    obtain ⟨hslot, hw⟩ := hmaps i hi
    rcases hf.map.bootMapStep hslot hw with ⟨hn, hpos, -⟩ | ⟨m₃, l₃, hst, hf', hne'⟩
    · have := hf.spent
      rw [hn, List.length_nil] at this
      omega
    · refine ⟨m₃, hst, l₃, hf.trans hf', fun _ => ?_⟩
      rcases Nat.eq_zero_or_pos i with rfl | hi
      · simpa using hne'
      · rw [hf'.kept (hne hi)]
        exact hne hi)
  exact ⟨m', l', hm', hf, hne⟩

end BootMap

end Jos.Kern
