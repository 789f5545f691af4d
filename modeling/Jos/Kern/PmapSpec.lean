import Jos.Kern.Shape

/-! What the functions of `kern/pmap.c` do to the address space of an environment, below
`UTOP`.  None of them panics on tables that keep the invariant. -/

namespace Jos.Kern

open Lib Phys

def dirIx (va : Word) (h : va < utop) : Pdx := ⟨pdx va, (pdx_lt_iff va).2 h⟩

def tabIx (va : Word) : Ptx := ⟨ptx va, ptx_lt va⟩

section

variable {b : Base} {m : Phys} {ds : Dirs} {out : Set Nat} {l : List Nat}
  {e : EnvIx} {d t pp : Nat} {va : Word}

namespace Shape

theorem lt_npages (h : Shape b m ds) {p : Nat} (hp : p ∈ b.pool) : p < m.npages := by
  rw [h.npages_eq]
  exact b.pool_lt hp

theorem npages_le (h : Shape b m ds) : m.npages ≤ 2 ^ 20 := by
  have := b.npages_le
  rw [h.npages_eq]
  omega

theorem kaddr_pdeWord (h : Shape b m ds) (ht : t ∈ b.pool) :
    m.kaddr (pteAddr (pdeWord t)) = some t := by
  have hp : pgnum (pteAddr (pdeWord t)) = t := by rw [pgnum_pteAddr, pgnum_pdeWord (b.lt ht)]
  rw [kaddr_eq (by rw [hp]; exact h.lt_npages ht), hp]

theorem pgdirWalk_some (h : Shape b m ds) (hd : ds e = some d) (hva : va < utop) (create : Bool)
    (ht : table m ds e (dirIx va hva) = some t) :
    pgdirWalk m (some d) va create = some (m, some (t, ptx va)) := by
  obtain ⟨d', hd', htp, hw⟩ := h.table_eq_some ht
  obtain rfl : d = d' := Option.some.inj (hd.symm.trans hd')
  replace hw : m.mem d (pdx va) = pdeWord t := hw
  have hp : pdeWord t &&& pteP ≠ 0 := (present_eq_some_iff.1 (present_pdeWord (b.lt htp))).1
  rw [pgdirWalk, Option.bind_eq_bind, Option.bind_some, hw, if_neg hp, h.kaddr_pdeWord htp]
  rfl

theorem pgdirWalk_none (h : Shape b m ds) (hd : ds e = some d) (hva : va < utop)
    (ht : table m ds e (dirIx va hva) = none) :
    pgdirWalk m (some d) va false = some (m, none) := by
  have hw : m.mem d (pdx va) = 0 := h.pde_eq_zero hd ht
  rw [pgdirWalk, Option.bind_eq_bind, Option.bind_some, hw, if_pos (by decide)]
  rfl

end Shape

theorem FreeList.target_ne {R : Type} [Fintype R] {f : R → Option Nat} {pool : Set Nat}
    (h : FreeList m f pool out l) (hp : pp ∈ l) (r : R) : f r ≠ some pp := fun hr =>
  h.balanced.notMem_free hr hp

namespace Spaces

theorem pageAlloc_nil (h : Spaces b m ds out []) (zero : Bool) :
    pageAlloc m zero = some (m, none) := by
  have hl : m.pageFreeList = none := h.free.chain.head_eq
  rw [pageAlloc, hl]

theorem pageAlloc_cons (h : Spaces b m ds out (pp :: l)) (zero : Bool) :
    pageAlloc m zero =
      some (if zero then (m.unlink pp).clear pp else m.unlink pp, some pp) :=
  pageAlloc_head h.free.chain.head_eq (h.shape.lt_npages h.free.mem_pool_of_head.1)
    h.shape.npages_le zero

theorem unlink (h : Spaces b m ds out (pp :: l)) :
    Spaces b (m.unlink pp) ds (insert pp out) l where
  shape := h.shape.congr rfl rfl
  free := h.free.unlink

theorem setPage (h : Spaces b m ds out l) (hp : pp ∈ b.pool)
    (hs : ∀ r : Ref, r.Structural → target m ds r ≠ some pp) (f : Nat → Word) :
    Spaces b (m.setPage pp f) ds out l where
  shape := h.shape.setPage hp hs f
  free := by
    rw [target_setPage hs]
    exact h.free.congr rfl rfl rfl

theorem giveTable (h : Spaces b m ds out l) (hd : ds e = some d) {i : Pdx}
    (ht : table m ds e i = none) (hpp : pp ∈ out) (hz : ∀ j, m.mem pp j = 0) :
    Spaces b ((m.setRef pp (m.ppRef pp + 1)).store d i (pdeWord pp)) ds (out \ {pp}) l ∧
      entry ((m.setRef pp (m.ppRef pp + 1)).store d i (pdeWord pp)) ds = entry m ds ∧
      target ((m.setRef pp (m.ppRef pp + 1)).store d i (pdeWord pp)) ds =
        Function.update (target m ds) (.pde e i) (some pp) := by
  obtain ⟨hpool, hzero⟩ := h.free.balanced.out_mem hpp
  have hnl : pp ∉ l := fun hl => (h.free.balanced.mem_free.1 hl).2.2 hpp
  have hshape : Shape b (m.setRef pp (m.ppRef pp + 1)) ds := h.shape.congr rfl rfl
  obtain ⟨hs, htgt, hent⟩ := hshape.store_dir hd i (w := pdeWord pp)
    (.inr ⟨pp, hpool, rfl, refCount_eq_zero_iff.1 hzero, fun j => hz j⟩)
    (fun j => entry_eq_zero ht j)
  rw [present_pdeWord (b.lt hpool), target_setRef] at htgt
  refine ⟨⟨hs, ?_⟩, hent, htgt⟩
  rw [htgt]
  have hnone : target m ds (.pde e i) = none := ht
  exact (h.free.incref hnone hpool hnl).congr rfl rfl rfl

theorem pageAlloc_zeroed (h : Spaces b m ds out (pp :: l)) :
    ∃ m', pageAlloc m true = some (m', some pp) ∧ Spaces b m' ds (insert pp out) l ∧
      target m' ds = target m ds ∧ entry m' ds = entry m ds ∧ ∀ j, m'.mem pp j = 0 := by
  have hpp : ∀ r, target m ds r ≠ some pp := h.free.target_ne List.mem_cons_self
  exact ⟨_, h.pageAlloc_cons true,
    h.unlink.setPage h.free.mem_pool_of_head.1 (fun r _ => hpp r) _,
    target_setPage (m := m.unlink pp) fun r _ => hpp r,
    entry_setPage (m := m.unlink pp) (fun e => hpp (.dir e)) (fun e i => hpp (.pde e i)),
    mem_clear_self _ pp⟩

theorem pgdirWalk_create (h : Spaces b m ds out (pp :: l)) (hd : ds e = some d) (hva : va < utop)
    (ht : table m ds e (dirIx va hva) = none) :
    ∃ m', pgdirWalk m (some d) va true = some (m', some (pp, ptx va)) ∧ Spaces b m' ds out l ∧
      entry m' ds = entry m ds ∧
      target m' ds = Function.update (target m ds) (.pde e (dirIx va hva)) (some pp) := by
  obtain ⟨hpool, -, hout⟩ := h.free.mem_pool_of_head
  have hw : m.mem d (pdx va) = 0 := h.shape.pde_eq_zero hd ht
  obtain ⟨m2, halloc, h2, htgt, hent, hz⟩ := h.pageAlloc_zeroed
  have hnone : target m2 ds (.pde e (dirIx va hva)) = none := by rw [htgt]; exact ht
  obtain ⟨h3, hent3, htgt3⟩ := h2.giveTable hd hnone (Set.mem_insert _ _) hz
  rw [Set.insert_sdiff_self_of_notMem hout] at h3
  refine ⟨_, ?_, h3, hent3.trans hent, by rw [htgt3, htgt]⟩
  have hk := h3.shape.kaddr_pdeWord hpool
  have hz : (0 : Word) &&& pteP = 0 := by decide
  simp only [pgdirWalk, Option.bind_eq_bind, Option.bind_some, hw, hz, if_true, Bool.not_true,
    Bool.false_eq_true, if_false, halloc]
  rw [← pdeWord, mem_store_self, if_pos rfl]
  change (Phys.kaddr ((m2.setRef pp (m2.ppRef pp + 1)).store d (dirIx va hva) (pdeWord pp)) _).bind _
    = _
  rw [hk]
  rfl

theorem pgdirWalk_nomem (h : Spaces b m ds out []) (hd : ds e = some d) (hva : va < utop)
    (ht : table m ds e (dirIx va hva) = none) :
    pgdirWalk m (some d) va true = some (m, none) := by
  have hw : m.mem d (pdx va) = 0 := h.shape.pde_eq_zero hd ht
  rw [pgdirWalk, Option.bind_eq_bind, Option.bind_some, hw, if_pos (by decide), h.pageAlloc_nil true]
  rfl

end Spaces

namespace Shape

theorem pageLookup_none (h : Shape b m ds) (hd : ds e = some d) (hva : va < utop)
    (hp : target m ds (.pte e (dirIx va hva) (tabIx va)) = none) :
    pageLookup m (some d) va = some none := by
  cases ht : table m ds e (dirIx va hva) with
  | none =>
    rw [pageLookup, h.pgdirWalk_none hd hva ht]
    rfl
  | some t =>
    rw [target, entry_eq_mem ht, present_eq_none_iff] at hp
    replace hp : m.mem t (ptx va) &&& pteP = 0 := hp
    rw [pageLookup, h.pgdirWalk_some hd hva false ht]
    simp [hp]

theorem pageLookup_some (h : Shape b m ds) (hd : ds e = some d) (hva : va < utop)
    (hp : target m ds (.pte e (dirIx va hva) (tabIx va)) = some pp) (hpp : pp ∈ b.pool) :
    ∃ t, table m ds e (dirIx va hva) = some t ∧
      pageLookup m (some d) va = some (some (pp, t, ptx va)) := by
  cases ht : table m ds e (dirIx va hva) with
  | none =>
    rw [target, entry_eq_zero ht] at hp
    cases hp
  | some t =>
    refine ⟨t, rfl, ?_⟩
    rw [target, entry_eq_mem ht, present_eq_some_iff] at hp
    obtain ⟨hp1, hp2⟩ := hp
    replace hp1 : m.mem t (ptx va) &&& pteP ≠ 0 := hp1
    replace hp2 : pgnum (m.mem t (ptx va)) = pp := hp2
    have hpa : m.pa2page (pteAddr (m.mem t (ptx va))) = some pp := by
      rw [pa2page_eq (by rw [pgnum_pteAddr, hp2]; exact h.lt_npages hpp), pgnum_pteAddr, hp2]
    rw [pageLookup, h.pgdirWalk_some hd hva false ht]
    simp only [Option.bind_eq_bind, Option.bind_some, if_neg hp1, hpa]
    rfl

theorem pageRemove (h : Shape b m ds) (held : Option Nat)
    (hf : FreeList m (hold held (target m ds)) b.pool out l) (hd : ds e = some d) (hva : va < utop)
    (hle : ∀ q, target m ds (.pte e (dirIx va hva) (tabIx va)) = some q →
      refCount (hold held (target m ds)) q ≤ 65536) :
    ∃ m' l', pageRemove m (some d) va = some m' ∧ Shape b m' ds ∧
      FreeList m' (hold held (target m' ds)) b.pool out l' ∧ l.length ≤ l'.length ∧
      table m' ds = table m ds ∧
      target m' ds =
        Function.update (target m ds) (.pte e (dirIx va hva) (tabIx va)) none ∧
      ∀ e' i j, entry m' ds e' i j =
        if e' = e ∧ i = dirIx va hva ∧ j = tabIx va then 0 else entry m ds e' i j := by
  cases hq : target m ds (.pte e (dirIx va hva) (tabIx va)) with
  | none =>
    refine ⟨m, l, ?_, h, hf, Nat.le_refl _, rfl, ?_, ?_⟩
    · rw [Kern.pageRemove, h.pageLookup_none hd hva hq]
      rfl
    · exact (Function.update_eq_self_iff.2 hq.symm).symm
    · intro e' i j
      split
      · next hc =>
        obtain ⟨rfl, rfl, rfl⟩ := hc
        exact (h.pte _ _ _).eq_zero hq
      · rfl
  | some q =>
    have hqp : hold held (target m ds) (some (.pte e (dirIx va hva) (tabIx va))) = some q := hq
    obtain ⟨m1, l', hdec, hmem, hnp, hf1, hlen, -⟩ := hf.pageDecref hqp (hle q hq)
    obtain ⟨t, ht, hlook⟩ := h.pageLookup_some hd hva hq (hf.balanced.target_mem hqp)
    have h1 : Shape b m1 ds := h.congr hmem hnp
    have htab1 : table m1 ds = table m ds := by
      funext e' i
      rw [table, table, hmem]
    have ht1 : table m1 ds e (dirIx va hva) = some t := by rw [htab1, ht]
    have hent1 : entry m1 ds = entry m ds := by
      funext e' i j
      rw [entry, entry, htab1, hmem]
    have htgt : target (m1.store t (tabIx va) 0) ds =
        Function.update (target m ds) (.pte e (dirIx va hva) (tabIx va)) none := by
      rw [target_store_table h1.excl ht1, present_zero, target_congr hmem]
    refine ⟨m1.store t (tabIx va) 0, l', ?_, ?_, ?_, hlen, ?_, htgt, ?_⟩
    · rw [Kern.pageRemove, hlook]
      simp [hdec, tabIx]
    · refine h1.store_table ht1 _ (.inl rfl) ?_
      intro p hp
      rw [present_zero] at hp
      cases hp
    · rw [htgt, ← hold_update_some]
      exact hf1.congr rfl rfl rfl
    · rw [table_store_table h1.excl ht1, htab1]
    · intro e' i j
      rw [entry_store_table h1.excl ht1, hent1]

theorem pageInsert_eq {m1 : Phys} {perm : Word} (h : Shape b m1 ds) (hd : ds e = some d)
    (hva : va < utop) (ht : table m1 ds e (dirIx va hva) = some t)
    (hwalk : pgdirWalk m (some d) va true = some (m1, some (t, ptx va))) :
    pageInsert m (some d) pp va perm =
      (Kern.pageRemove (m1.setRef pp (m1.ppRef pp + 1)) (some d) va).bind fun m2 =>
        some (m2.store t (ptx va) (page2pa pp ||| perm ||| pteP), 0) := by
  have h1 : Shape b (m1.setRef pp (m1.ppRef pp + 1)) ds := h.congr rfl rfl
  rw [pageInsert, hwalk]
  simp only [Option.bind_eq_bind, Option.bind_some]
  split
  · rfl
  · next hz =>
    have hnone : target (m1.setRef pp (m1.ppRef pp + 1)) ds
        (.pte e (dirIx va hva) (tabIx va)) = none := by
      rw [target_setRef, target, entry_eq_mem ht, present_eq_none_iff]
      exact not_not.1 hz
    rw [Kern.pageRemove, h1.pageLookup_none hd hva hnone]
    rfl

end Shape

theorem FreeList.hold_none {f : Ref → Option Nat} {pool : Set Nat} :
    FreeList m (hold none f) pool out l ↔ FreeList m f pool out l := by
  have hc : ∀ p, refCount (hold none f) p = refCount f p := by
    intro p
    rw [refCount_hold, if_neg (by simp), Nat.add_zero]
  constructor
  · intro h
    exact ⟨h.chain, h.balanced.of_refCount fun p => (hc p).symm, h.link_none⟩
  · intro h
    exact ⟨h.chain, h.balanced.of_refCount hc, h.link_none⟩

namespace Spaces

theorem pageRemove (h : Spaces b m ds out l) (hd : ds e = some d) (hva : va < utop)
    (hle : ∀ q, target m ds (.pte e (dirIx va hva) (tabIx va)) = some q →
      refCount (target m ds) q ≤ 65536) :
    ∃ m' l', pageRemove m (some d) va = some m' ∧ Spaces b m' ds out l' ∧
      l.length ≤ l'.length ∧ table m' ds = table m ds ∧
      target m' ds =
        Function.update (target m ds) (.pte e (dirIx va hva) (tabIx va)) none ∧
      ∀ e' i j, entry m' ds e' i j =
        if e' = e ∧ i = dirIx va hva ∧ j = tabIx va then 0 else entry m ds e' i j := by
  obtain ⟨m', l', heq, hs, hf, hlen, htab, htgt, hent⟩ :=
    h.shape.pageRemove none (FreeList.hold_none.2 h.free) hd hva (by
      intro q hq
      rw [refCount_hold, if_neg (by simp), Nat.add_zero]
      exact hle q hq)
  exact ⟨m', l', heq, ⟨hs, FreeList.hold_none.1 hf⟩, hlen, htab, htgt, hent⟩

/-- `page_insert` once there is a table.  The count it takes before the old mapping goes is
a reference held until the new entry is written. -/
theorem insertAt (h : Spaces b m ds out l) (hd : ds e = some d) (hva : va < utop)
    (ht : table m ds e (dirIx va hva) = some t) (hpp : pp ∈ b.pool) (hnl : pp ∉ l)
    (hs : ∀ r : Ref, r.Structural → target m ds r ≠ some pp) {w : Word} (hw : PteOk w)
    (hwp : present w = some pp)
    (hle : ∀ q, target m ds (.pte e (dirIx va hva) (tabIx va)) = some q →
      refCount (target m ds) q ≤ 65535) :
    ∃ m' l', Kern.pageRemove (m.setRef pp (m.ppRef pp + 1)) (some d) va = some m' ∧
      Spaces b (m'.store t (tabIx va) w) ds (out \ {pp}) l' ∧ l.length ≤ l'.length ∧
      target (m'.store t (tabIx va) w) ds =
        Function.update (target m ds) (.pte e (dirIx va hva) (tabIx va)) (some pp) ∧
      ∀ e' i j, entry (m'.store t (tabIx va) w) ds e' i j =
        if e' = e ∧ i = dirIx va hva ∧ j = tabIx va then w else entry m ds e' i j := by
  have hf1 : FreeList (m.setRef pp (m.ppRef pp + 1)) (hold (some pp) (target m ds)) b.pool
      (out \ {pp}) l := by
    rw [← hold_update_none none]
    exact (FreeList.hold_none.2 h.free).incref rfl hpp hnl
  have h1 : Shape b (m.setRef pp (m.ppRef pp + 1)) ds := h.shape.congr rfl rfl
  obtain ⟨m', l', heq, h2, hf2, hlen, htab, htgt, hent⟩ := h1.pageRemove (some pp) hf1 hd hva (by
    intro q hq
    rw [target_setRef] at hq ⊢
    rw [refCount_hold]
    have := hle q hq
    split <;> omega)
  rw [target_setRef] at htgt
  have ht' : table m' ds e (dirIx va hva) = some t := by rw [htab]; exact ht
  have htgt' : target (m'.store t (tabIx va) w) ds =
      Function.update (target m ds) (.pte e (dirIx va hva) (tabIx va)) (some pp) := by
    rw [target_store_table h2.excl ht', htgt, hwp, Function.update_idem]
  refine ⟨m', l', heq, ⟨?_, ?_⟩, hlen, htgt', ?_⟩
  · refine h2.store_table ht' _ hw ?_
    intro p hp r hr
    obtain rfl : pp = p := Option.some.inj (hwp.symm.trans hp)
    have hne : r ≠ .pte e (dirIx va hva) (tabIx va) := by
      rintro rfl
      cases hr
    rw [htgt, Function.update_of_ne hne]
    exact hs r hr
  · have hnone : target m' ds (.pte e (dirIx va hva) (tabIx va)) = none := by
      rw [htgt, Function.update_self]
    have hbal := hf2.balanced.of_refCount (refCount_hold_move hnone pp)
    rw [htgt, Function.update_idem, ← htgt'] at hbal
    exact ⟨hf2.chain, hbal, hf2.link_none⟩
  · intro e' i j
    rw [entry_store_table h2.excl ht', hent, entry_setRef]
    split <;> rfl

structure Inserted (m m' : Phys) (ds : Dirs) (e : EnvIx) (i : Pdx) (j : Ptx) (pp : Nat) (w : Word)
    (l : List Nat) : Prop where
  entry_eq : ∀ e' i' j', entry m' ds e' i' j' =
    if e' = e ∧ i' = i ∧ j' = j then w else entry m ds e' i' j'
  target_eq : ∃ f, (f = target m ds ∨ ∃ t ∈ l, f = Function.update (target m ds) (.pde e i) (some t)) ∧
    target m' ds = Function.update f (.pte e i j) (some pp)

theorem pteOk_entry {perm : Word} (hpp : pp < 2 ^ 20) (hperm : perm.toNat < 4096)
    (hU : perm &&& pteU ≠ 0) : PteOk (page2pa pp ||| perm ||| pteP) := by
  refine .inr ⟨(present_eq_some_iff.1 (present_entry hpp hperm)).1, ?_⟩
  have hbits : (perm ||| pteP) &&& pteU = perm &&& pteU := by
    have hPU : pteP &&& pteU = 0 := by decide
    rw [or_and_distrib, hPU]
    exact BitVec.or_zero
  rw [entry_and (by decide), hbits]
  exact hU

theorem pageInsert_table (h : Spaces b m ds out l) (hd : ds e = some d) (hva : va < utop)
    (ht : table m ds e (dirIx va hva) = some t) (hpp : pp ∈ b.pool) (hnl : pp ∉ l)
    (hs : ∀ r : Ref, r.Structural → target m ds r ≠ some pp)
    {perm : Word} (hperm : perm.toNat < 4096) (hU : perm &&& pteU ≠ 0)
    (hle : ∀ q, target m ds (.pte e (dirIx va hva) (tabIx va)) = some q →
      refCount (target m ds) q ≤ 65535) :
    ∃ m' l', pageInsert m (some d) pp va perm = some (m', 0) ∧ Spaces b m' ds (out \ {pp}) l' ∧
      l.length ≤ l'.length ∧
      Inserted m m' ds e (dirIx va hva) (tabIx va) pp (page2pa pp ||| perm ||| pteP) l := by
  obtain ⟨m', l', hrem, hsp, hlen, htgt, hent⟩ := h.insertAt hd hva ht hpp hnl hs
    (pteOk_entry (b.lt hpp) hperm hU) (present_entry (b.lt hpp) hperm) hle
  refine ⟨_, l', ?_, hsp, hlen, hent, _, .inl rfl, htgt⟩
  rw [h.shape.pageInsert_eq hd hva ht (h.shape.pgdirWalk_some hd hva true ht), hrem]
  rfl

theorem pageInsert (h : Spaces b m ds out l) (hd : ds e = some d) (hva : va < utop)
    (hpp : pp ∈ b.pool) (hnl : pp ∉ l) (hs : ∀ r : Ref, r.Structural → target m ds r ≠ some pp)
    {perm : Word} (hperm : perm.toNat < 4096) (hU : perm &&& pteU ≠ 0)
    (hle : ∀ q, target m ds (.pte e (dirIx va hva) (tabIx va)) = some q →
      refCount (target m ds) q ≤ 65535) :
    (l = [] ∧ table m ds e (dirIx va hva) = none ∧
      pageInsert m (some d) pp va perm = some (m, -eNoMem)) ∨
    ∃ m' l', pageInsert m (some d) pp va perm = some (m', 0) ∧ Spaces b m' ds (out \ {pp}) l' ∧
      l.length ≤ l'.length + 1 ∧
      Inserted m m' ds e (dirIx va hva) (tabIx va) pp (page2pa pp ||| perm ||| pteP) l := by
  have hwp : present (page2pa pp ||| perm ||| pteP) = some pp := present_entry (b.lt hpp) hperm
  have hw : PteOk (page2pa pp ||| perm ||| pteP) := pteOk_entry (b.lt hpp) hperm hU
  cases ht : table m ds e (dirIx va hva) with
  | some t =>
    obtain ⟨m', l', heq, hsp, hlen, hins⟩ := h.pageInsert_table hd hva ht hpp hnl hs hperm hU hle
    exact .inr ⟨m', l', heq, hsp, by omega, hins⟩
  | none =>
    cases l with
    | nil =>
      refine .inl ⟨rfl, rfl, ?_⟩
      rw [Kern.pageInsert, h.pgdirWalk_nomem hd hva ht]
      rfl
    | cons t l =>
      obtain ⟨m1, hwalk, h1, hent1, htgt1⟩ := h.pgdirWalk_create hd hva ht
      have ht1 : table m1 ds e (dirIx va hva) = some t := by
        have := congrFun htgt1 (.pde e (dirIx va hva))
        rwa [Function.update_self] at this
      have hne : t ≠ pp := by
        rintro rfl
        exact hnl List.mem_cons_self
      have hs1 : ∀ r : Ref, r.Structural → target m1 ds r ≠ some pp := by
        intro r hr
        rw [htgt1]
        by_cases hrr : r = .pde e (dirIx va hva)
        · subst hrr
          simpa using hne
        · rw [Function.update_of_ne hrr]
          exact hs r hr
      have hnone : target m1 ds (.pte e (dirIx va hva) (tabIx va)) = none := by
        rw [target, hent1, entry_eq_zero ht, present_zero]
      obtain ⟨m', l', hrem, hsp, hlen, htgt, hent⟩ := h1.insertAt hd hva ht1 hpp
        (fun hl => hnl (List.mem_cons_of_mem _ hl)) hs1 hw hwp (by simp [hnone])
      refine .inr ⟨_, l', ?_, hsp, by simp only [List.length_cons]; omega, ?_, _,
        .inr ⟨t, List.mem_cons_self, htgt1⟩, htgt⟩
      · rw [h1.shape.pageInsert_eq hd hva ht1 hwalk, hrem]
        rfl
      · rw [← hent1]
        exact hent

end Spaces

end

end Jos.Kern
