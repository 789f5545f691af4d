import Jos.Kern.Atomic
import Jos.Kern.Transfer
import Jos.Kern.Bytes
import Jos.User.Vm

/-! The kernel behind the paging commands: its address spaces below `UTOP`, seen as a `Vm`,
and what its calls and the hardware do to them. -/

namespace Jos.User

open Kern Lib Phys Kernel

section Frame

/-! Page tables and new pages are all that the paging functions write to. -/

variable {m m' : Phys} {d p pp : Nat} {va perm r : Word} {x : Option (Nat × Nat)} {create : Bool}

theorem pageDecref_mem (h : pageDecref m pp = some m') : m'.mem = m.mem := by
  rw [pageDecref] at h
  split at h
  · rw [pageFree] at h
    split at h
    · cases h
      rfl
    · cases h
  · cases h
    rfl

theorem kaddr_eq_some {pa : Word} {t : Nat} (h : m.kaddr pa = some t) : t = pgnum pa := by
  rw [kaddr] at h
  split at h
  · cases h
  · exact (Option.some.inj h).symm

theorem pageAlloc_mem {q : Nat} (hfree : ∀ q, m.pageFreeList = some q → q ≠ p ∧ q < 2 ^ 20)
    (h : pageAlloc m true = some (m', some q)) : q ≠ p ∧ q < 2 ^ 20 ∧ m'.mem p = m.mem p := by
  rw [pageAlloc] at h
  split at h
  · cases h
  · next hl =>
    rw [if_pos rfl] at h
    obtain ⟨q', hk, h⟩ := Option.bind_eq_some_iff.1 h
    cases h
    obtain ⟨hqp, hq⟩ := hfree q hl
    have hq' : q' = q := by rw [kaddr_eq_some hk, pgnum_page2pa hq]
    subst hq'
    exact ⟨hqp, hq, mem_setPage_of_ne _ _ hqp.symm⟩

theorem pgdirWalk_mem (h : pgdirWalk m (some d) va create = some (m', x)) (hd : p ≠ d)
    (ht : present (m.mem d (pdx va)) ≠ some p)
    (hfree : ∀ q, m.pageFreeList = some q → q ≠ p ∧ q < 2 ^ 20) :
    m'.mem p = m.mem p ∧ present (m'.mem d (pdx va)) ≠ some p ∧
      ∀ t j, x = some (t, j) → t ≠ p := by
  rw [pgdirWalk, Option.bind_eq_bind, Option.bind_some] at h
  split_ifs at h with hp hc
  · cases h
    exact ⟨rfl, ht, fun t j hx => by cases hx⟩
  · obtain ⟨⟨m₁, y⟩, halloc, h⟩ := Option.bind_eq_some_iff.1 h
    cases y with
    | none =>
      cases h
      obtain ⟨rfl, -⟩ := pageAlloc_eq_none halloc
      exact ⟨rfl, ht, fun t j hx => by cases hx⟩
    | some q =>
      obtain ⟨hqp, hq, hm₁⟩ := pageAlloc_mem hfree halloc
      obtain ⟨t, hk, h⟩ := Option.bind_eq_some_iff.1 h
      cases h
      have hpde : ((m₁.setRef q (m₁.ppRef q + 1)).store d (pdx va)
          (page2pa q ||| pteP ||| pteW ||| pteU)).mem d (pdx va) = pdeWord q := by
        rw [mem_store_self, if_pos rfl]
        rfl
      refine ⟨?_, ?_, fun t' j hx => ?_⟩
      · rw [mem_store_of_ne _ _ _ hd]
        exact hm₁
      · rw [hpde, present_pdeWord hq]
        exact fun hx => hqp (Option.some.inj hx)
      · cases hx
        rw [hpde] at hk
        rw [kaddr_eq_some hk, pgnum_pteAddr, pgnum_pdeWord hq]
        exact hqp
  · obtain ⟨t, hk, h⟩ := Option.bind_eq_some_iff.1 h
    cases h
    refine ⟨rfl, ht, fun t' j hx => ?_⟩
    cases hx
    rintro rfl
    refine ht (present_eq_some_iff.2 ⟨hp, ?_⟩)
    rw [kaddr_eq_some hk, pgnum_pteAddr]

theorem pageLookup_mem {t j : Nat} (h : pageLookup m (some d) va = some (some (pp, t, j))) :
    present (m.mem d (pdx va)) = some t := by
  rw [pageLookup] at h
  obtain ⟨⟨m₁, x⟩, hw, h⟩ := Option.bind_eq_some_iff.1 h
  rw [pgdirWalk, Option.bind_eq_bind, Option.bind_some] at hw
  split_ifs at hw with hp hc
  · cases hw
    cases h
  · exact absurd rfl hc
  · obtain ⟨t', hk, hw⟩ := Option.bind_eq_some_iff.1 hw
    cases hw
    dsimp only at h
    split at h
    · cases h
    · obtain ⟨q, -, h⟩ := Option.bind_eq_some_iff.1 h
      cases h
      rw [present_eq_some_iff, kaddr_eq_some hk, pgnum_pteAddr]
      exact ⟨hp, rfl⟩

theorem pageRemove_mem (h : pageRemove m (some d) va = some m')
    (ht : present (m.mem d (pdx va)) ≠ some p) : m'.mem p = m.mem p := by
  rw [pageRemove] at h
  obtain ⟨look, hlook, h⟩ := Option.bind_eq_some_iff.1 h
  cases look with
  | none =>
    cases h
    rfl
  | some y =>
    obtain ⟨pp, t, j⟩ := y
    obtain ⟨m₁, hdec, h⟩ := Option.bind_eq_some_iff.1 h
    cases h
    have htp : p ≠ t := fun hpt => ht (hpt ▸ pageLookup_mem hlook)
    rw [mem_store_of_ne _ _ _ htp, pageDecref_mem hdec]

theorem pageInsert_mem (h : pageInsert m (some d) pp va perm = some (m', r)) (hd : p ≠ d)
    (ht : present (m.mem d (pdx va)) ≠ some p)
    (hfree : ∀ q, m.pageFreeList = some q → q ≠ p ∧ q < 2 ^ 20) : m'.mem p = m.mem p := by
  rw [pageInsert] at h
  obtain ⟨⟨m₁, x⟩, hw, h⟩ := Option.bind_eq_some_iff.1 h
  obtain ⟨hm, ht', htab⟩ := pgdirWalk_mem hw hd ht hfree
  cases x with
  | none =>
    cases h
    exact hm
  | some y =>
    obtain ⟨t, j⟩ := y
    have htp := (htab t j rfl).symm
    dsimp only at h
    split at h
    · obtain ⟨m₂, hrem, h⟩ := Option.bind_eq_some_iff.1 h
      cases h
      rw [mem_store_of_ne _ _ _ htp, pageRemove_mem hrem ht']
      exact hm
    · cases h
      rw [mem_store_of_ne _ _ _ htp]
      exact hm

end Frame

def vpte (k : Kernel) (e : EnvIx) (pn : Nat) : Option (Nat × Word) :=
  if h : pn / 1024 < 955 then
    let w := entry k.toPhys k.dirs e ⟨pn / 1024, h⟩ ⟨pn % 1024, Nat.mod_lt _ (by decide)⟩
    (present w).map fun p => (p, w &&& 0xFFF)
  else none

/-- `s` is what the environments of `k` have mapped below `UTOP`. -/
structure Sees (k : Kernel) (s : Vm) : Prop where
  pte : ∀ e pn, s.pte e pn = vpte k e pn
  mem : ∀ e pn p f, s.pte e pn = some (p, f) → ∀ off, s.mem p off = k.loadByte p off

variable {b : Base} {k k' : Kernel} {s : Vm} {c : Cpu} {e : EnvIx} {va perm r : Word}
  {pn p : Nat} {f : Word}

theorem vpte_eq_some (h : vpte k e pn = some (p, f)) :
    ∃ i j, target k.toPhys k.dirs (.pte e i j) = some p := by
  rw [vpte] at h
  split at h
  · next hpn =>
    obtain ⟨q, hq, heq⟩ := Option.map_eq_some_iff.1 h
    cases heq
    exact ⟨_, _, hq⟩
  · cases h

theorem vpte_pgnum (hva : va < utop) : vpte k e (pgnum va) =
    (present (entry k.toPhys k.dirs e (dirIx va hva) (tabIx va))).map fun p =>
      (p, entry k.toPhys k.dirs e (dirIx va hva) (tabIx va) &&& 0xFFF) := by
  have hi : pgnum va / 1024 = pdx va := by
    rw [pgnum_eq, pdx_eq]
    omega
  have hj : pgnum va % 1024 = ptx va := by
    rw [pgnum_eq, ptx_eq]
  have hlt : pgnum va / 1024 < 955 := hi ▸ (dirIx va hva).isLt
  have hdir : (⟨pgnum va / 1024, hlt⟩ : Pdx) = dirIx va hva := Fin.ext hi
  have htab : (⟨pgnum va % 1024, Nat.mod_lt _ (by decide)⟩ : Ptx) = tabIx va := Fin.ext hj
  rw [vpte, dif_pos hlt, hdir, htab]

theorem vpte_of_maps {hva : va < utop} {w : Word} (h : Maps k k' e va hva w) (e' : EnvIx)
    (pn : Nat) : vpte k' e' pn =
      if e' = e ∧ pn = pgnum va then (present w).map fun p => (p, w &&& 0xFFF)
      else vpte k e' pn := by
  split
  · next hpn =>
    obtain ⟨rfl, rfl⟩ := hpn
    rw [vpte_pgnum hva, h e' (dirIx va hva) (tabIx va), if_pos ⟨rfl, rfl, rfl⟩]
  · next hpn =>
    rw [vpte, vpte]
    split
    · next hlt =>
      rw [h e', if_neg]
      rintro ⟨he, hi, hj⟩
      refine hpn ⟨he, ?_⟩
      have hi : pn / 1024 = pdx va := congrArg (fun i : Pdx => i.val) hi
      have hj : pn % 1024 = ptx va := congrArg (fun j : Ptx => j.val) hj
      rw [pdx_eq] at hi
      rw [ptx_eq] at hj
      rw [pgnum_eq]
      omega
    · rfl

theorem flags_entry {pp : Nat} (hperm : permOk perm) :
    (page2pa pp ||| perm ||| pteP) &&& 0xFFF = perm := by
  rw [entry_and (by decide), or_pteP hperm.1, flags_and hperm.lt]

theorem Sees.mapAt {hva : va < utop} {pp : Nat} {s' : Vm} (h : Sees k s)
    (hm : Maps k k' e va hva (page2pa pp ||| perm ||| pteP)) (hperm : permOk perm)
    (hpp : pp < 2 ^ 20) (hpte : s'.pte = s.pte)
    (hmem : ∀ e' pn' p f, (s'.mapAt e (pgnum va) (some (pp, perm))).pte e' pn' = some (p, f) →
      ∀ off, s'.mem p off = k'.loadByte p off) :
    Sees k' (s'.mapAt e (pgnum va) (some (pp, perm))) := by
  refine ⟨fun e' pn' => ?_, hmem⟩
  rw [Vm.pte_mapAt, vpte_of_maps hm, present_entry hpp hperm.lt, flags_entry hperm, hpte, h.pte]
  rfl

section Kept

/-! The bytes of a mapped page survive the paging calls of any environment. -/

variable {m m' : Phys} {ds : Dirs} {out : Set Nat} {l : List Nat} {d pp : Nat} {e' : EnvIx}
  {i : Pdx} {j : Ptx}

theorem Spaces.walk_frame (h : Spaces b m ds out l) (hd : ds e = some d) (hva : va < utop)
    (hp : target m ds (.pte e' i j) = some p) :
    p ≠ d ∧ present (m.mem d (pdx va)) ≠ some p ∧
      ∀ q, m.pageFreeList = some q → q ≠ p ∧ q < 2 ^ 20 := by
  obtain ⟨-, hs⟩ := h.data_page hp
  refine ⟨fun hpd => hs (.dir e) trivial (hpd ▸ hd), ?_, fun q hq => ?_⟩
  · have := hs (.pde e (dirIx va hva)) trivial
    rwa [target, table_eq hd] at this
  · have hql : q ∈ l := by
      have hchain := h.free.chain
      rw [hq] at hchain
      cases hchain
      exact List.mem_cons_self
    exact ⟨fun hqp => h.free.balanced.notMem_free hp (hqp ▸ hql), b.lt (h.free.balanced.mem_free.1 hql).1⟩

theorem Spaces.pageInsert_kept (h : Spaces b m ds out l) (hd : ds e = some d) (hva : va < utop)
    (hins : pageInsert m (some d) pp va perm = some (m', r))
    (hp : target m ds (.pte e' i j) = some p) : m'.mem p = m.mem p := by
  obtain ⟨hpd, ht, hfree⟩ := walk_frame h hd hva hp
  exact pageInsert_mem hins hpd ht hfree

theorem sysPageUnmap_kept (hs : Sound b k) {envid : Word}
    (hcall : sysPageUnmap k c envid va = some (k', .ret r))
    (hp : target k.toPhys k.dirs (.pte e' i j) = some p) : k'.mem p = k.mem p := by
  cases sysPageUnmap_step hcall with
  | refused => rfl
  | removed _ hva hrem =>
    obtain ⟨l, hsp⟩ := hs.spaces
    obtain ⟨d, hd⟩ := pgdir_of_pageRemove hrem
    rw [hd] at hrem
    exact pageRemove_mem hrem (Spaces.walk_frame hsp hd hva hp).2.1

theorem sysPageMap_kept (hs : Sound b k) {srcenvid srcva dstenvid dstva : Word}
    (hcall : sysPageMap k c srcenvid srcva dstenvid dstva perm = some (k', .ret r))
    (hp : target k.toPhys k.dirs (.pte e' i j) = some p) : k'.mem p = k.mem p := by
  cases sysPageMap_step hcall with
  | refused => rfl
  | inserted _ _ _ hdst _ _ _ hins =>
    obtain ⟨l, hsp⟩ := hs.spaces
    obtain ⟨d, hd⟩ := pgdir_of_pageInsert hins
    rw [hd] at hins
    exact Spaces.pageInsert_kept hsp hd hdst hins hp

theorem sysPageAlloc_kept (hs : Sound b k) {envid : Word}
    (hcall : sysPageAlloc k c envid va perm = some (k', .ret r))
    (hp : target k.toPhys k.dirs (.pte e' i j) = some p) : k'.mem p = k.mem p := by
  cases sysPageAlloc_step hcall with
  | refused => rfl
  | empty => rw [sysPageAlloc_neg hcall slt_neg_eNoMem]
  | noTable => rw [sysPageAlloc_neg hcall slt_neg_eNoMem]
  | @mapped e pp m m₁ q r _ hva _ halloc hins _ hk =>
    obtain ⟨l, hsp⟩ := hs.spaces
    obtain ⟨l, rfl, rfl⟩ := hsp.pageAlloc_inv halloc
    obtain ⟨d, hd⟩ := pgdir_of_pageInsert hins
    rw [hd] at hins
    have hpp : p ≠ pp := fun hpp => hsp.free.target_ne List.mem_cons_self _ (hpp ▸ hp)
    have hq : q = pp := by
      rw [kaddr_eq_some hk, pgnum_page2pa (b.lt hsp.free.mem_pool_of_head.1)]
    have hkept := Spaces.pageInsert_kept hsp.unlink hd hva hins hp
    rw [hq]
    exact (mem_setPage_of_ne _ _ hpp).trans hkept

end Kept

section Answers

theorem sysPageUnmap_ret {envid : Word} (h : sysPageUnmap k c envid va = some (k', .ret r)) :
    r = 0 ∨ r.slt 0 = true := by
  cases sysPageUnmap_step h with
  | refused hr => exact .inr hr
  | removed => exact .inl rfl

theorem sysPageMap_ret {srcenvid srcva dstenvid dstva : Word}
    (h : sysPageMap k c srcenvid srcva dstenvid dstva perm = some (k', .ret r)) :
    r = 0 ∨ r.slt 0 = true := by
  cases sysPageMap_step h with
  | refused hr => exact .inr hr
  | inserted =>
    split
    · exact .inr slt_neg_eNoMem
    · exact .inl rfl

theorem sysPageAlloc_ret {envid : Word}
    (h : sysPageAlloc k c envid va perm = some (k', .ret r)) : r = 0 ∨ r.slt 0 = true := by
  cases sysPageAlloc_step h with
  | refused hr => exact .inr hr
  | empty => exact .inr slt_neg_eNoMem
  | noTable => exact .inr slt_neg_eNoMem
  | mapped => exact .inl rfl

end Answers

theorem Sees.pageUnmap (h : Sees k s) (hs : Sound b k) (hc : Counted k) {envid : Word}
    (hcall : sysPageUnmap k c envid va = some (k', .ret r)) :
    ∃ s', Sees k' s' ∧ ((∃ e, envid2env k c envid true = some e ∧ Exec (.pageUnmap e va) s r s') ∨
      r.slt 0 = true ∧ s' = s) := by
  obtain rfl | hr := sysPageUnmap_ret hcall
  · obtain ⟨-, hok⟩ := hs.sysPageUnmap hc hcall
    obtain ⟨e, hva, he, hm⟩ := hok slt_zero
    refine ⟨s.mapAt e (pgnum va) none, ⟨fun e' pn' => ?_, fun e' pn' p f hp off => ?_⟩,
      .inl ⟨e, he, .pageUnmap⟩⟩
    · rw [Vm.pte_mapAt, vpte_of_maps hm, h.pte, present_zero]
      rfl
    · obtain ⟨-, -, hx⟩ | hp := Vm.mapAt_cases hp
      · cases hx
      · obtain ⟨i, j, ht⟩ := vpte_eq_some ((h.pte e' pn').symm.trans hp)
        rw [loadByte_congr (sysPageUnmap_kept hs hcall ht)]
        exact h.mem e' pn' p f hp off
  · rw [sysPageUnmap_neg hcall hr]
    exact ⟨s, h, .inr ⟨hr, rfl⟩⟩

theorem Sees.pageMap (h : Sees k s) (hs : Sound b k) (hc : Counted k)
    {srcenvid srcva dstenvid dstva : Word}
    (hcall : sysPageMap k c srcenvid srcva dstenvid dstva perm = some (k', .ret r)) :
    ∃ s', Sees k' s' ∧ ((∃ src dst, envid2env k c srcenvid true = some src ∧
      envid2env k c dstenvid true = some dst ∧ Exec (.pageMap src srcva dst dstva perm) s r s') ∨
      r.slt 0 = true ∧ s' = s) := by
  obtain rfl | hr := sysPageMap_ret hcall
  · obtain ⟨-, hok⟩ := hs.sysPageMap hc hcall
    obtain ⟨src, dst, pp, hsrc, hdst, hse, hde, hperm, hpp, hW, hm⟩ := hok slt_zero
    obtain ⟨l, hsp⟩ := hs.spaces
    have hlt : pp < 2 ^ 20 := b.lt (hsp.data_page hpp).1
    have hold : s.pte src (pgnum srcva) =
        some (pp, entry k.toPhys k.dirs src (dirIx srcva hsrc) (tabIx srcva) &&& 0xFFF) := by
      rw [h.pte, vpte_pgnum hsrc]
      change (target k.toPhys k.dirs (.pte src (dirIx srcva hsrc) (tabIx srcva))).map _ = _
      rw [hpp, Option.map_some]
    refine ⟨s.mapAt dst (pgnum dstva) (some (pp, perm)),
      h.mapAt hm hperm hlt rfl fun e' pn' p f hp off => ?_, .inl ⟨src, dst, hse, hde, ?_⟩⟩
    · obtain ⟨-, -, hx⟩ | hp := Vm.mapAt_cases hp
      · cases hx
        rw [loadByte_congr (sysPageMap_kept hs hcall hpp)]
        exact h.mem _ _ _ _ hold off
      · obtain ⟨i, j, ht⟩ := vpte_eq_some ((h.pte e' pn').symm.trans hp)
        rw [loadByte_congr (sysPageMap_kept hs hcall ht)]
        exact h.mem e' pn' p f hp off
    · refine .pageMap hold hperm fun hw => ?_
      rw [BitVec.and_assoc]
      exact hW hw
  · rw [sysPageMap_neg hcall hr]
    exact ⟨s, h, .inr ⟨hr, rfl⟩⟩

theorem Sees.pageAlloc (h : Sees k s) (hs : Sound b k) (hc : Counted k) {envid : Word}
    (hcall : sysPageAlloc k c envid va perm = some (k', .ret r)) :
    ∃ s', Sees k' s' ∧ ((∃ e, envid2env k c envid true = some e ∧
      Exec (.pageAlloc e va perm) s r s') ∨ r.slt 0 = true ∧ s' = s) := by
  obtain rfl | hr := sysPageAlloc_ret hcall
  · obtain ⟨-, hok⟩ := hs.sysPageAlloc hc hcall
    obtain ⟨e, pp, hva, he, hperm, hlt, hfresh, hm⟩ := hok slt_zero
    have hun : s.Unmapped pp := by
      rintro e' pn' ⟨f, hp⟩
      obtain ⟨i, j, ht⟩ := vpte_eq_some ((h.pte e' pn').symm.trans hp)
      exact hfresh.unmapped _ ht
    refine ⟨(s.fill pp fun _ => 0).mapAt e (pgnum va) (some (pp, perm)),
      h.mapAt hm hperm hlt rfl fun e' pn' p f hp off => ?_,
      .inl ⟨e, he, .pageAlloc hva hperm hun⟩⟩
    · obtain ⟨-, -, hx⟩ | hp := Vm.mapAt_cases hp
      · cases hx
        rw [Vm.fill_self, loadByte, hfresh.zero]
        simp
      · obtain ⟨i, j, ht⟩ := vpte_eq_some ((h.pte e' pn').symm.trans hp)
        rw [Vm.fill_of_ne (hun.ne hp), loadByte_congr (sysPageAlloc_kept hs hcall ht)]
        exact h.mem e' pn' p f hp off
  · rw [sysPageAlloc_neg hcall hr]
    exact ⟨s, h, .inr ⟨hr, rfl⟩⟩

theorem and_pteU {w : Word} (h : w &&& pteU ≠ 0) : w &&& pteU = pteU := by
  have hp : pteU = BitVec.twoPow 32 2 := by decide
  rw [hp, BitVec.and_twoPow] at h ⊢
  split at h
  · next hb => rw [if_pos hb]
  · exact absurd rfl h

theorem Sees.load (h : Sees k s) (hs : Sound b k) {d : Nat} (hd : k.dirs e = some d)
    (hva : va < utop) : mmuLoad k.toPhys d va pteU = s.read e va := by
  obtain ⟨l, hsp⟩ := hs.spaces
  have hpte := h.pte e (pgnum va)
  rw [vpte_pgnum hva] at hpte
  cases ht : target k.toPhys k.dirs (.pte e (dirIx va hva) (tabIx va)) with
  | none =>
    have htr : translate k.toPhys d va pteU = none := by
      cases htr : translate k.toPhys d va pteU with
      | none => rfl
      | some p =>
        rw [(translate_user hd hva htr).1] at ht
        cases ht
    rw [target] at ht
    rw [mmuLoad, htr, Vm.read, hpte, ht]
    rfl
  | some p =>
    have hU : entry k.toPhys k.dirs e (dirIx va hva) (tabIx va) &&& pteU = pteU := by
      obtain h0 | ⟨-, hU⟩ := hsp.shape.pte e (dirIx va hva) (tabIx va)
      · rw [target, h0, present_zero] at ht
        cases ht
      · exact and_pteU hU
    have htr := hsp.translate_eq hd hva ht hU (by decide) (by decide)
    rw [target] at ht
    rw [ht, Option.map_some] at hpte
    rw [mmuLoad, htr, Vm.read_of hpte, h.mem _ _ _ _ hpte]
    rfl

theorem Sees.store (h : Sees k s) (hs : Sound b k) {d : Nat} (hd : k.dirs e = some d)
    {v : Byte} {m : Phys} (hst : mmuStore k.toPhys d va (pteU ||| pteW) v = some m) :
    ∃ p f, s.pte e (pgnum va) = some (p, f) ∧ f &&& pteW ≠ 0 ∧
      Sees { k with toPhys := m } (s.store p (pgoff va) v) := by
  obtain ⟨l, hsp⟩ := hs.spaces
  obtain ⟨hdata, hva⟩ := hsp.mmuStore hd (by decide) (.inr (by decide)) hst
  obtain ⟨p, htr, hm⟩ := Option.map_eq_some_iff.1 hst
  obtain ⟨ht, hW⟩ := translate_user hd hva htr
  rw [if_pos (hsp.shape.lt_npages (hsp.data_page ht).1)] at hm
  subst hm
  have hpte := h.pte e (pgnum va)
  rw [vpte_pgnum hva] at hpte
  rw [target] at ht
  rw [ht, Option.map_some] at hpte
  refine ⟨p, _, hpte, ?_, fun e' pn' => ?_, fun e' pn' q g hq off => ?_⟩
  · have hw : (0xFFF : Word) &&& pteW = pteW := by decide
    rw [BitVec.and_assoc, hw, and_eq_of_and_eq hW (by decide)]
    decide
  · have hent : vpte { k with toPhys := k.toPhys.storeByte p (pgoff va) v } e' pn' =
        vpte k e' pn' := by
      have hdirs : ({ k with toPhys := k.toPhys.storeByte p (pgoff va) v } : Kernel).dirs =
        k.dirs := rfl
      simp only [vpte, hdirs, hdata.entry_eq]
    rw [hent]
    exact h.pte e' pn'
  · change (s.store p (pgoff va) v).mem q off = (k.toPhys.storeByte p (pgoff va) v).loadByte q off
    by_cases hqp : q = p
    · subst hqp
      rw [Vm.store, Vm.fill_self, loadByte_storeByte, Function.update_apply]
      split
      · rfl
      · exact h.mem e' pn' q g hq off
    · have hm : (k.toPhys.storeByte p (pgoff va) v).mem q = k.toPhys.mem q :=
        mem_store_of_ne _ _ _ hqp
      rw [Vm.store, Vm.fill_of_ne hqp, loadByte_congr hm]
      exact h.mem e' pn' q g hq off

end Jos.User
