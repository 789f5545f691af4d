import Jos.Kern.Demo

/-! An environment that maps its stack page again and again. -/

namespace Jos.Kern

open Lib Phys Kernel

def copyVa (n : Nat) : Word := BitVec.ofNat 32 (0x10000000 + n * 4096)

def mapCopy (n : Nat) : Event := call bootcpu 5 0 stackVa 0 (copyVa n) (pteU ||| pteP)

theorem toNat_copyVa {n : Nat} (hn : n < 65536) : (copyVa n).toNat = 0x10000000 + n * 4096 := by
  rw [copyVa, BitVec.toNat_ofNat]
  omega

theorem copyVa_lt {n : Nat} (hn : n < 65536) : copyVa n < utop := by
  rw [BitVec.lt_def, toNat_copyVa hn, toNat_utop]
  omega

theorem pgoff_copyVa {n : Nat} (hn : n < 65536) : pgoff (copyVa n) = 0 := by
  rw [pgoff_eq, toNat_copyVa hn]
  omega

theorem pdx_copyVa {n : Nat} (hn : n < 65536) : pdx (copyVa n) = 64 + n / 1024 := by
  rw [pdx_eq, toNat_copyVa hn]
  omega

theorem ptx_copyVa {n : Nat} (hn : n < 65536) : ptx (copyVa n) = n % 1024 := by
  rw [ptx_eq, toNat_copyVa hn]
  omega

def stackRef : Ref := .pte env0 (dirIx stackVa stackVa_lt) (tabIx stackVa)

def copyRef (n : Fin 65536) : Ref :=
  .pte env0 (dirIx (copyVa n) (copyVa_lt n.isLt)) (tabIx (copyVa n))

theorem copyRef_inj {n n' : Fin 65536} (h : copyRef n = copyRef n') : n = n' := by
  simp only [copyRef, Ref.pte.injEq, dirIx, tabIx, Fin.mk.injEq, true_and, pdx_copyVa n.isLt,
    pdx_copyVa n'.isLt, ptx_copyVa n.isLt, ptx_copyVa n'.isLt] at h
  omega

theorem copyRef_ne_stackRef (n : Fin 65536) : copyRef n ≠ stackRef := by
  intro h
  simp only [copyRef, stackRef, Ref.pte.injEq, dirIx, Fin.mk.injEq, true_and,
    pdx_copyVa n.isLt] at h
  have hs : pdx stackVa = 954 := by decide
  omega

structure Copies (b : Base) (pp n : Nat) (m : Phys) (ds : Dirs) (l : List Nat) : Prop where
  spaces : Spaces b m ds ∅ l
  stack : target m ds stackRef = some pp
  copy : ∀ {i : Fin 65536}, i.val < n → target m ds (copyRef i) = some pp
  rest : ∀ {i : Fin 65536}, n ≤ i.val → target m ds (copyRef i) ≠ some pp
  count : refCount (target m ds) pp = n + 1
  few : ∀ q, q ≠ pp → refCount (target m ds) q ≤ 1
  pages : 100 ≤ l.length + (n + 1023) / 1024

namespace Copies

variable {b : Base} {pp n d : Nat} {m m' : Phys} {ds : Dirs} {l : List Nat}

theorem start (h : Spaces b m ds ∅ l) (hu : Unshared (target m ds)) (hs : HasStack m ds env0)
    (hl : 100 ≤ l.length) : ∃ pp, Copies b pp 0 m ds l := by
  obtain ⟨pp, -, hstack⟩ := hs
  refine ⟨pp, h, hstack, fun hi => absurd hi (Nat.not_lt_zero _), ?_, ?_, ?_, by omega⟩
  · intro i _ hi
    exact copyRef_ne_stackRef i (hu hi hstack)
  · have := refCount_pos hstack
    have := hu.refCount_le pp
    omega
  · exact fun q _ => hu.refCount_le q

theorem lookup (h : Copies b pp n m ds l) (hd : ds env0 = some d) :
    ∃ t, pageLookup m (some d) stackVa = some (some (pp, t, ptx stackVa)) := by
  obtain ⟨hpool, -⟩ := h.spaces.data_page h.stack
  obtain ⟨t, -, hlook⟩ := h.spaces.shape.pageLookup_some hd stackVa_lt h.stack hpool
  exact ⟨t, hlook⟩

theorem insert (h : Copies b pp n m ds l) (hd : ds env0 = some d) (hn : n < 65536) :
    ∃ m' l', pageInsert m (some d) pp (copyVa n) (pteU ||| pteP) = some (m', 0) ∧
      Spaces b m' ds ∅ l' ∧ 100 ≤ l'.length + (n + 1 + 1023) / 1024 ∧
      Spaces.Inserted m m' ds env0 (dirIx (copyVa n) (copyVa_lt hn)) (tabIx (copyVa n)) pp
        (page2pa pp ||| (pteU ||| pteP) ||| pteP) l := by
  obtain ⟨hpool, hs⟩ := h.spaces.data_page h.stack
  have hnl := h.spaces.free.balanced.notMem_free h.stack
  have hU : (pteU ||| pteP) &&& pteU ≠ 0 := by decide
  have hle : ∀ q, target m ds (copyRef ⟨n, hn⟩) = some q → refCount (target m ds) q ≤ 65535 := by
    intro q hq
    have hne : q ≠ pp := by
      rintro rfl
      exact h.rest (Nat.le_refl n) hq
    exact (h.few q hne).trans (by decide)
  have hpages := h.pages
  by_cases hmod : n % 1024 = 0
  · -- the first copy under a directory entry may cost a page table
    rcases h.spaces.pageInsert hd (copyVa_lt hn) hpool hnl hs (by decide) hU hle with
      ⟨rfl, -⟩ | ⟨m', l', heq, hsp, hlen, hins⟩
    · rw [List.length_nil] at hpages
      omega
    · rw [Set.empty_sdiff] at hsp
      exact ⟨m', l', heq, hsp, by omega, hins⟩
  · have hn' : n - 1 < 65536 := by omega
    have hprev := h.copy (i := ⟨n - 1, hn'⟩) (by
      change n - 1 < n
      omega)
    obtain ⟨t, ht, -⟩ := h.spaces.shape.pageLookup_some hd (copyVa_lt hn') hprev hpool
    have hsame : dirIx (copyVa (n - 1)) (copyVa_lt hn') = dirIx (copyVa n) (copyVa_lt hn) := by
      rw [dirIx, dirIx, Fin.mk.injEq, pdx_copyVa hn', pdx_copyVa hn]
      omega
    rw [hsame] at ht
    obtain ⟨m', l', heq, hsp, hlen, hins⟩ := h.spaces.pageInsert_table hd (copyVa_lt hn) ht hpool hnl
      hs (by decide) hU hle
    rw [Set.empty_sdiff] at hsp
    exact ⟨m', l', heq, hsp, by omega, hins⟩

theorem next (h : Copies b pp n m ds l) (hn : n < 65536) {l' : List Nat} (hsp : Spaces b m' ds ∅ l')
    (hl : 100 ≤ l'.length + (n + 1 + 1023) / 1024) {w : Word}
    (hins : Spaces.Inserted m m' ds env0 (dirIx (copyVa n) (copyVa_lt hn)) (tabIx (copyVa n)) pp w l) :
    Copies b pp (n + 1) m' ds l' := by
  obtain ⟨f, hf, htgt⟩ := hins.target_eq
  replace htgt : target m' ds = Function.update f (copyRef ⟨n, hn⟩) (some pp) := htgt
  have hnl := h.spaces.free.balanced.notMem_free h.stack
  obtain ⟨-, hs⟩ := h.spaces.data_page h.stack
  -- a new table takes nothing away from the references to data pages
  have hfpte : ∀ e i j, f (.pte e i j) = target m ds (.pte e i j) := by
    rcases hf with rfl | ⟨t, -, rfl⟩
    · exact fun _ _ _ => rfl
    · exact fun _ _ _ => Function.update_of_ne (by rintro ⟨⟩) _ _
  have hfcount : refCount f pp = n + 1 := by
    rw [← h.count]
    rcases hf with rfl | ⟨t, ht, rfl⟩
    · rfl
    · refine refCount_update_of_ne (hs _ trivial) ?_
      rintro ⟨⟩
      exact hnl ht
  have hffew : ∀ q, q ≠ pp → refCount f q ≤ 1 := by
    intro q hq
    rcases hf with rfl | ⟨t, ht, rfl⟩
    · exact h.few q hq
    · by_cases htq : t = q
      · subst htq
        have hz := (h.spaces.free.balanced.mem_free.1 ht).2.1
        rw [refCount_update_self (refCount_eq_zero_iff.1 hz _), hz]
      · exact (refCount_update_le fun hc => htq (Option.some.inj hc)).trans (h.few q hq)
  refine ⟨hsp, ?_, ?_, ?_, ?_, ?_, hl⟩
  · rw [htgt, Function.update_of_ne (copyRef_ne_stackRef _).symm]
    exact (hfpte _ _ _).trans h.stack
  · intro i hi
    rw [htgt]
    by_cases hin : i = ⟨n, hn⟩
    · rw [hin, Function.update_self]
    · rw [Function.update_of_ne fun hc => hin (copyRef_inj hc)]
      refine (hfpte _ _ _).trans (h.copy ?_)
      have : i.val ≠ n := fun hc => hin (Fin.ext hc)
      omega
  · intro i hi
    have hin : i ≠ ⟨n, hn⟩ := by
      rintro rfl
      exact absurd hi (Nat.not_succ_le_self n)
    rw [htgt, Function.update_of_ne fun hc => hin (copyRef_inj hc)]
    intro hc
    exact h.rest (Nat.le_of_succ_le hi) ((hfpte _ _ _).symm.trans hc)
  · rw [htgt, refCount_update_self, hfcount]
    intro hc
    exact h.rest (Nat.le_refl n) ((hfpte _ _ _).symm.trans hc)
  · intro q hq
    rw [htgt]
    exact (refCount_update_le fun hc => hq (Option.some.inj hc).symm).trans (hffew q hq)

end Copies

structure Alone (k : Kernel) : Prop where
  user : k.user bootcpu = some env0
  running : k.status env0 = .running
  dir : ∃ d, k.dirs env0 = some d

theorem Alone.same {k k' : Kernel} (h : Alone k) (s : Same k k') : Alone k' := by
  refine ⟨?_, (s.status_eq _).trans h.running, by rw [s.dirs_eq]; exact h.dir⟩
  rw [Kernel.user, s.cpuStatus_eq, s.curenv_eq]
  exact h.user

theorem Starting.alone {b : Base} {k₀ : Kernel} {n : Nat} {l : List Nat} (h : Starting demo b k₀ n l)
    (hn : 0 < n) : ∃ k₁, step k₀ (.start bootcpu) = some k₁ ∧ Alone k₁ ∧
      k₁.toPhys = k₀.toPhys ∧ k₁.dirs = k₀.dirs := by
  obtain ⟨k₁, h₁, s₁⟩ := h.start hn (by decide)
  have hdirs := s₁.dirs_eq.trans (dispatch_dirs k₀ bootcpu env0)
  have hphys := s₁.toPhys_eq.trans (dispatch_rest k₀ bootcpu env0).1
  refine ⟨k₁, h₁, ⟨?_, ?_, ?_⟩, hphys, hdirs⟩
  · rw [user, s₁.cpuStatus_eq, dispatch_cpuStatus, h.cpuStatus_eq, if_pos (by decide),
      s₁.curenv_eq, dispatch_curenv, if_pos rfl]
  · rw [s₁.status_eq, dispatch_status, if_pos rfl]
  · rw [hdirs]
    exact h.dirs_some hn

section

variable {b : Base} {pp n : Nat} {k : Kernel} {l : List Nat} {G : Kernel → Event → Prop}

theorem Copies.step (h : Copies b pp n k.toPhys k.dirs l) (ha : Alone k) (hn : n < 65536) :
    ∃ k' l', Kern.step k (mapCopy n) = some k' ∧ Alone k' ∧
      Copies b pp (n + 1) k'.toPhys k'.dirs l' := by
  obtain ⟨d, hd⟩ := ha.dir
  obtain ⟨t, hlook⟩ := h.lookup hd
  obtain ⟨m', l', heq, hsp, hl, hins⟩ := h.insert hd hn
  obtain ⟨k', hstep, s'⟩ := step_pageMap ha.user ha.running hd ⟨stackVa_lt, by decide⟩
    ⟨copyVa_lt hn, pgoff_copyVa hn⟩ ⟨by decide, by decide, by decide⟩ (by decide) hlook heq
  refine ⟨k', l', hstep, ?_, ?_⟩
  · exact Alone.same (k := { k with toPhys := m' }) ⟨ha.user, ha.running, ha.dir⟩ s'
  · rw [s'.toPhys_eq, s'.dirs_eq]
    exact h.next hn hsp hl hins

theorem Copies.run (h : Copies b pp 0 k.toPhys k.dirs l) (ha : Alone k)
    (hG : ∀ k n, G k (mapCopy n)) (hn : n ≤ 65536) :
    ∃ k' l', Run Kern.step G k ((List.range n).map mapCopy) k' ∧ Alone k' ∧
      Copies b pp n k'.toPhys k'.dirs l' := by
  induction n with
  | zero => exact ⟨k, l, .nil, ha, h⟩
  | succ n ih =>
    obtain ⟨k₁, l₁, hr, ha₁, h₁⟩ := ih (Nat.le_of_succ_le hn)
    obtain ⟨k', l', hstep, ha', h'⟩ := h₁.step ha₁ hn
    rw [List.range_succ, List.map_append, List.map_singleton]
    exact ⟨k', l', .snoc hr (hG _ _) hstep, ha', h'⟩

end

theorem Copies.unmap {b : Base} {pp d : Nat} {m : Phys} {ds : Dirs} {l : List Nat}
    (h : Copies b pp 65536 m ds l) (hd : ds env0 = some d) :
    ∃ m', pageRemove m (some d) (copyVa 0) = some m' ∧
      Chain m'.ppLink m'.pageFreeList (pp :: l) ∧ target m' ds stackRef = some pp := by
  obtain ⟨hpool, -⟩ := h.spaces.data_page h.stack
  have hnl := h.spaces.free.balanced.notMem_free h.stack
  have hcopy := h.copy (i := ⟨0, by decide⟩) (by decide)
  obtain ⟨t, ht, hlook⟩ := h.spaces.shape.pageLookup_some hd (copyVa_lt (by decide)) hcopy hpool
  have href : m.ppRef pp = 1 := by
    rw [h.spaces.free.balanced.ref_eq hpool, h.count]
    decide
  set m₁ := (m.setRef pp (m.ppRef pp - 1)).link pp with hm₁
  have hdec : pageDecref m pp = some m₁ := by
    have hz : (m.setRef pp (m.ppRef pp - 1)).ppRef pp = 0 := by
      rw [ppRef_setRef_self, href]
      decide
    rw [pageDecref]
    rw [if_pos hz, pageFree, if_pos ⟨hz, h.spaces.free.link_none hpool hnl⟩]
  have hx : Exclusive (target m₁ ds) := by
    rw [target_congr (show m₁.mem = m.mem from rfl)]
    exact h.spaces.shape.excl
  have ht₁ : table m₁ ds env0 (dirIx (copyVa 0) (copyVa_lt (by decide))) = some t := ht
  refine ⟨m₁.store t (ptx (copyVa 0)) 0, ?_, ?_, ?_⟩
  · rw [pageRemove, hlook]
    simp only [Option.bind_eq_bind, Option.bind_some, hdec]
    rfl
  · exact h.spaces.free.chain.push hnl
  · have hst := target_store_table hx ht₁ (tabIx (copyVa 0)) 0
    have hne : stackRef ≠ .pte env0 (dirIx (copyVa 0) (copyVa_lt (by decide))) (tabIx (copyVa 0)) :=
      (copyRef_ne_stackRef ⟨0, by decide⟩).symm
    exact (congrFun hst stackRef).trans ((Function.update_of_ne hne _ _).trans h.stack)

end Jos.Kern
