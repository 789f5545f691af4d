import Jos.Kern.KernelSpace

/-! The page that goes with a message. -/

namespace Jos.Kern

open Lib Phys Kernel

/-- The table entry that translates `va` in environment `e`; zero where there is no table. -/
def pteAt (k : Kernel) (e : EnvIx) (va : Word) : Word :=
  ((k.dirs e).bind fun d => (entries k.mem d va).2).getD 0

/-- What `sys_ipc_try_send` with result 0 is to have done from `k` to `k'`, for the page at `srcva`
of `cur` and the receiver `e` that waits at `env_ipc_dstva`.  The entries in `UVPT` are those of
page directories and left out. -/
structure Transferred (k k' : Kernel) (cur e : EnvIx) (srcva perm : Word) : Prop where
  page : if srcva < utop ∧ (k.envs e).envIpcDstva < utop then
      ∃ pp, present (pteAt k cur srcva) = some pp ∧
        pteAt k' e (k.envs e).envIpcDstva = page2pa pp ||| perm
    else pteAt k' e (k.envs e).envIpcDstva = pteAt k e (k.envs e).envIpcDstva
  others : ∀ va, pgnum va ≠ pgnum (k.envs e).envIpcDstva → pdx va ≠ pdx uvpt →
    pteAt k' e va = pteAt k e va
  perm_eq : (k'.envs e).envIpcPerm =
    if srcva < utop ∧ (k.envs e).envIpcDstva < utop then perm else 0
  /-- What `ipc_recv` stores through `perm_store` tells whether a page came. -/
  perm_store : (k'.envs e).envIpcPerm ≠ 0 ↔ srcva < utop ∧ (k.envs e).envIpcDstva < utop

section

variable {b : Base} {k k' : Kernel} {c : Cpu} {e cur : EnvIx} {va : Word}

theorem pteAt_user (hva : va < utop) :
    pteAt k e va = entry k.toPhys k.dirs e (dirIx va hva) (tabIx va) := by
  cases hd : k.dirs e with
  | none => rw [pteAt, hd, entry_of_dir_none hd]; rfl
  | some d =>
    rw [pteAt, hd, Option.bind_some, entries]
    cases ht : present (k.mem d (pdx va)) with
    | none => rw [entry_eq_zero ((table_eq hd (dirIx va hva)).trans ht)]; rfl
    | some t => rw [entry_eq_mem ((table_eq hd (dirIx va hva)).trans ht)]; rfl

theorem Sound.pteAt_kernel (h : Sound b k) {d : Nat} (hd : k.dirs e = some d) (hva : utop ≤ va)
    (hu : pdx va ≠ pdx uvpt) : pteAt k e va = (entries b.mem b.kern va).2.getD 0 := by
  obtain ⟨l, hsp⟩ := h.spaces
  rw [pteAt, hd, Option.bind_some, h.entries_eq hva]
  rw [pdx_uvpt] at hu
  exact hsp.shape.kern hd (le_pdx hva) (pdx_lt va) hu

theorem pteAt_congr (hm : k'.mem = k.mem) (hd : k'.dirs = k.dirs) (va : Word) :
    pteAt k' e va = pteAt k e va := by
  rw [pteAt, pteAt, hm, hd]

theorem ipcDeliver_dirs (k : Kernel) (cur e : EnvIx) (value : Word) :
    (ipcDeliver k cur e value).dirs = k.dirs :=
  dirs_setEnv rfl

theorem ipcDeliver_perm (k : Kernel) (cur e : EnvIx) (value : Word) :
    ((ipcDeliver k cur e value).envs e).envIpcPerm = (k.envs e).envIpcPerm :=
  envs_setEnv_field Env.envIpcPerm k e (by rfl) e

theorem pgnum_of_indices {va va' : Word} (hd : pdx va = pdx va') (ht : ptx va = ptx va') :
    pgnum va = pgnum va' := by
  rw [pdx_eq, pdx_eq] at hd
  rw [ptx_eq, ptx_eq] at ht
  rw [pgnum_eq, pgnum_eq]
  omega

theorem or_pteP {w : Word} (h : w &&& pteP ≠ 0) : w ||| pteP = w := by
  have hb : w.getLsbD 0 = true := by
    by_contra hb
    rw [Bool.not_eq_true] at hb
    refine h ?_
    change w &&& 1#32 = 0
    rw [BitVec.and_one_eq_setWidth_ofBool_getLsbD, hb]
    rfl
  apply BitVec.eq_of_getLsbD_eq
  intro i _
  rw [BitVec.getLsbD_or]
  cases i with
  | zero => rw [hb, Bool.true_or]
  | succ i =>
    have hi : pteP.getLsbD (i + 1) = false := by
      change (1#32).getLsbD (i + 1) = false
      simp [BitVec.getLsbD_one]
    rw [hi, Bool.or_false]

theorem permOk.ne_zero {perm : Word} (h : permOk perm) : perm ≠ 0 := by
  rintro rfl
  exact h.1 (by decide)

theorem Sound.ipcPage (h : Sound b k) {srcva perm : Word} {pp : Nat}
    (hpage : ipcPage k cur srcva perm = some (.ok (some pp))) :
    srcva < utop ∧ permOk perm ∧ present (pteAt k cur srcva) = some pp := by
  obtain ⟨hsrc, -, hperm, t, j, hlook, -⟩ := ipcPage_some hpage
  obtain ⟨l, hsp⟩ := h.spaces
  obtain ⟨d, hd⟩ := pgdir_of_pageLookup hlook
  rw [hd] at hlook
  obtain ⟨hpp, -⟩ := hsp.pageLookup_inv hd hsrc hlook
  exact ⟨hsrc, hperm, by rw [pteAt_user hsrc]; exact hpp⟩

theorem Sound.mapped (h : Sound b k) (hc : Counted k) {srcva perm dstva r : Word} {pp : Nat} {m : Phys}
    (hpage : Kern.ipcPage k cur srcva perm = some (.ok (some pp))) (hdst : dstva < utop)
    (hins : pageInsert k.toPhys (k.envs e).envPgdir pp dstva perm = some (m, r))
    (hr : r.slt 0 = false) :
    Sound b { k with toPhys := m } ∧ pteAt { k with toPhys := m } e dstva = page2pa pp ||| perm ∧
      ∀ va, pgnum va ≠ pgnum dstva → pdx va ≠ pdx uvpt →
        pteAt { k with toPhys := m } e va = pteAt k e va := by
  obtain ⟨hsrc, hperm, hpte⟩ := h.ipcPage hpage
  obtain ⟨l, hsp⟩ := h.spaces
  obtain ⟨d, hd⟩ := pgdir_of_pageInsert hins
  rw [pteAt_user hsrc] at hpte
  rw [hd] at hins
  rcases hsp.share hd hdst hpte hperm hc with ⟨-, heq⟩ | ⟨m', l', heq, hsp', hins'⟩
  · rw [heq] at hins
    cases hins
    rw [slt_neg_eNoMem] at hr
    cases hr
  · rw [heq] at hins
    obtain ⟨rfl, -⟩ := Prod.mk.inj (Option.some.inj hins)
    have hs' : Sound b { k with toPhys := m' } := h.phys hsp'
    refine ⟨hs', ?_, ?_⟩
    · rw [pteAt_user hdst]
      exact (hins'.entry_eq _ _ _).trans ((if_pos ⟨rfl, rfl, rfl⟩).trans (by rw [BitVec.or_assoc, or_pteP hperm.1]))
    · intro va hne hu
      by_cases hva : va < utop
      · rw [pteAt_user hva, pteAt_user hva]
        refine (hins'.entry_eq _ _ _).trans (if_neg ?_)
        rintro ⟨-, hi, hj⟩
        have hi : pdx va = pdx dstva := congrArg (fun i : Pdx => i.val) hi
        have hj : ptx va = ptx dstva := congrArg (fun j : Ptx => j.val) hj
        exact hne (pgnum_of_indices hi hj)
      · have hva := BitVec.not_lt.1 hva
        rw [h.pteAt_kernel hd hva hu, hs'.pteAt_kernel hd hva hu]

theorem transferred_of_kept {srcva perm : Word} (hm : k'.mem = k.mem) (hd : k'.dirs = k.dirs)
    (hp : (k'.envs e).envIpcPerm = (k.envs e).envIpcPerm)
    (hno : ¬(srcva < utop ∧ (k.envs e).envIpcDstva < utop)) :
    Transferred k k' cur e srcva perm ↔ (k.envs e).envIpcPerm = 0 := by
  constructor
  · intro h
    have := h.perm_eq
    rwa [if_neg hno, hp] at this
  · intro h0
    refine ⟨?_, fun va _ _ => pteAt_congr hm hd va, ?_, ?_⟩
    · rw [if_neg hno]
      exact pteAt_congr hm hd _
    · rw [if_neg hno, hp, h0]
    · rw [hp, h0]
      simp [hno]

/-- The transfer is right just when no page is sent and no permission is left from an earlier
message, or when a page is sent to an address below `UTOP` other than 0 — or to 0, if it happens
to be there already. -/
theorem transferred_iff {envid value srcva perm : Word} (hs : Sound b k) (hc : Counted k)
    (he : envid2env k c envid false = some e)
    (hsend : sysIpcTrySend k c cur envid value srcva perm = some (k', .ret 0)) :
    Transferred k k' cur e srcva perm ↔
      (utop ≤ srcva ∧ (k.envs e).envIpcPerm = 0) ∨
      (srcva < utop ∧ (k.envs e).envIpcDstva < utop ∧ ((k.envs e).envIpcDstva = 0 →
        (k.envs e).envIpcPerm = perm ∧
        ∃ pp, present (pteAt k cur srcva) = some pp ∧ pteAt k e 0 = page2pa pp ||| perm)) := by
  cases sysIpcTrySend_step hsend with
  | refused hr =>
    rw [slt_zero] at hr
    cases hr
  | @plain e' he' _ _ hsrc =>
    obtain rfl : e = e' := Option.some.inj (he.symm.trans he')
    have hno := BitVec.not_lt.2 hsrc
    have hkept : Transferred k (ipcDeliver k cur e value) cur e srcva perm ↔
        (k.envs e).envIpcPerm = 0 :=
      transferred_of_kept rfl (ipcDeliver_dirs ..) (ipcDeliver_perm ..) fun h => hno h.1
    rw [hkept]
    simp [hsrc, hno]
  | @dropped e' pp he' _ _ hpage hdst =>
    obtain rfl : e = e' := Option.some.inj (he.symm.trans he')
    obtain ⟨hsrc, hperm, hpp⟩ := hs.ipcPage hpage
    have hz : (0 : Word) < utop := by decide
    have hboth : srcva < utop ∧ (k.envs e).envIpcDstva < utop := ⟨hsrc, by rw [hdst]; exact hz⟩
    have hpte : ∀ va, pteAt (ipcDeliver k cur e value) e va = pteAt k e va :=
      pteAt_congr rfl (ipcDeliver_dirs ..)
    constructor
    · intro h
      refine .inr ⟨hboth.1, hboth.2, fun _ => ⟨?_, ?_⟩⟩
      · have := h.perm_eq
        rwa [if_pos hboth, ipcDeliver_perm] at this
      · have := h.page
        rwa [if_pos hboth, hpte, hdst] at this
    · rintro (⟨hge, -⟩ | ⟨-, -, h⟩)
      · exact absurd hsrc (BitVec.not_lt.2 hge)
      · obtain ⟨hp, hpage'⟩ := h hdst
        refine ⟨?_, fun va _ _ => hpte va, ?_, ?_⟩
        · rw [if_pos hboth, hpte, hdst]
          exact hpage'
        · rw [if_pos hboth, ipcDeliver_perm, hp]
        · rw [ipcDeliver_perm, hp]
          exact iff_of_true hperm.ne_zero hboth
  | @mapped e' pp m r he' _ _ hpage hdst hins hr =>
    obtain rfl : e = e' := Option.some.inj (he.symm.trans he')
    obtain ⟨hsrc, hperm, hpp⟩ := hs.ipcPage hpage
    have hp : ((ipcDeliver (Kernel.setEnv { k with toPhys := m } e
        { k.envs e with envIpcPerm := perm }) cur e value).envs e).envIpcPerm = perm := by
      rw [ipcDeliver_perm, envs_setEnv_self]
    by_cases hlt : (k.envs e).envIpcDstva < utop
    · obtain ⟨-, hnew, hother⟩ := hs.mapped hc hpage hlt hins hr
      have hpte : ∀ va, pteAt (ipcDeliver (Kernel.setEnv { k with toPhys := m } e
          { k.envs e with envIpcPerm := perm }) cur e value) e va =
          pteAt { k with toPhys := m } e va :=
        pteAt_congr rfl ((ipcDeliver_dirs ..).trans (dirs_setEnv (by rfl)))
      refine iff_of_true ⟨?_, ?_, ?_, ?_⟩ (.inr ⟨hsrc, hlt, fun h => absurd h hdst⟩)
      · rw [if_pos ⟨hsrc, hlt⟩, hpte]
        exact ⟨pp, hpp, hnew⟩
      · intro va hne hu
        rw [hpte]
        exact hother va hne hu
      · rw [if_pos ⟨hsrc, hlt⟩, hp]
      · rw [hp]
        exact iff_of_true hperm.ne_zero ⟨hsrc, hlt⟩
    · refine iff_of_false ?_ ?_
      · intro h
        have := h.perm_eq
        rw [if_neg (fun h => hlt h.2), hp] at this
        exact hperm.ne_zero this
      · rintro (⟨hge, -⟩ | ⟨-, h, -⟩)
        · exact absurd hsrc (BitVec.not_lt.2 hge)
        · exact hlt h

end

theorem transferred_of_send : ∃ b k₀ k k', Booted demo (List.replicate 2 idleProg) k₀ ∧
    Run step (fun _ _ => True) k₀ [.start bootcpu, call bootcpu 13 0x400000 0 0 0 0] k ∧
    Sound b k ∧ Counted k ∧
    sysIpcTrySend k bootcpu env1 envid0 42 stackVa (pteU ||| pteP) = some (k', .ret 0) ∧
    Transferred k k' env1 env0 stackVa (pteU ||| pteP) := by
  obtain ⟨k₀, s, m₀, l₀, hm, l, hb, hs, hl⟩ := demo_booted (n := 2) (by decide)
  obtain ⟨k₁, k₂, h₁, hc₁, h₂, w⟩ := hs.waiting 0x400000 (by decide)
  have hsound₁ : Sound hm.base k₁ := hs.sound.step hs.dispatched (.start hs.counted) h₁
  have hd₁ := (hs.dispatched.step (Contained.start hs.counted).disciplined h₁).1
  have hsound : Sound hm.base k₂ := hsound₁.step hd₁ (.call hc₁ (by decide)) h₂
  obtain ⟨pp, -, -, -, htgt, hpage⟩ := w.page
  obtain ⟨d, hd⟩ := w.dir0
  have hlt : (0x400000 : Word) < utop := by decide
  have hok : permOk (pteU ||| pteP) := ⟨by decide, by decide, by decide⟩
  rcases w.spaces.share hd hlt htgt hok w.counted with ⟨rfl, -⟩ | ⟨m, l', hins, -, -⟩
  · cases hl
  · rw [← hd] at hins
    have hsend := w.trySend 42 hpage (.inl ⟨by decide, hins⟩)
    refine ⟨hm.base, k₀, k₂, _, hb, .snoc (.single trivial h₁) trivial h₂, hsound, w.counted, hsend,
      (transferred_iff hsound w.counted w.receiver hsend).2 (.inr ⟨by decide, ?_, ?_⟩)⟩
    · rw [w.dstva_eq]
      decide
    · intro h0
      rw [w.dstva_eq] at h0
      exact absurd h0 (by decide)

theorem transferred_fails : ∃ k₀ k k', Booted demo (List.replicate 2 idleProg) k₀ ∧
    Run step (fun _ _ => True) k₀ [.start bootcpu, call bootcpu 13 0 0 0 0 0] k ∧
    sysIpcTrySend k bootcpu env1 envid0 42 stackVa (pteU ||| pteP) = some (k', .ret 0) ∧
    ¬Transferred k k' env1 env0 stackVa (pteU ||| pteP) := by
  obtain ⟨k₀, s, m₀, l₀, hm, l, hb, hs, -⟩ := demo_booted (n := 2) (by decide)
  obtain ⟨k₁, k₂, h₁, -, h₂, w⟩ := hs.waiting 0 (by decide)
  obtain ⟨pp, -, -, -, -, hpage⟩ := w.page
  have hsend := w.trySend 42 hpage (.inr ⟨rfl, rfl⟩)
  refine ⟨k₀, k₂, _, hb, .snoc (.single trivial h₁) trivial h₂, hsend, fun h => ?_⟩
  have hperm := h.perm_eq
  rw [ipcDeliver_perm, envs_setEnv_self, if_pos rfl, w.dstva_eq] at hperm
  have hlt : stackVa < utop ∧ (0 : Word) < utop := by decide
  rw [if_pos hlt] at hperm
  cases hperm

end Jos.Kern
