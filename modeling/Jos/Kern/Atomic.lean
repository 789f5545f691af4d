import Jos.Kern.Demo

/-! System calls that fail leave no trace. -/

namespace Jos.Kern

open Phys Kernel

theorem link_unlink {m : Phys} {pp : Nat} (hl : m.pageFreeList = some pp) (hlast : (m.unlink pp).pageFreeList = none) :
    (m.unlink pp).link pp = m := by
  have hlink : m.ppLink pp = none := hlast
  have hself : Function.update m.ppLink pp none = m.ppLink :=
    Function.update_eq_self_iff.2 hlink.symm
  simp only [link, unlink, hlink, hself, ← hl]

theorem envgen_pos (envId : Word) (e : EnvIx) : (envgen envId e).slt 0 = false := by
  have he : (BitVec.ofNat 32 e.val).msb = false := by
    have := e.isLt
    rw [BitVec.msb_eq_decide, decide_eq_false_iff_not, BitVec.toNat_ofNat]
    simp only [nenv] at this
    omega
  change (envgen envId e).slt 0#32 = false
  rw [BitVec.slt_zero_eq_msb, envgen]
  simp only [BitVec.msb_or, he, Bool.or_false]
  generalize (envId + 0x1000) &&& ~~~0x3FF = generation
  split
  · decide
  · next hg =>
    rw [BitVec.sle_eq_not_slt, Bool.not_eq_true, Bool.not_eq_false', BitVec.slt_eq_decide,
      decide_eq_true_iff] at hg
    rw [BitVec.msb_eq_toInt, decide_eq_false_iff_not]
    simp only [BitVec.ofNat_eq_ofNat, BitVec.toInt_zero] at hg
    omega

section

variable {k k' : Kernel} {c : Cpu} {cur : EnvIx} {r : Word}

theorem envSetupVm_eq_none {m m' : Phys} {kern : Nat} (h : envSetupVm m kern = some (m', none)) :
    m' = m := by
  obtain ⟨⟨m₁, pp⟩, halloc, h⟩ := Option.bind_eq_some_iff.1 h
  cases pp with
  | none =>
    cases h
    exact (pageAlloc_eq_none halloc).1
  | some pp =>
    obtain ⟨p, -, h⟩ := Option.bind_eq_some_iff.1 h
    cases h

theorem sysExofork_neg (h : sysExofork k cur = some (k', .ret r)) (hr : r.slt 0 = true) : k' = k := by
  rcases sysExofork_cases h with (rfl | ⟨m, hvm, rfl⟩) | ⟨e, k₁, tf, ha, rfl, -⟩
  · rfl
  · rw [envSetupVm_eq_none hvm]
  · obtain ⟨d, henv⟩ := ha.envs_self
    rw [henv, envgen_pos] at hr
    cases hr

theorem sysPageAlloc_neg {envid va perm : Word}
    (h : sysPageAlloc k c envid va perm = some (k', .ret r)) (hr : r.slt 0 = true) : k' = k := by
  cases sysPageAlloc_step h with
  | refused => rfl
  | empty halloc => rw [(pageAlloc_eq_none halloc).1]
  | @noTable _ pp _ _ _ _ halloc hins hneg hfree =>
    obtain ⟨hp, -⟩ | ⟨pp', hp, hl, rfl⟩ := pageAlloc_false halloc
    · cases hp
    · cases hp
      -- no page was left for the table, so `pp` was the last one
      obtain ⟨rfl, hlast⟩ := pageInsert_neg hins hneg
      rw [pageFree] at hfree
      split at hfree
      · cases hfree
        rw [link_unlink hl hlast]
      · cases hfree
  | mapped => cases slt_zero.symm.trans hr

theorem sysPageMap_neg {srcenvid srcva dstenvid dstva perm : Word}
    (h : sysPageMap k c srcenvid srcva dstenvid dstva perm = some (k', .ret r))
    (hr : r.slt 0 = true) : k' = k := by
  cases sysPageMap_step h with
  | refused => rfl
  | inserted _ _ _ _ _ _ _ hins =>
    split at hr
    · next hneg => rw [(pageInsert_neg hins hneg).1]
    · cases slt_zero.symm.trans hr

theorem sysPageUnmap_neg {envid va : Word} (h : sysPageUnmap k c envid va = some (k', .ret r))
    (hr : r.slt 0 = true) : k' = k := by
  cases sysPageUnmap_step h with
  | refused => rfl
  | removed => cases slt_zero.symm.trans hr

theorem sysIpcTrySend_neg {envid value srcva perm : Word}
    (h : sysIpcTrySend k c cur envid value srcva perm = some (k', .ret r)) (hr : r.slt 0 = true) :
    k' = k := by
  cases sysIpcTrySend_step h with
  | refused => rfl
  | plain => cases slt_zero.symm.trans hr
  | dropped => cases slt_zero.symm.trans hr
  | noMemory _ _ _ _ _ hins hneg => rw [(pageInsert_neg hins hneg).1]
  | mapped => cases slt_zero.symm.trans hr

theorem sysIpcRecv_ret {dstva : Word} (h : sysIpcRecv k c cur dstva = some (k', .ret r)) :
    k' = k := by
  rw [sysIpcRecv] at h
  split at h
  · cases h; rfl
  · obtain ⟨k₁, -, h⟩ := Option.bind_eq_some_iff.1 h
    cases h

theorem sysEnvDestroy_neg {envid : Word} (h : sysEnvDestroy k c envid = some (k', .ret r))
    (hr : r.slt 0 = true) : k' = k := by
  rw [sysEnvDestroy] at h
  split at h
  · cases h; rfl
  · obtain ⟨⟨k₁, gone⟩, -, h⟩ := Option.bind_eq_some_iff.1 h
    cases gone <;> cases h
    rw [slt_zero] at hr
    cases hr

theorem sysEnvSetStatus_neg {envid status : Word}
    (h : sysEnvSetStatus k c envid status = some (k', .ret r)) (hr : r.slt 0 = true) : k' = k := by
  rw [sysEnvSetStatus] at h
  split at h
  · cases h; rfl
  · split at h
    · cases h; rfl
    · cases h
      rw [slt_zero] at hr
      cases hr

theorem sysEnvSetPgfaultUpcall_neg {envid func : Word}
    (h : sysEnvSetPgfaultUpcall k c envid func = some (k', .ret r)) (hr : r.slt 0 = true) :
    k' = k := by
  rw [sysEnvSetPgfaultUpcall] at h
  split at h
  · cases h; rfl
  · cases h
    rw [slt_zero] at hr
    cases hr

theorem sysEnvSetTrapframe_neg {envid tf : Word}
    (h : sysEnvSetTrapframe k c envid tf = some (k', .ret r)) (hr : r.slt 0 = true) : k' = k := by
  rw [sysEnvSetTrapframe] at h
  split at h
  · cases h; rfl
  · obtain ⟨⟨k₁, gone⟩, -, h⟩ := Option.bind_eq_some_iff.1 h
    cases gone with
    | true => cases h
    | false =>
      simp only at h
      split at h
      · cases h
      · cases h
        rw [slt_zero] at hr
        cases hr

end

def Sysno.managing : List Sysno :=
  [.envDestroy, .exofork, .envSetStatus, .envSetTrapframe, .envSetPgfaultUpcall, .pageAlloc,
    .pageMap, .pageUnmap, .ipcTrySend, .ipcRecv]

/-- A call that returns an error leaves the kernel as it was. -/
theorem syscall_atomic {k k' : Kernel} {c : Cpu} {cur : EnvIx} {inp : Inputs}
    {no a1 a2 a3 a4 a5 r : Word} {s : Sysno} (hno : Sysno.ofWord no = some s)
    (hs : s ∈ Sysno.managing) (h : syscall k c cur inp no a1 a2 a3 a4 a5 = some (k', .ret r))
    (hr : r.slt 0 = true) : k' = k := by
  rw [syscall, hno] at h
  cases s with
  | envDestroy => exact sysEnvDestroy_neg h hr
  | exofork => exact sysExofork_neg h hr
  | envSetStatus => exact sysEnvSetStatus_neg h hr
  | envSetTrapframe => exact sysEnvSetTrapframe_neg h hr
  | envSetPgfaultUpcall => exact sysEnvSetPgfaultUpcall_neg h hr
  | pageAlloc => exact sysPageAlloc_neg h hr
  | pageMap => exact sysPageMap_neg h hr
  | pageUnmap => exact sysPageUnmap_neg h hr
  | ipcTrySend => exact sysIpcTrySend_neg h hr
  | ipcRecv => exact sysIpcRecv_ret h
  | cputs => simp [Sysno.managing] at hs
  | cgetc => simp [Sysno.managing] at hs
  | getenvid => simp [Sysno.managing] at hs
  | yield => simp [Sysno.managing] at hs
  | timeMsec => simp [Sysno.managing] at hs
  | txpacket => simp [Sysno.managing] at hs
  | rxpacket => simp [Sysno.managing] at hs

theorem syscall_atomic_pageAlloc : ∃ k k', Booted demo (List.replicate 1 idleProg) k ∧
    syscall k bootcpu env0 noInputs 4 0 utop 7 0 0 = some (k', .ret (-eInval)) ∧ k' = k := by
  obtain ⟨k, -, -, -, -, -, hb, -⟩ := demo_booted (n := 1) (by decide)
  have hno : Sysno.ofWord 4 = some .pageAlloc := by decide
  have h : syscall k bootcpu env0 noInputs 4 0 utop 7 0 0 = some (k, .ret (-eInval)) := by
    simp only [syscall, hno]
    rw [sysPageAlloc, if_pos (by decide)]
  exact ⟨k, k, hb, h, syscall_atomic hno (by decide) h (by decide)⟩

end Jos.Kern
