import Jos.Kern.Discipline
import Jos.Lib.Run

/-! The memory invariant along whole runs. -/

namespace Jos.Kern

open Lib Phys Kernel

section

variable {b : Base} {c : Cpu} {k k' : Kernel} {e cur : EnvIx} {tf : Trapframe}
  {P W R Q : Kernel → Prop}

theorem Counted.congr (h : Counted k) (hp : k'.toPhys = k.toPhys) (hd : k'.dirs = k.dirs) :
    Counted k' := by
  intro p
  rw [hp, hd]
  exact h p

theorem Counted.fewer (h : Counted k)
    (hf : ∀ {r p}, target k'.toPhys k'.dirs r = some p → target k.toPhys k.dirs r = some p) :
    Counted k' := fun p => Nat.le_trans (refCount_mono fun _ => hf) (h p)

theorem Rules.strengthen {P' : Kernel → Prop} (H : Rules c cur tf P W R Q)
    (hP : ∀ {k}, P' k → P k) : Rules c cur tf P' W R Q where
  weaken := fun h => H.weaken (hP h)
  forget := H.forget
  current := H.current
  frame := fun tf' h he => H.frame tf' h
    (he.imp_right fun ⟨hno, k₁, hk₁, he⟩ => ⟨hno, k₁, hP hk₁, he⟩)
  result := H.result
  tick := fun t h => H.tick t (hP h)
  device := H.device
  upcall := fun f h => H.upcall f (hP h)
  fork := fun h => H.fork (hP h)
  setStatus := fun st h => H.setStatus st (hP h)
  pageAlloc := fun h => H.pageAlloc (hP h)
  pageMap := fun h => H.pageMap (hP h)
  pageUnmap := fun h => H.pageUnmap (hP h)
  trySend := fun h => H.trySend (hP h)
  recv := fun h => H.recv (hP h)
  mark := fun h => H.mark (hP h)
  free := fun h => H.free (hP h)
  exit := H.exit
  receive := fun bs h => H.receive bs (hP h)
  push := H.push
  run := H.run
  resume := H.resume
  halt := H.halt

theorem Rules.and (H : Rules c cur tf P W R Q) (A : Kernel → Prop) :
    Rules c cur tf (fun k => P k ∧ A k) W R Q :=
  H.strengthen fun h => h.1

theorem currentRules (c : Cpu) (cur : EnvIx) (tf : Trapframe) :
    Rules c cur tf (fun k => k.curenv c = some cur) (fun k => k.curenv c = some cur)
      (fun _ => True) (fun _ => True) where
  weaken := id
  forget := fun _ => trivial
  current := id
  frame := fun _ h _ => h
  result := fun _ h => h
  tick := fun _ _ => trivial
  device := fun _ h => h
  upcall := fun _ _ _ _ => trivial
  fork := fun _ _ _ => trivial
  setStatus := fun _ _ _ _ _ _ => trivial
  pageAlloc := fun _ _ _ => trivial
  pageMap := fun _ _ _ => trivial
  pageUnmap := fun _ _ _ => trivial
  trySend := fun _ _ _ => trivial
  recv := fun _ _ _ => trivial
  mark := fun h _ _ _ _ => h
  free := fun h _ _ _ _ hf => ((envFree_freed hf).curenv_eq c).trans h
  exit := fun _ _ => trivial
  receive := fun _ h _ _ => h
  push := fun _ _ h _ _ => h
  run := fun _ _ _ => trivial
  resume := fun _ _ => trivial
  halt := fun _ _ _ _ => trivial

def TransfersBelow (k : Kernel) (c : Cpu) (tf : Trapframe) : Prop :=
  tf.sysno = some .ipcTrySend → ∀ e, envid2env k c tf.tfRegs.regEdx false = some e →
    (k.envs e).envIpcRecving = true → tf.tfRegs.regEbx < utop → (k.envs e).envIpcDstva < utop

theorem TransfersBelow.frame (h : TransfersBelow k c tf) (tf' : Trapframe) :
    TransfersBelow (k.setEnv e { k.envs e with envTf := tf' }) c tf := by
  intro hno e' he' hrecv hsrc
  have hd : ((k.setEnv e { k.envs e with envTf := tf' }).envs e').envIpcDstva =
      (k.envs e').envIpcDstva := envs_setEnv_field Env.envIpcDstva k e (by rfl) e'
  rw [envid2env_frame] at he'
  rw [recving_frame] at hrecv
  rw [hd]
  exact h hno e' he' hrecv hsrc

theorem utfAddr_lt (esp : Word) : utfAddr esp < ulim := by
  have h1 : (uxstacktop - pgsize).toNat = 0xEEBFF000 := by decide
  have h2 : (uxstacktop - 1).toNat = 0xEEBFFFFF := by decide
  rw [utfAddr]
  split
  · next h =>
    have hlo := BitVec.le_def.1 h.1
    have hhi := BitVec.le_def.1 h.2
    rw [h1] at hlo
    rw [h2] at hhi
    rw [BitVec.lt_def, toNat_ulim, BitVec.toNat_sub, BitVec.toNat_sub]
    simp only [BitVec.ofNat_eq_ofNat, BitVec.toNat_ofNat]
    omega
  · decide

/-- Memory obeys the rules of a trap, as long as pages are sent below `UTOP`, packets are
taken below `ULIM`, and a CPU that writes to user memory does so in the address space of its
current environment. -/
theorem soundRules (b : Base) (D : Rules c cur tf P W R Q)
    (hsend : ∀ {k}, P k → TransfersBelow k c tf)
    (hrx : tf.sysno = some .rxpacket → tf.tfRegs.regEdx < ulim)
    (hcr3 : ∀ {k}, W k → tf.MayFault → k.dirs cur = some (k.cpus c).cr3) :
    Rules c cur tf (fun k => P k ∧ Sound b k ∧ Counted k) (fun k => W k ∧ Sound b k ∧ Counted k)
      (fun k => R k ∧ Sound b k) (fun k => Q k ∧ Sound b k) where
  weaken := fun ⟨h, hs⟩ => ⟨D.weaken h, hs⟩
  forget := fun ⟨h, hs, _⟩ => ⟨D.forget h, hs⟩
  current := fun ⟨h, _⟩ => D.current h
  frame := fun tf' ⟨h, hs, hc⟩ he =>
    ⟨D.frame tf' h (he.imp_right fun ⟨hno, k₁, hk₁, he⟩ => ⟨hno, k₁, hk₁.1, he⟩), hs.frame tf',
      hc.congr rfl (dirs_setEnv rfl)⟩
  result := fun tf' ⟨h, hs⟩ => ⟨D.result tf' h, hs.frame tf'⟩
  tick := fun t ⟨h, hs, _⟩ => ⟨D.tick t h, hs.congr rfl rfl rfl rfl⟩
  device := fun d ⟨h, hs, hc⟩ => ⟨D.device d h, hs.congr rfl rfl rfl rfl, hc.congr rfl rfl⟩
  upcall := by
    rintro k e func ⟨h, hs, -⟩ hno he
    exact ⟨D.upcall func h hno he, hs.setEnv rfl rfl fun hf => hs.free hf⟩
  fork := fun ⟨h, hs, _⟩ hno hcall => ⟨D.fork h hno hcall, hs.sysExofork hcall⟩
  setStatus := by
    rintro k e st ⟨h, hs, -⟩ hno he hst hcode
    refine ⟨D.setStatus st h hno he hst hcode, hs.setStatus ?_⟩
    rcases hst with rfl | rfl <;> decide
  pageAlloc := fun ⟨h, hs, hc⟩ hno hcall => ⟨D.pageAlloc h hno hcall, (hs.sysPageAlloc hc hcall).1⟩
  pageMap := fun ⟨h, hs, hc⟩ hno hcall => ⟨D.pageMap h hno hcall, (hs.sysPageMap hc hcall).1⟩
  pageUnmap := fun ⟨h, hs, hc⟩ hno hcall => ⟨D.pageUnmap h hno hcall, (hs.sysPageUnmap hc hcall).1⟩
  trySend := fun ⟨h, hs, hc⟩ hno hcall =>
    ⟨D.trySend h hno hcall, hs.send hc (sysIpcTrySend_step hcall) (hsend h hno)⟩
  recv := by
    rintro k ⟨h, hs, -⟩ hno hva
    refine ⟨D.recv h hno hva, ?_⟩
    apply Sound.note
    apply hs.setEnv
    · rfl
    · rfl
    · rintro ⟨⟩
  mark := by
    rintro k e ⟨h, hs, hc⟩ hno he hst hne
    exact ⟨D.mark h hno he hst hne, hs.setStatus (by decide), hc.congr rfl (dirs_setEnv rfl)⟩
  free := by
    rintro k k' e ⟨h, hs, hc⟩ hno he hst hne hfree
    obtain ⟨hs', hfewer, -⟩ := hs.freed hc.le (envFree_freed hfree)
    exact ⟨D.free h hno he hst hne hfree, hs', hc.fewer hfewer⟩
  exit := by
    rintro k k' ⟨h, hs, hc⟩ hfree
    obtain ⟨hs', -⟩ := hs.freed hc.le (envFree_freed hfree)
    exact ⟨D.exit h hfree, hs'.congr rfl rfl rfl rfl⟩
  receive := by
    rintro k bs ⟨h, hs, hc⟩ hno hcheck
    obtain ⟨l, hsp⟩ := hs.spaces
    have hdir := hcr3 (D.weaken h) (.inr (.inr (.inr (.inr hno))))
    have hdata := hsp.copyOut hdir bs (hrx hno)
    refine ⟨D.receive bs h hno hcheck, hs.phys hdata.spaces, ?_⟩
    intro p
    change refCount (target _ k.dirs) p ≤ 65535
    rw [hdata.target_eq]
    exact hc p
  push := by
    rintro k esp bs ⟨h, hs, hc⟩ hf hcheck
    obtain ⟨l, hsp⟩ := hs.spaces
    have hdata := hsp.copyOut (hcr3 h hf) bs (utfAddr_lt esp)
    refine ⟨D.push esp bs h hf hcheck, hs.phys hdata.spaces, ?_⟩
    intro p
    change refCount (target _ k.dirs) p ≤ 65535
    rw [hdata.target_eq]
    exact hc p
  run := fun ⟨h, hs⟩ he hrun => ⟨D.run h he hrun, hs.ran (envRun_ran hrun)⟩
  resume := fun ⟨h, hs, _⟩ hrun => ⟨D.resume h hrun, hs.ran (envRun_ran hrun)⟩
  halt := fun ⟨h, hs⟩ hn hcur hhalt => ⟨D.halt h hn hcur hhalt, hs.halted (schedHalt_halted hhalt)⟩

theorem Sound.schedYield (h : Sound b k) (hy : schedYield k c = some k') : Sound b k' := by
  rcases schedYield_cases hy with ⟨e, -, hrun⟩ | ⟨-, -, hhalt⟩
  · exact h.ran (envRun_ran hrun)
  · exact h.halted (schedHalt_halted hhalt)

theorem Sound.trapHalted {trapno : Word} (h : Sound b k) (ht : trapHalted k c trapno = some k') :
    Sound b k' := by
  have h₁ : Sound b (k.setCpu c { k.cpus c with cpuStatus := .started }) := h.congr rfl rfl rfl rfl
  simp only [Kern.trapHalted] at ht
  generalize k.setCpu c { k.cpus c with cpuStatus := .started } = k₁ at h₁ ht
  split at ht
  · obtain ⟨k₂, htick, ht⟩ := Option.bind_eq_some_iff.1 ht
    simp only [timeTick] at htick
    split at htick
    · cases htick
    · cases htick
      have h₂ : Sound b { k₁ with ticks := k₁.ticks + 1 } := h₁.congr rfl rfl rfl rfl
      exact h₂.schedYield ht
  · split at ht
    · rcases trapReturn_cases ht with ⟨e, -, -, hrun⟩ | hy
      · exact h₁.ran (envRun_ran hrun)
      · exact h₁.schedYield hy
    · cases ht

theorem Sound.reap (h : Sound b k) (hc : Counted k) {k₁ : Kernel} (hfree : envFree k c e = some k₁)
    (hy : Kern.schedYield (k₁.setCurenv c none) c = some k') : Sound b k' := by
  obtain ⟨hs, -⟩ := h.freed hc.le (envFree_freed hfree)
  have hs' : Sound b (k₁.setCurenv c none) := hs.congr rfl rfl rfl rfl
  exact hs'.schedYield hy

end

theorem user_curenv {k : Kernel} {c : Cpu} {cur : EnvIx} (h : k.user c = some cur) :
    k.curenv c = some cur := by
  rw [user] at h
  split at h
  · exact h
  · cases h

theorem user_awake {k : Kernel} {c : Cpu} {cur : EnvIx} (h : k.user c = some cur) :
    (k.cpus c).cpuStatus ≠ .halted := by
  intro hh
  rw [user, hh, if_neg (by decide)] at h
  cases h

/-- The steps that cannot reach into memory they have no part in. -/
structure Contained (k : Kernel) (ev : Event) : Prop where
  counted : Counted k
  disciplined : Disciplined k ev
  transfers : ∀ {c tf inp}, ev = .trap c tf inp → TransfersBelow k c tf
  packets : ∀ {c tf inp}, ev = .trap c tf inp → tf.sysno = some .rxpacket → tf.tfRegs.regEdx < ulim

theorem Sound.step_of {b : Base} {k k' : Kernel} {ev : Event} (h : Sound b k) (hc : Counted k)
    (htrap : ∀ {c tf inp cur}, ev = .trap c tf inp → k.user c = some cur → k.status cur ≠ .dying →
      trapUser k c tf inp = some k' → Sound b k')
    (hstore : ∀ {c va v cur m}, ev = .store c va v → k.user c = some cur →
      mmuStore k.toPhys (k.cpus c).cr3 va (pteU ||| pteW) v = some m →
      Sound b { k with toPhys := m })
    (hst : step k ev = some k') : Sound b k' := by
  cases ev with
  | start c =>
    simp only [step] at hst
    split at hst
    · exact h.schedYield hst
    · cases hst
  | trap c tf inp =>
    simp only [step] at hst
    split at hst
    · next hu =>
      obtain ⟨cur, hcur⟩ := Option.ne_none_iff_exists'.1 hu.1
      by_cases hdy : k.status cur = .dying
      · obtain ⟨k₁, hfree, hy⟩ := trapUser_dying (user_curenv hcur) hdy hst
        exact h.reap hc hfree hy
      · exact htrap rfl hcur hdy hst
    · cases hst
  | irq c trapno =>
    simp only [step] at hst
    split at hst
    · exact h.trapHalted hst
    · cases hst
  | store c va v =>
    simp only [step] at hst
    split at hst
    · next hu =>
      obtain ⟨m, hm, rfl⟩ := Option.map_eq_some_iff.1 hst
      obtain ⟨cur, hcur⟩ := Option.ne_none_iff_exists'.1 hu
      exact hstore rfl hcur hm
    · cases hst
  | device d =>
    cases hst
    exact h.congr rfl rfl rfl rfl

theorem Sound.step {b : Base} {k k' : Kernel} {ev : Event} (h : Sound b k) (hd : Dispatched k)
    (hg : Contained k ev) (hst : step k ev = some k') : Sound b k' := by
  refine h.step_of hg.counted ?_ ?_ hst
  · rintro c tf inp cur rfl hu hdy htrap
    have hcur := user_curenv hu
    have hi : Inside c k := hd.inside (user_awake hu) fun e he => by
      rw [hcur] at he
      cases he
      exact hdy
    have D := (dispatchRules k c cur tf).and fun k' => TransfersBelow k' c tf
    have H := soundRules b D (fun hP => hP.2) (hg.packets rfl) fun hW _ => hW.1.cr3 hW.2.2
    exact (H.trapUser hcur hdy
      ⟨⟨⟨hi.frame tf, (Since.refl c k).frame tf, hcur, hg.disciplined.frame tf⟩,
        (hg.transfers rfl).frame tf⟩, h.frame tf, hg.counted.congr rfl (dirs_setEnv rfl)⟩ htrap).2
  · rintro c va v cur m rfl hu hm
    obtain ⟨l, hsp⟩ := h.spaces
    obtain ⟨hdata, -⟩ := hsp.mmuStore (hd.cr3 (user_curenv hu)) (by decide) (.inr (by decide)) hm
    exact h.phys hdata.spaces

end Jos.Kern
