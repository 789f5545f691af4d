import Jos.Kern.Atomic

/-! What an environment can do to others: nothing but to those it owns and to the one it sends a
message to, and it hands on no page but those it has. -/

namespace Jos.Kern

open Lib Phys Kernel

def Owned (k : Kernel) (cur e : EnvIx) : Prop :=
  e = cur ∨ (k.envs e).envParentId = (k.envs cur).envId

def SendsTo (k : Kernel) (c : Cpu) (cur : EnvIx) (tf : Trapframe) (e : EnvIx) : Prop :=
  tf.sysno = some .ipcTrySend ∧ envid2env k c tf.tfRegs.regEdx false = some e ∧
    ∃ k', sysIpcTrySend k c cur tf.tfRegs.regEdx tf.tfRegs.regEcx tf.tfRegs.regEbx
      tf.tfRegs.regEdi = some (k', .ret 0)

structure Foreign (k : Kernel) (cur : EnvIx) (T : EnvIx → Prop) (e : EnvIx) : Prop where
  live : k.status e ≠ .free
  not_owned : ¬Owned k cur e
  not_target : ¬T e

structure Kept (k k' : Kernel) (e : EnvIx) : Prop where
  entry_eq : entry k'.toPhys k'.dirs e = entry k.toPhys k.dirs e
  env_eq : k'.envs e = k.envs e

/-- Page `p` is mapped in an environment `cur` owns, open to user code, and for writing if `w` is
an entry for writing. -/
def Held (k : Kernel) (cur : EnvIx) (p : Nat) (w : Word) : Prop :=
  ∃ e i j, Owned k cur e ∧ target k.toPhys k.dirs (.pte e i j) = some p ∧
    entry k.toPhys k.dirs e i j &&& pteU ≠ 0 ∧
    (w &&& pteW ≠ 0 → entry k.toPhys k.dirs e i j &&& pteW ≠ 0)

def Granted (k k' : Kernel) (cur : EnvIx) (w : Word) : Prop :=
  ∃ p, present w = some p ∧ (Fresh k k' p ∨ Held k cur p w)

/-- `k` comes from `k₁` by a part of a trap that maps nothing. -/
structure Removing (k₁ : Kernel) (cur : EnvIx) (T : EnvIx → Prop) (k : Kernel) : Prop where
  kept : ∀ {e}, Foreign k₁ cur T e → Kept k₁ k e
  removed : ∀ e i j, entry k.toPhys k.dirs e i j = entry k₁.toPhys k₁.dirs e i j ∨
    entry k.toPhys k.dirs e i j = 0

/-- `k` comes from `k₁` by a part of a trap that maps what `cur` may hand out. -/
structure Granting (k₁ : Kernel) (c : Cpu) (cur : EnvIx) (T : EnvIx → Prop) (k : Kernel) :
    Prop where
  current : ∀ {e}, k.curenv c = some e → e = cur
  kept : ∀ {e}, Foreign k₁ cur T e → Kept k₁ k e
  granted : ∀ e i j, entry k.toPhys k.dirs e i j = entry k₁.toPhys k₁.dirs e i j ∨
    entry k.toPhys k.dirs e i j = 0 ∨ Granted k₁ k cur (entry k.toPhys k.dirs e i j)

section

variable {b : Base} {k₁ k k' : Kernel} {c : Cpu} {cur e : EnvIx} {tf : Trapframe}
  {T : EnvIx → Prop}

theorem envid2env_owned {envid : Word} (hcur : k.curenv c = some cur)
    (h : envid2env k c envid true = some e) : Owned k cur e := by
  rw [envid2env] at h
  split at h
  · rw [hcur] at h
    cases h
    exact .inl rfl
  · simp only at h
    split_ifs at h with h1 h2
    cases h
    rw [hcur] at h2
    by_contra hno
    obtain ⟨hne, hpar⟩ := not_or.1 hno
    refine h2 ⟨trivial, fun he => hne (Option.some.inj he), fun he => hpar ?_⟩
    exact Option.some.inj he

theorem Foreign.ne (h : Foreign k cur T e) {e' : EnvIx} (ho : Owned k cur e') : e ≠ e' := by
  rintro rfl
  exact h.not_owned ho

namespace Removing

theorem refl (k : Kernel) (cur : EnvIx) (T : EnvIx → Prop) : Removing k cur T k :=
  ⟨fun _ => ⟨rfl, rfl⟩, fun _ _ _ => .inl rfl⟩

theorem granting (h : Removing k₁ cur T k) (hc : ∀ {e}, k.curenv c = some e → e = cur) :
    Granting k₁ c cur T k :=
  ⟨hc, h.kept, fun e i j => (h.removed e i j).imp_right .inl⟩

theorem setEnv (h : Removing k₁ cur T k) (ho : Owned k₁ cur e) {v : Env}
    (hv : v.envPgdir = (k.envs e).envPgdir) : Removing k₁ cur T (k.setEnv e v) := by
  refine ⟨fun {e'} hf => ⟨?_, ?_⟩, ?_⟩
  · rw [dirs_setEnv hv]
    exact (h.kept hf).entry_eq
  · rw [envs_setEnv_of_ne k v (hf.ne ho)]
    exact (h.kept hf).env_eq
  · rw [dirs_setEnv hv]
    exact h.removed

theorem congr (h : Removing k₁ cur T k) (he : k'.envs = k.envs)
    (hent : entry k'.toPhys k'.dirs = entry k.toPhys k.dirs) : Removing k₁ cur T k' := by
  refine ⟨fun hf => ⟨?_, ?_⟩, ?_⟩
  · rw [hent]
    exact (h.kept hf).entry_eq
  · rw [he]
    exact (h.kept hf).env_eq
  · rw [hent]
    exact h.removed

theorem freed (h : Removing k₁ cur T k) (hs : Sound b k) (hc : Counted k) (ho : Owned k₁ cur e)
    (hf : Freed k c e k') : Removing k₁ cur T k' := by
  obtain ⟨-, -, hent⟩ := hs.freed hc.le hf
  refine ⟨fun {e'} hfor => ⟨?_, ?_⟩, fun e' i j => ?_⟩
  · rw [hent (hfor.ne ho)]
    exact (h.kept hfor).entry_eq
  · rw [hf.envs_eq (hfor.ne ho)]
    exact (h.kept hfor).env_eq
  · by_cases hee : e' = e
    · subst hee
      refine .inr (entry_of_dir_none ?_ i j)
      rw [dirs, hf.envs_self]
    · rw [hent hee]
      exact h.removed e' i j

end Removing

theorem Granted.congr {k'' : Kernel} {w : Word} (h : Granted k k' cur w) (hm : k''.mem = k'.mem) :
    Granted k k'' cur w := by
  obtain ⟨p, hp, ⟨hfree, hun, hz⟩ | hheld⟩ := h
  · refine ⟨p, hp, .inl ⟨hfree, hun, ?_⟩⟩
    rw [hm]
    exact hz
  · exact ⟨p, hp, .inr hheld⟩

theorem Sound.granted (hs : Sound b k) {i : Pdx} {j : Ptx} {pp : Nat} {perm : Word}
    (htgt : target k.toPhys k.dirs (.pte e i j) = some pp) (hperm : permOk perm)
    (ho : Owned k cur e)
    (hW : perm &&& pteW ≠ 0 → entry k.toPhys k.dirs e i j &&& pteW ≠ 0) :
    Granted k k' cur (page2pa pp ||| perm ||| pteP) := by
  obtain ⟨l, hsp⟩ := hs.spaces
  have hpp := b.lt (hsp.data_page htgt).1
  refine ⟨pp, present_entry hpp hperm.lt, .inr ⟨e, i, j, ho, htgt, ?_, fun hw => hW ?_⟩⟩
  · rcases hsp.shape.pte e i j with h0 | ⟨-, hU⟩
    · rw [target, h0, present_zero] at htgt
      cases htgt
    · exact hU
  · rw [entry_and (by decide), or_and_distrib, show pteP &&& pteW = 0#32 from by decide,
      BitVec.or_zero] at hw
    exact hw

namespace Granting

theorem setEnv (h : Granting k₁ c cur T k) (ho : ¬Foreign k₁ cur T e) {v : Env}
    (hv : v.envPgdir = (k.envs e).envPgdir) : Granting k₁ c cur T (k.setEnv e v) := by
  refine ⟨h.current, fun {e'} hf => ⟨?_, ?_⟩, fun e' i j => ?_⟩
  · rw [dirs_setEnv hv]
    exact (h.kept hf).entry_eq
  · have hne : e' ≠ e := by
      rintro rfl
      exact ho hf
    rw [envs_setEnv_of_ne k v hne]
    exact (h.kept hf).env_eq
  · rw [dirs_setEnv hv]
    exact (h.granted e' i j).imp_right (Or.imp_right fun hg => hg.congr rfl)

theorem maps {va w : Word} {hva : va < utop} (hm : Maps k k' e va hva w) (henv : k'.envs = k.envs)
    (hc : ∀ {e}, k'.curenv c = some e → e = cur) (ho : ¬Foreign k cur T e)
    (hw : w = 0 ∨ Granted k k' cur w) : Granting k c cur T k' := by
  refine ⟨hc, fun {e'} hf => ⟨?_, congrFun henv e'⟩, fun e' i j => ?_⟩
  · funext i j
    rw [hm, if_neg]
    rintro ⟨rfl, -⟩
    exact ho hf
  · rw [hm]
    split
    · exact .inr hw
    · exact .inl rfl

/-! The calls, one by one. -/

theorem refl (hcur : k.curenv c = some cur) : Granting k c cur T k :=
  (Removing.refl k cur T).granting fun h => Option.some.inj (h.symm.trans hcur)

theorem pageUnmap (hs : Sound b k) (hc : Counted k) (hcur : k.curenv c = some cur)
    {envid va r : Word} (h : sysPageUnmap k c envid va = some (k', .ret r)) :
    Granting k c cur T k' := by
  obtain ⟨-, m, rfl⟩ := sysPageUnmap_ret h
  cases hr : r.slt 0 with
  | true =>
    rw [sysPageUnmap_neg h hr]
    exact .refl hcur
  | false =>
    obtain ⟨e, hva, he, hmaps⟩ := (hs.sysPageUnmap hc h).2 hr
    exact maps hmaps rfl (fun h => Option.some.inj (h.symm.trans hcur))
      (fun hf => hf.not_owned (envid2env_owned hcur he)) (.inl rfl)

theorem pageMap (hs : Sound b k) (hc : Counted k) (hcur : k.curenv c = some cur)
    {srcenvid srcva dstenvid dstva perm r : Word}
    (h : sysPageMap k c srcenvid srcva dstenvid dstva perm = some (k', .ret r)) :
    Granting k c cur T k' := by
  obtain ⟨-, m, rfl⟩ := sysPageMap_ret h
  cases hr : r.slt 0 with
  | true =>
    rw [sysPageMap_neg h hr]
    exact .refl hcur
  | false =>
    obtain ⟨src, dst, pp, hsrc, hdst, hsrcenv, hdstenv, hperm, htgt, hW, hmaps⟩ :=
      (hs.sysPageMap hc h).2 hr
    exact maps hmaps rfl (fun h => Option.some.inj (h.symm.trans hcur))
      (fun hf => hf.not_owned (envid2env_owned hcur hdstenv))
      (.inr (hs.granted htgt hperm (envid2env_owned hcur hsrcenv) hW))

theorem pageAlloc (hs : Sound b k) (hc : Counted k) (hcur : k.curenv c = some cur)
    {envid va perm r : Word} (h : sysPageAlloc k c envid va perm = some (k', .ret r)) :
    Granting k c cur T k' := by
  obtain ⟨-, m, hk'⟩ := sysPageAlloc_ret h
  cases hr : r.slt 0 with
  | true =>
    rw [sysPageAlloc_neg h hr]
    exact .refl hcur
  | false =>
    obtain ⟨e, pp, hva, he, hperm, hpp, hfresh, hmaps⟩ := (hs.sysPageAlloc hc h).2 hr
    subst hk'
    exact maps hmaps rfl (fun h => Option.some.inj (h.symm.trans hcur))
      (fun hf => hf.not_owned (envid2env_owned hcur he))
      (.inr ⟨pp, present_entry hpp hperm.lt, .inl hfresh⟩)

theorem ipcDeliver (h : Granting k₁ c cur T k) (ho : ¬Foreign k₁ cur T e) (value : Word) :
    Granting k₁ c cur T (ipcDeliver k cur e value) := by
  obtain ⟨hc, hk, hg⟩ := h.setEnv ho (v := { k.envs e with
    envIpcFrom := (k.envs cur).envId
    envIpcRecving := false
    envIpcValue := value
    envStatus := .runnable
    envTf := { (k.envs e).envTf with tfRegs := { (k.envs e).envTf.tfRegs with regEax := 0 } } }) rfl
  refine ⟨hc, fun hf => ⟨(hk hf).entry_eq, (hk hf).env_eq⟩, fun e' i j => ?_⟩
  exact (hg e' i j).imp_right (Or.imp_right fun hg => hg.congr rfl)

theorem trySend (hs : Sound b k) (hc : Counted k) (hcur : k.curenv c = some cur)
    (hbelow : TransfersBelow k c tf) (hno : tf.sysno = some .ipcTrySend)
    (hT : ∀ {e}, SendsTo k c cur tf e → T e) {r : Word}
    (h : sysIpcTrySend k c cur tf.tfRegs.regEdx tf.tfRegs.regEcx tf.tfRegs.regEbx
      tf.tfRegs.regEdi = some (k', .ret r)) : Granting k c cur T k' := by
  have htarget : ∀ {e}, envid2env k c tf.tfRegs.regEdx false = some e → r = 0 →
      ¬Foreign k cur T e := by
    rintro e he rfl hf
    exact hf.not_target (hT ⟨hno, he, k', h⟩)
  cases sysIpcTrySend_step h with
  | refused => exact .refl hcur
  | plain he => exact (refl hcur).ipcDeliver (htarget he rfl) _
  | dropped he => exact (refl hcur).ipcDeliver (htarget he rfl) _
  | noMemory =>
    rw [sysIpcTrySend_neg h slt_neg_eNoMem]
    exact .refl hcur
  | @mapped e pp m r he hrecv _ hpage _ hins hr =>
    have hnot := htarget he rfl
    have hdst := hbelow hno e he hrecv (ipcPage_some hpage).1
    obtain ⟨hsrc, -, hperm, t, j, hlook, hw⟩ := ipcPage_some hpage
    obtain ⟨l, hsp⟩ := hs.spaces
    obtain ⟨d, hd⟩ := pgdir_of_pageLookup hlook
    rw [hd] at hlook
    obtain ⟨htgt, hentry⟩ := hsp.pageLookup_inv hd hsrc hlook
    have hW : tf.tfRegs.regEdi &&& pteW ≠ 0 →
        entry k.toPhys k.dirs cur (dirIx _ hsrc) (tabIx tf.tfRegs.regEbx) &&& pteW ≠ 0 := by
      intro hW
      rw [← hentry]
      exact fun hz => hw ⟨hW, hz⟩
    have hmaps := (hs.ipcInsert hc hpage hdst hins).2 hr
    have hm : Granting k c cur T { k with toPhys := m } :=
      maps hmaps rfl (fun h => Option.some.inj (h.symm.trans hcur)) hnot
        (.inr (hs.granted htgt hperm (.inl rfl) hW))
    have hset : Granting k c cur T (Kernel.setEnv { k with toPhys := m } e
        { k.envs e with envIpcPerm := tf.tfRegs.regEdi }) := hm.setEnv hnot rfl
    exact hset.ipcDeliver hnot _

theorem fork (hs : Sound b k) (hcur : k.curenv c = some cur)
    (hfree : ∀ {e}, k.envFreeList = some e → k.status e = .free) {r : Word}
    (h : sysExofork k cur = some (k', .ret r)) : Granting k c cur T k' := by
  rcases sysExofork_cases h with (rfl | ⟨m, hvm, rfl⟩) | ⟨e, k₁, tf', ha, -, rfl⟩
  · exact .refl hcur
  · rw [envSetupVm_eq_none hvm]
    exact .refl hcur
  · have hent := (hs.allocated ha).2
    have hno : ¬Foreign k cur T e := fun hf => hf.live (hfree ha.head)
    refine setEnv ⟨?_, fun {e'} hf => ⟨?_, ha.envs_eq ?_⟩, fun e' i j => .inl ?_⟩ hno rfl
    · intro e' he'
      rw [curenv, ha.cpus_eq] at he'
      exact Option.some.inj (he'.symm.trans hcur)
    · rw [hent]
    · rintro rfl
      exact hno hf
    · rw [hent]

end Granting

end

/-- Environment `e` as before, except for what `env_run` does when it picks it. -/
structure Undisturbed (k k' : Kernel) (e : EnvIx) : Prop where
  entry_eq : entry k'.toPhys k'.dirs e = entry k.toPhys k.dirs e
  alike : (k.envs e).Alike (k'.envs e)
  status_eq : k'.status e = k.status e ∨ k.status e = .runnable ∧ k'.status e = .running

structure Confined (k₁ : Kernel) (cur : EnvIx) (T : EnvIx → Prop) (k' : Kernel) : Prop where
  undisturbed : ∀ {e}, Foreign k₁ cur T e → Undisturbed k₁ k' e
  granted : ∀ e i j, entry k'.toPhys k'.dirs e i j = entry k₁.toPhys k₁.dirs e i j ∨
    entry k'.toPhys k'.dirs e i j = 0 ∨ Granted k₁ k' cur (entry k'.toPhys k'.dirs e i j)

section

variable {b : Base} {k₁ k k' : Kernel} {c : Cpu} {cur e : EnvIx} {tf : Trapframe}
  {T : EnvIx → Prop}

theorem Ran.dirs_eq (hr : Ran k c e k') : k'.dirs = k.dirs := by
  funext e'
  obtain ⟨_, _, _, halike⟩ := hr.alike e'
  rw [dirs, halike, dirs]

theorem Granting.ran (h : Granting k₁ c cur T k)
    (he : k.status e = .runnable ∨ k.curenv c = some e) (hr : Ran k c e k') : Confined k₁ cur T k' := by
  have hent : entry k'.toPhys k'.dirs = entry k.toPhys k.dirs := by
    rw [hr.toPhys_eq, hr.dirs_eq]
  refine ⟨fun {e'} hf => ?_, fun e' i j => ?_⟩
  · obtain ⟨hentry, henv⟩ := h.kept hf
    have hst : k.status e' = k₁.status e' := congrArg Env.envStatus henv
    have hne : ∀ {e}, k.curenv c = some e → e' ≠ e := fun hc => by
      rw [h.current hc]
      exact hf.ne (.inl rfl)
    refine ⟨by rw [hent, hentry], henv ▸ hr.alike e', ?_⟩
    rw [hr.status_eq, ← hst]
    by_cases hee : e' = e
    · subst hee
      rcases he with he | hc
      · exact .inr ⟨he, if_pos rfl⟩
      · exact absurd rfl (hne hc)
    · rw [if_neg hee, if_neg fun hc => hne hc.1 rfl]
      exact .inl rfl
  · rw [hent]
    exact (h.granted e' i j).imp_right (Or.imp_right fun hg => hg.congr (by rw [hr.toPhys_eq]))

theorem Granting.halted (h : Granting k₁ c cur T k) (hh : Halted k c k') :
    Confined k₁ cur T k' := by
  have hent : entry k'.toPhys k'.dirs = entry k.toPhys k.dirs := by
    have hdirs : k'.dirs = k.dirs := by
      funext e'
      rw [dirs, hh.envs_eq, dirs]
    rw [hh.toPhys_eq, hdirs]
  refine ⟨fun {e'} hf => ?_, fun e' i j => ?_⟩
  · obtain ⟨hentry, henv⟩ := h.kept hf
    refine ⟨by rw [hent, hentry], ?_, .inl ?_⟩
    · rw [hh.envs_eq, henv]
      exact .refl _
    · rw [status, hh.envs_eq, henv, status]
  · rw [hent]
    exact (h.granted e' i j).imp_right (Or.imp_right fun hg => hg.congr (by rw [hh.toPhys_eq]))

variable {P W R Q : Kernel → Prop}

theorem authorityRules (b : Base) (k₁ : Kernel) (D : Rules c cur tf P W R Q)
    (hsend : ∀ {k}, P k → TransfersBelow k c tf)
    (hrx : tf.sysno = some .rxpacket → tf.tfRegs.regEdx < ulim)
    (hcr3 : ∀ {k}, W k → tf.MayFault → k.dirs cur = some (k.cpus c).cr3)
    (hfree : ∀ {k e}, P k → k.envFreeList = some e → k.status e = .free)
    (hT : ∀ {e}, SendsTo k₁ c cur tf e → T e) :
    Rules c cur tf (fun k => (P k ∧ Sound b k ∧ Counted k) ∧ k = k₁)
      (fun k => (W k ∧ Sound b k ∧ Counted k) ∧ Removing k₁ cur T k)
      (fun k => (R k ∧ Sound b k) ∧ Granting k₁ c cur T k)
      (fun k => (Q k ∧ Sound b k) ∧ Confined k₁ cur T k) := by
  have S := soundRules b D hsend hrx hcr3
  have hself : ∀ {k e}, W k → k.curenv c = some e → e = cur := fun hW he =>
    Option.some.inj (he.symm.trans (D.current hW))
  have hP : ∀ {k}, P k → k.curenv c = some cur := fun h => D.current (D.weaken h)
  exact {
    weaken := by
      rintro k ⟨h, rfl⟩
      exact ⟨S.weaken h, .refl k cur T⟩
    forget := fun ⟨h, hr⟩ => ⟨S.forget h, hr.granting (hself h.1)⟩
    current := fun ⟨h, _⟩ => S.current h
    frame := by
      rintro k e tf' ⟨h, hr⟩ he
      refine ⟨S.frame tf' h ?_, hr.setEnv ?_ rfl⟩
      · exact he.imp_right fun ⟨hno, k₂, hk₂, he⟩ => ⟨hno, k₂, hk₂.1, he⟩
      · rcases he with rfl | ⟨-, k₂, ⟨⟨hP₂, -⟩, rfl⟩, he⟩
        · exact .inl rfl
        · exact envid2env_owned (hP hP₂) he
    result := fun tf' ⟨h, hg⟩ => ⟨S.result tf' h, hg.setEnv (fun hf => hf.not_owned (.inl rfl)) rfl⟩
    tick := by
      rintro k t ⟨h, rfl⟩
      have hr : Removing k cur T { k with ticks := t } := (Removing.refl k cur T).congr rfl rfl
      exact ⟨S.tick t h, hr.granting fun he => hself (k := k) (D.weaken h.1) he⟩
    device := fun d ⟨h, hr⟩ => ⟨S.device d h, hr.congr rfl rfl⟩
    upcall := by
      rintro k e func ⟨h, rfl⟩ hno he
      exact ⟨S.upcall func h hno he, (Granting.refl (hP h.1)).setEnv
        (fun hf => hf.not_owned (envid2env_owned (hP h.1) he)) rfl⟩
    fork := by
      rintro k k' r ⟨h, rfl⟩ hno hcall
      exact ⟨S.fork h hno hcall, .fork h.2.1 (hP h.1) (hfree h.1) hcall⟩
    setStatus := by
      rintro k e st ⟨h, rfl⟩ hno he hst hcode
      exact ⟨S.setStatus st h hno he hst hcode, (Granting.refl (hP h.1)).setEnv
        (fun hf => hf.not_owned (envid2env_owned (hP h.1) he)) rfl⟩
    pageAlloc := by
      rintro k k' r ⟨h, rfl⟩ hno hcall
      exact ⟨S.pageAlloc h hno hcall, .pageAlloc h.2.1 h.2.2 (hP h.1) hcall⟩
    pageMap := by
      rintro k k' r ⟨h, rfl⟩ hno hcall
      exact ⟨S.pageMap h hno hcall, .pageMap h.2.1 h.2.2 (hP h.1) hcall⟩
    pageUnmap := by
      rintro k k' r ⟨h, rfl⟩ hno hcall
      exact ⟨S.pageUnmap h hno hcall, .pageUnmap h.2.1 h.2.2 (hP h.1) hcall⟩
    trySend := by
      rintro k k' r ⟨h, rfl⟩ hno hcall
      exact ⟨S.trySend h hno hcall, .trySend h.2.1 h.2.2 (hP h.1) (hsend h.1) hno hT hcall⟩
    recv := by
      rintro k ⟨h, rfl⟩ hno hva
      have hr : Removing k cur T (k.setEnv cur { k.envs cur with
          envIpcRecving := true
          envIpcDstva := tf.tfRegs.regEdx
          envStatus := .notRunnable
          envIpcFrom := 0 }) := (Removing.refl k cur T).setEnv (.inl rfl) rfl
      have hr' : Removing k cur T (ipcBlock k cur tf.tfRegs.regEdx) := hr.congr rfl rfl
      exact ⟨S.recv h hno hva, hr'.granting fun he => hself (k := k) (D.weaken h.1) he⟩
    mark := by
      rintro k e ⟨h, rfl⟩ hno he hst hne
      exact ⟨S.mark h hno he hst hne,
        (Removing.refl k cur T).setEnv (envid2env_owned (hP h.1) he) rfl⟩
    free := by
      rintro k k' e ⟨h, rfl⟩ hno he hst hne hcall
      exact ⟨S.free h hno he hst hne hcall, (Removing.refl k cur T).freed h.2.1 h.2.2
        (envid2env_owned (hP h.1) he) (envFree_freed hcall)⟩
    exit := by
      rintro k k' ⟨h, hr⟩ hcall
      have hr' : Removing k₁ cur T (k'.setCurenv c none) :=
        (hr.freed h.2.1 h.2.2 (.inl rfl) (envFree_freed hcall)).congr rfl rfl
      refine ⟨S.exit h hcall, hr'.granting fun he => ?_⟩
      rw [curenv_setCurenv, if_pos rfl] at he
      cases he
    receive := by
      rintro k bs ⟨h, rfl⟩ hno hcheck
      obtain ⟨l, hsp⟩ := h.2.1.spaces
      have hdata := hsp.copyOut (hcr3 (D.weaken h.1) (.inr (.inr (.inr (.inr hno))))) bs (hrx hno)
      exact ⟨S.receive bs h hno hcheck, (Removing.refl k cur T).congr rfl hdata.entry_eq⟩
    push := by
      rintro k esp bs ⟨h, hr⟩ hf hcheck
      obtain ⟨l, hsp⟩ := h.2.1.spaces
      have hdata := hsp.copyOut (hcr3 h.1 hf) bs (utfAddr_lt esp)
      exact ⟨S.push esp bs h hf hcheck, hr.congr rfl hdata.entry_eq⟩
    run := fun ⟨h, hg⟩ he hrun => ⟨S.run h he hrun, hg.ran (he.imp_right And.left) (envRun_ran hrun)⟩
    resume := by
      rintro k k' ⟨h, hr⟩ hrun
      exact ⟨S.resume h hrun,
        (hr.granting (hself h.1)).ran (.inr (S.current h)) (envRun_ran hrun)⟩
    halt := fun ⟨h, hg⟩ hn hcur hhalt => ⟨S.halt h hn hcur hhalt, hg.halted (schedHalt_halted hhalt)⟩ }

theorem Granting.schedYield (h : Granting k₁ c cur T k) (hy : schedYield k c = some k') :
    Confined k₁ cur T k' := by
  rcases schedYield_cases hy with ⟨e, he, hrun⟩ | ⟨-, -, hhalt⟩
  · exact h.ran (he.imp_right And.left) (envRun_ran hrun)
  · exact h.halted (schedHalt_halted hhalt)

theorem IdleList.head (h : IdleList k) (he : k.envFreeList = some e) : k.status e = .free := by
  obtain ⟨l, hchain, hfree⟩ := h
  rw [he] at hchain
  cases hchain with
  | cons => exact hfree _ List.mem_cons_self

def saved (k : Kernel) (cur : EnvIx) (tf : Trapframe) : Kernel :=
  k.setEnv cur { k.envs cur with envTf := tf }

def Reaches (k : Kernel) (c : Cpu) (cur : EnvIx) (tf : Trapframe) (e : EnvIx) : Prop :=
  k.status cur ≠ .dying ∧ SendsTo (saved k cur tf) c cur tf e

theorem saved_dirs (k : Kernel) (cur : EnvIx) (tf : Trapframe) : (saved k cur tf).dirs = k.dirs :=
  dirs_setEnv rfl

theorem saved_owned : Owned (saved k cur tf) cur e ↔ Owned k cur e := by
  rw [Owned, Owned, saved, envs_setEnv_field Env.envParentId k cur (by rfl),
    envs_setEnv_field Env.envId k cur (by rfl)]

theorem saved_status (e : EnvIx) : (saved k cur tf).status e = k.status e :=
  envs_setEnv_field Env.envStatus k cur (by rfl) e

theorem saved_granted {w : Word} (h : Granted (saved k cur tf) k' cur w) : Granted k k' cur w := by
  obtain ⟨p, hp, ⟨hfree, hun, hz⟩ | ⟨e, i, j, ho, ht, hU, hW⟩⟩ := h
  · rw [saved_dirs] at hun
    exact ⟨p, hp, .inl ⟨hfree, hun, hz⟩⟩
  · rw [saved_dirs] at ht hU hW
    exact ⟨p, hp, .inr ⟨e, i, j, saved_owned.1 ho, ht, hU, hW⟩⟩

theorem Sound.confined (h : Sound b k) (hd : Dispatched k) {inp : Inputs}
    (hg : Contained k (.trap c tf inp)) (hu : k.user c = some cur)
    (hst : Kern.step k (.trap c tf inp) = some k') :
    Confined (saved k cur tf) cur (Reaches k c cur tf) k' := by
  have hcur := user_curenv hu
  simp only [Kern.step] at hst
  split at hst
  · by_cases hdy : k.status cur = .dying
    · obtain ⟨k₁, hfree, hy⟩ := trapUser_dying hcur hdy hst
      have hr : Removing (saved k cur tf) cur (Reaches k c cur tf) k := by
        refine ⟨fun hf => ⟨by rw [saved_dirs]; rfl, ?_⟩, fun e i j => .inl (by rw [saved_dirs]; rfl)⟩
        exact (envs_setEnv_of_ne k _ (hf.ne (.inl rfl))).symm
      have hr₁ : Removing (saved k cur tf) cur (Reaches k c cur tf) (k₁.setCurenv c none) :=
        (hr.freed h hg.counted (.inl rfl) (envFree_freed hfree)).congr rfl rfl
      refine (hr₁.granting fun he => ?_).schedYield hy
      rw [curenv_setCurenv, if_pos rfl] at he
      cases he
    · have hi : Inside c k := hd.inside (user_awake hu) fun e he => by
        rw [hcur] at he
        cases he
        exact hdy
      have D := (dispatchRules k c cur tf).and fun k' => TransfersBelow k' c tf
      have H := authorityRules b (saved k cur tf) D (fun hP => hP.2) (hg.packets rfl)
        (fun hW _ => hW.1.cr3 hW.2.2) (fun hP he => hP.1.1.list.head he)
        fun hsend => (⟨hdy, hsend⟩ : Reaches k c cur tf _)
      exact (H.trapUser hcur hdy ⟨⟨⟨⟨hi.frame tf, (Since.refl c k).frame tf, hcur,
        hg.disciplined.frame tf⟩, (hg.transfers rfl).frame tf⟩, h.frame tf,
        hg.counted.congr rfl (dirs_setEnv rfl)⟩, rfl⟩ hst).2
  · cases hst

end

end Jos.Kern
