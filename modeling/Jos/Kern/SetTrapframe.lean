import Jos.Kern.PageFault

/-! `sys_env_set_trapframe`: what the caller, the target and the others are left with. -/

namespace Jos.Kern

open Lib Phys Kernel

inductive CallEnd
  | ret (k : Kernel) (r : Word)
  | left (out : FaultEnd)

def CallEnd.finish (c : Cpu) (cur : EnvIx) : CallEnd → Call
  | .ret k r => some (k, .ret r)
  | .left out => (out.finish c cur).map fun k => (k, .gone)

def destroyOther (k : Kernel) (c : Cpu) (e : EnvIx) : Option Kernel :=
  if k.status e = .running then some (k.setStatus e .dying) else envFree k c e

/-- RPL 3, no IOPL, interrupts on. -/
def Trapframe.forUser (tf : Trapframe) : Trapframe :=
  { tf with tfCs := tf.tfCs ||| 3, tfEflags := (tf.tfEflags &&& ~~~flIopl3) ||| flIF }

def installEnd (k : Kernel) (c : Cpu) (cur e : EnvIx) (tf : Word) (inp : Inputs) : CallEnd :=
  let (bs, fault) := copyIn k.toPhys (k.cpus c).cr3 68 tf
  let envTf := (k.envs e).envTf.overlay bs
  if fault then
    .left (pageFaultEnd (k.setEnv e { k.envs e with envTf }) c cur inp.ktf inp.cr2 false)
  else .ret (k.setEnv e { k.envs e with envTf := envTf.forUser }) 0

/-- `sys_env_set_trapframe`, up to the call that leaves the kernel if it does not come back. -/
def setTrapframeEnd (k : Kernel) (c : Cpu) (cur : EnvIx) (envid tf : Word) (inp : Inputs) : CallEnd :=
  match envid2env k c envid true with
  | none => .ret k (-eBadEnv)
  | some e =>
    match userMemCheck k.toPhys (k.envs e).envPgdir tf 68 pteU with
    | none => .left (.panic k)
    | some none => installEnd k c cur e tf inp
    | some (some _) =>
      if e = cur then .left (destroyEnd k c cur)
      else
        match destroyOther k c e with
        | none => .left (.panic k)
        | some k => installEnd k c cur e tf inp

section End

variable {k k' : Kernel} {c : Cpu} {cur e : EnvIx} {envid tf : Word} {inp : Inputs}

def setTrapframeCall (k : Kernel) (c : Cpu) (cur : EnvIx) (envid tf : Word) (inp : Inputs) : Call := do
  match ← sysEnvSetTrapframe k c envid tf with
  | (k, .fault) => return (← pageFaultHandler k c cur inp.ktf inp.cr2 false, .gone)
  | (k, r) => return (k, r)

theorem envDestroy_other (hcur : k.curenv c = some cur) (hne : e ≠ cur) :
    envDestroy k c e = (destroyOther k c e).map fun k' => (k', false) := by
  have hno : k.curenv c ≠ some e := fun h => hne (Option.some.inj (h.symm.trans hcur))
  rw [envDestroy, destroyOther]
  by_cases hst : k.status e = .running
  · rw [if_pos ⟨hst, hno⟩, if_pos hst]
    rfl
  · rw [if_neg fun h => hst h.1, if_neg hst]
    simp only [hno, if_false]
    cases envFree k c e with
    | none => rfl
    | some k' => rfl

theorem destroyOther_curenv (h : destroyOther k c e = some k') (c' : Cpu) :
    k'.curenv c' = k.curenv c' := by
  rw [destroyOther] at h
  split at h
  · cases h
    rfl
  · exact (envFree_freed h).curenv_eq c'

theorem installEnd_finish (hcur : k.curenv c = some cur) :
    (installEnd k c cur e tf inp).finish c cur =
      let (bs, fault) := copyIn k.toPhys (k.cpus c).cr3 68 tf
      let envTf := (k.envs e).envTf.overlay bs
      if fault then
        (pageFaultHandler (k.setEnv e { k.envs e with envTf }) c cur inp.ktf inp.cr2 false).map
          fun k => (k, .gone)
      else some (k.setEnv e { k.envs e with envTf := envTf.forUser }, .ret 0) := by
  rw [installEnd]
  generalize copyIn k.toPhys (k.cpus c).cr3 68 tf = res
  obtain ⟨bs, fault⟩ := res
  cases fault with
  | true =>
    simp only [if_true]
    rw [pageFaultHandler_eq (show (k.setEnv e _).curenv c = some cur from hcur)]
    rfl
  | false => rfl

theorem setTrapframeCall_eq (hcur : k.curenv c = some cur) :
    setTrapframeCall k c cur envid tf inp = (setTrapframeEnd k c cur envid tf inp).finish c cur := by
  have hperm : pteU ||| pteU = pteU := by decide
  rw [setTrapframeCall, sysEnvSetTrapframe, setTrapframeEnd]
  cases envid2env k c envid true with
  | none => rfl
  | some e =>
    have hinstall : ∀ k' : Kernel, k'.curenv c = some cur →
        ((do
          let (bs, fault) := copyIn k'.toPhys (k'.cpus c).cr3 68 tf
          let envTf := (k'.envs e).envTf.overlay bs
          if fault then return (k'.setEnv e { k'.envs e with envTf }, .fault)
          else
            let envTf := { envTf with
              tfCs := envTf.tfCs ||| 3, tfEflags := (envTf.tfEflags &&& ~~~flIopl3) ||| flIF }
            return (k'.setEnv e { k'.envs e with envTf }, .ret 0) : Call) >>= fun
          | (k, .fault) => do return (← pageFaultHandler k c cur inp.ktf inp.cr2 false, .gone)
          | (k, r) => return (k, r)) = (installEnd k' c cur e tf inp).finish c cur := by
      intro k' hk'
      rw [installEnd_finish hk']
      generalize copyIn k'.toPhys (k'.cpus c).cr3 68 tf = res
      obtain ⟨bs, fault⟩ := res
      cases fault with
      | false => rfl
      | true =>
        simp only [if_true, Option.bind_eq_bind, Option.pure_def, Option.bind_some]
        cases pageFaultHandler (k'.setEnv e { k'.envs e with envTf := (k'.envs e).envTf.overlay bs }) c
            cur inp.ktf inp.cr2 false with
        | none => rfl
        | some k'' => rfl
    simp only [userMemAssert, hperm]
    cases hcheck : userMemCheck k.toPhys (k.envs e).envPgdir tf 68 pteU with
    | none => rfl
    | some r =>
      cases r with
      | none => exact hinstall k hcur
      | some a =>
        simp only [Option.bind_eq_bind, Option.bind_some]
        by_cases hec : e = cur
        · subst hec
          rw [if_pos rfl, envDestroy_self hcur, CallEnd.finish]
          cases (destroyEnd k c e).finish c e with
          | none => rfl
          | some k' => rfl
        · rw [if_neg hec, envDestroy_other hcur hec]
          cases hother : destroyOther k c e with
          | none => rfl
          | some k' => exact hinstall k' ((destroyOther_curenv hother c).trans hcur)

end End

structure Installed (k : Kernel) (c : Cpu) (e : EnvIx) (tf : Word) (k' : Kernel) : Prop where
  live : k.status e ≠ .free
  status_eq : k'.status e = k.status e
  id_eq : (k'.envs e).envId = (k.envs e).envId
  frame : ∃ bs, copyIn k.toPhys (k.cpus c).cr3 68 tf = (bs, false) ∧
    (k'.envs e).envTf = (Trapframe.ofWords ((List.range 17).map (wordOfBytes bs))).forUser

structure CallerGone (k : Kernel) (cur : EnvIx) (k' : Kernel) : Prop where
  status_eq : k'.status cur = .free
  dir_eq : k'.dirs cur = none
  others : ∀ e, e ≠ cur → k'.envs e = k.envs e ∧
    entry k'.toPhys k'.dirs e = entry k.toPhys k.dirs e

def CallerReads (k : Kernel) (c : Cpu) (tf : Word) : Prop := Grants k.toPhys (k.cpus c).cr3 tf 68 pteU

structure Conforms (k : Kernel) (c : Cpu) (cur e : EnvIx) (tf : Word) (out : CallEnd) : Prop where
  returns : ∀ k', out = .ret k' 0 → Installed k c e tf k'
  refuses : ¬ CallerReads k c tf → ∃ k', out = .left (.destroyed k') ∧ CallerGone k cur k'

/-- The target can read at `tf`, or the frame is so near the end of the address space that the
check looks at no page. -/
def TargetReads (k : Kernel) (e : EnvIx) (tf : Word) : Prop :=
  2 ^ 32 ≤ tf.toNat + 68 + 4095 ∨ ∃ d, k.dirs e = some d ∧ Grants k.toPhys d tf 68 pteU

structure FaultsWell (k : Kernel) (c : Cpu) (cur e : EnvIx) (tf : Word) (inp : Inputs) : Prop where
  faults : ¬ Grants k.toPhys (k.cpus c).cr3 tf 68 0
  ends : ¬ Catches k cur (k.cpus c).cr3 inp.ktf.tfEsp
  same : e = cur ∨ (k.envs e).envTf.overlay (copyIn k.toPhys (k.cpus c).cr3 68 tf).1 = (k.envs e).envTf

/-- Where the call is right: for the caller itself when the check fails, and otherwise when the
caller can read the frame or comes to its end without it. -/
def SetFine (k : Kernel) (c : Cpu) (cur e : EnvIx) (tf : Word) (inp : Inputs) : Prop :=
  (TargetReads k e tf → CallerReads k c tf ∨ FaultsWell k c cur e tf inp) ∧
    (¬ TargetReads k e tf → e = cur)

section Copy

variable {m : Phys} {cr3 n : Nat} {va : Word}

theorem copyIn_ok_iff : (copyIn m cr3 n va).2 = false ↔ Grants m cr3 va n 0 := by
  induction n generalizing va with
  | zero => exact ⟨fun _ i hi => absurd hi (Nat.not_lt_zero _), fun _ => rfl⟩
  | succ n ih =>
    rw [copyIn]
    cases hload : mmuLoad m cr3 va 0 with
    | none =>
      refine ⟨fun hx => (by cases hx), fun hg => absurd (mmuLoad_eq_none.mp hload) ?_⟩
      have h0 := hg 0 (Nat.succ_pos n)
      rwa [BitVec.add_zero] at h0
    | some v =>
      have h0 : translate m cr3 va 0 ≠ none := fun h => by
        rw [mmuLoad_eq_none.mpr h] at hload
        cases hload
      refine ih.trans ⟨fun hg i hi => ?_, fun hg i hi => ?_⟩
      · cases i with
        | zero =>
          rw [BitVec.add_zero]
          exact h0
        | succ i =>
          rw [← add_one_add]
          exact hg i (Nat.lt_of_succ_lt_succ hi)
      · rw [add_one_add]
        exact hg (i + 1) (Nat.succ_lt_succ hi)

theorem length_copyIn (h : (copyIn m cr3 n va).2 = false) : (copyIn m cr3 n va).1.length = n := by
  induction n generalizing va with
  | zero => rfl
  | succ n ih =>
    rw [copyIn] at h ⊢
    cases hload : mmuLoad m cr3 va 0 with
    | none =>
      rw [hload] at h
      cases h
    | some v =>
      rw [hload] at h
      exact congrArg Nat.succ (ih h)

theorem Grants.kernel {perm : Word} (h : Grants m cr3 va n perm) : Grants m cr3 va n 0 := by
  intro i hi
  obtain ⟨p, hp⟩ := Option.ne_none_iff_exists'.mp (h i hi)
  rw [translate_zero hp]
  exact Option.some_ne_none p

theorem overlay_of_length (old : Trapframe) {bs : List Byte} (h : bs.length = 68) :
    old.overlay bs = .ofWords ((List.range 17).map (wordOfBytes bs)) := by
  have hdrop : old.words.drop 17 = [] := rfl
  rw [Trapframe.overlay, h, show 68 / 4 = 17 from rfl, hdrop, List.append_nil]

end Copy

section Walk

variable {b : Base} {m m' : Phys} {ds ds' : Dirs} {e : EnvIx} {d : Nat}

theorem Shape.dir_word (h : Shape b m ds) (hd : ds e = some d) (i : Pdx) :
    m.mem d i = (match table m ds e i with | some t => pdeWord t | none => 0) := by
  rcases h.pde hd i with h0 | ⟨t, ht, hw⟩
  · rw [table_eq hd, h0, present_zero]
  · rw [table_eq hd, hw, present_pdeWord (b.lt ht)]

theorem Shape.mmuWalk_congr (h : Shape b m ds) (h' : Shape b m' ds') (hd : ds e = some d)
    (hd' : ds' e = some d) (ht : table m' ds' e = table m ds e)
    (hent : entry m' ds' e = entry m ds e) (va : Word) : mmuWalk m' d va = mmuWalk m d va := by
  have hdir : ∀ i < 1024, m'.mem d i = m.mem d i := by
    intro i hi
    by_cases hlo : i < 955
    · have hw := h.dir_word hd ⟨i, hlo⟩
      have hw' := h'.dir_word hd' ⟨i, hlo⟩
      rw [ht] at hw'
      exact hw'.trans hw.symm
    · by_cases hu : i = 957
      · rw [hu, h.uvpt hd, h'.uvpt hd']
      · rw [h.kern hd (by omega) hi hu, h'.kern hd' (by omega) hi hu]
  have htab : m.mem d (pdx va) &&& pteP ≠ 0 →
      m'.mem (pgnum (m.mem d (pdx va))) (ptx va) = m.mem (pgnum (m.mem d (pdx va))) (ptx va) := by
    intro hp
    by_cases hva : va < utop
    · have htable : table m ds e (dirIx va hva) = some (pgnum (m.mem d (pdx va))) := by
        rw [table_eq hd, present_eq_some_iff]
        exact ⟨hp, rfl⟩
      have hold := entry_eq_mem htable (tabIx va)
      have hnew := entry_eq_mem ((congrFun ht _).trans htable) (tabIx va)
      rw [hent] at hnew
      exact hnew.symm.trans hold
    · have hlo : 955 ≤ pdx va := le_pdx (BitVec.not_lt.1 hva)
      by_cases hu : pdx va = 957
      · have hself : pgnum (m.mem d (pdx va)) = d := hu ▸ h.window_table hd
        rw [hself]
        exact hdir _ (ptx_lt va)
      · obtain ⟨t, -, hpg, htp⟩ := h.kern_table hd hlo (pdx_lt va) hu hp
        rw [hpg, h.frame htp, h'.frame htp]
  rw [mmuWalk, mmuWalk, hdir _ (pdx_lt va)]
  by_cases hp : m.mem d (pdx va) &&& pteP = 0
  · rw [if_pos hp, if_pos hp]
  · rw [if_neg hp, if_neg hp, htab hp]

end Walk

section Conform

variable {b : Base} {k k' : Kernel} {c : Cpu} {cur e : EnvIx} {envid tf : Word} {inp : Inputs}
  {d : Nat}

theorem Sound.freed_walk (h : Sound b k) (hc : Counted k) (hf : Freed k c e k') (hne : cur ≠ e)
    (hd : k.dirs cur = some d) (va : Word) : mmuWalk k'.toPhys d va = mmuWalk k.toPhys d va := by
  obtain ⟨l, hsp⟩ := h.spaces
  obtain ⟨d', hd', hvm⟩ := hf.vm
  obtain ⟨m', l', heq, hsp', -, htab, hent, -⟩ := hsp.envFreeVm hd' fun q => hc.le q
  rw [heq] at hvm
  obtain rfl : m' = k'.toPhys := Option.some.inj hvm
  refine hsp.shape.mmuWalk_congr hsp'.shape hd ?_ (htab hne) (hent hne) va
  rw [Function.update_of_ne hne]
  exact hd

theorem Grants.congr {m m' : Phys} {n : Nat} {va perm : Word}
    (h : ∀ a, mmuWalk m' d a = mmuWalk m d a) : Grants m' d va n perm ↔ Grants m d va n perm := by
  have ht : ∀ a, translate m' d a perm = translate m d a perm := by
    intro a
    rw [translate, translate, h]
  simp only [Grants, ht]

theorem Sound.targetCheck_iff (h : Sound b k) (hd : k.dirs e = some d) (tf : Word) :
    userMemCheck k.toPhys (some d) tf 68 pteU = some none ↔ TargetReads k e tf := by
  obtain ⟨l, hsp⟩ := h.spaces
  have h68 : (68 : Word).toNat = 68 := rfl
  have hud := hsp.shape.userDir hd
  by_cases hw : 2 ^ 32 ≤ tf.toNat + 68 + 4095
  · refine iff_of_true (userMemCheckLoop_done ?_) (.inl hw)
    have := tf.isLt
    rw [BitVec.lt_def, toNat_roundDown, toNat_roundUp, BitVec.toNat_add, h68]
    omega
  · refine (hsp.shape.check_iff hd (by decide) (by decide) (by rw [h68]; omega)
      fun a _ _ hp => hud.pde hp).trans ⟨fun hg => .inr ⟨d, hd, hg⟩, ?_⟩
    rintro (hwrap | ⟨d', hd', hg⟩)
    · exact absurd hwrap hw
    · rw [hd] at hd'
      cases hd'
      exact hg

theorem installEnd_ok (cur e : EnvIx) (inp : Inputs) (hg : Grants k.toPhys (k.cpus c).cr3 tf 68 0) :
    ∃ bs, copyIn k.toPhys (k.cpus c).cr3 68 tf = (bs, false) ∧
      installEnd k c cur e tf inp = .ret (k.setEnv e { k.envs e with
        envTf := (Trapframe.ofWords ((List.range 17).map (wordOfBytes bs))).forUser }) 0 := by
  have hok := copyIn_ok_iff.mpr hg
  have hlen := length_copyIn hok
  have hpair : copyIn k.toPhys (k.cpus c).cr3 68 tf =
      ((copyIn k.toPhys (k.cpus c).cr3 68 tf).1, false) := Prod.ext rfl hok
  refine ⟨_, hpair, ?_⟩
  rw [← overlay_of_length (k.envs e).envTf hlen, installEnd]
  simp only [hok, Bool.false_eq_true, if_false]

theorem installEnd_fault (hg : ¬ Grants k.toPhys (k.cpus c).cr3 tf 68 0) :
    installEnd k c cur e tf inp = .left (pageFaultEnd (k.setEnv e { k.envs e with
      envTf := (k.envs e).envTf.overlay (copyIn k.toPhys (k.cpus c).cr3 68 tf).1 }) c cur
        inp.ktf inp.cr2 false) := by
  have hfault : (copyIn k.toPhys (k.cpus c).cr3 68 tf).2 = true := by
    rw [← Bool.not_eq_false, copyIn_ok_iff]
    exact hg
  rw [installEnd]
  simp only [hfault, if_true]

theorem Sound.callerGone {k₁ : Kernel} (h : Sound b k₁) (hc : Counted k₁) (hf : Freed k₁ c cur k')
    (hp : k₁.toPhys = k.toPhys) (hdirs : k₁.dirs = k.dirs)
    (hsame : ∀ e, e ≠ cur → k₁.envs e = k.envs e) : CallerGone k cur (k'.setCurenv c none) where
  status_eq := hf.status_self
  dir_eq := congrArg Env.envPgdir hf.envs_self
  others e hne := by
    have hent := (h.freed (fun q => hc.le q) hf).2.2 hne
    rw [hp, hdirs] at hent
    exact ⟨(hf.envs_eq hne).trans (hsame e hne), hent⟩

theorem pageFaultEnd_destroyed {utf : Trapframe} {faultVa : Word} {user : Bool}
    (h : pageFaultEnd k c cur utf faultVa user = .destroyed k') :
    ∃ k₁, Freed k c cur k₁ ∧ k' = k₁.setCurenv c none := by
  have hdestroy : destroyEnd k c cur = .destroyed k' → ∃ k₁, Freed k c cur k₁ ∧ k' = k₁.setCurenv c none := by
    intro h
    rw [destroyEnd] at h
    split at h
    · next k₁ hfree =>
      exact ⟨k₁, envFree_freed hfree, (FaultEnd.destroyed.inj h).symm⟩
    · cases h
  by_cases hup : (k.envs cur).envPgfaultUpcall = 0
  · rw [pageFaultEnd_none hup] at h
    exact hdestroy h
  · cases hcheck : userMemCheck k.toPhys (k.envs cur).envPgdir (utfAddr utf.tfEsp) 52 (pteU ||| pteW) with
    | none =>
      rw [pageFaultEnd, if_neg (not_kernelTest _), if_pos hup] at h
      simp only [hcheck] at h
      cases h
    | some r =>
      rw [pageFaultEnd_check hup hcheck] at h
      cases r with
      | some a => exact hdestroy h
      | none =>
        simp only at h
        split at h
        · cases h
        · cases h

theorem catches_setEnv {tf' : Trapframe} {esp : Word} :
    Catches (k.setEnv e { k.envs e with envTf := tf' }) cur d esp ↔ Catches k cur d esp := by
  have hup : ((k.setEnv e { k.envs e with envTf := tf' }).envs cur).envPgfaultUpcall =
      (k.envs cur).envPgfaultUpcall := envs_setEnv_field Env.envPgfaultUpcall k e (by rfl) cur
  rw [Catches, Catches, hup]
  rfl

theorem Sound.conforms_install (h : Sound b k) (hc : Counted k) (hd : k.dirs cur = some (k.cpus c).cr3)
    (hlive : k.status e ≠ .free) : Conforms k c cur e tf (installEnd k c cur e tf inp) ↔
      CallerReads k c tf ∨ FaultsWell k c cur e tf inp := by
  by_cases hg : Grants k.toPhys (k.cpus c).cr3 tf 68 0
  · obtain ⟨bs, hcopy, hend⟩ := installEnd_ok cur e inp hg
    rw [hend]
    constructor
    · intro hconf
      by_contra hno
      obtain ⟨k', heq, -⟩ := hconf.refuses fun hr => hno (.inl hr)
      cases heq
    · intro hfine
      have hreads := hfine.resolve_right fun hf => hf.faults hg
      refine ⟨fun k' heq => ?_, fun hno => absurd hreads hno⟩
      obtain rfl := (CallEnd.ret.inj heq).1
      refine ⟨hlive, ?_, ?_, bs, hcopy, ?_⟩
      · rw [status, envs_setEnv_self]
        rfl
      · rw [envs_setEnv_self]
      · rw [envs_setEnv_self]
  · have hno : ¬ CallerReads k c tf := fun hr => hg hr.kernel
    rw [installEnd_fault hg]
    have h₁ := h.frame (e := e) ((k.envs e).envTf.overlay (copyIn k.toPhys (k.cpus c).cr3 68 tf).1)
    generalize htf : (k.envs e).envTf.overlay (copyIn k.toPhys (k.cpus c).cr3 68 tf).1 = tf' at h₁
    have hdirs : (k.setEnv e { k.envs e with envTf := tf' }).dirs = k.dirs := dirs_setEnv rfl
    have hc₁ : Counted (k.setEnv e { k.envs e with envTf := tf' }) := hc.congr rfl hdirs
    have hd₁ : (k.setEnv e { k.envs e with envTf := tf' }).dirs cur = some (k.cpus c).cr3 := by
      rw [hdirs]
      exact hd
    by_cases hcat : Catches k cur (k.cpus c).cr3 inp.ktf.tfEsp
    · obtain ⟨m', out, l, -, hend⟩ := h₁.pageFaultEnd_catches hd₁ inp.ktf inp.cr2 false
        (catches_setEnv.mpr hcat)
      rw [hend]
      refine iff_of_false (fun hconf => ?_) ?_
      · obtain ⟨k', heq, -⟩ := hconf.refuses hno
        cases heq
      · rintro (hr | hf)
        · exact hno hr
        · exact hf.ends hcat
    · obtain ⟨k₃, hfree, hend⟩ := h₁.pageFaultEnd_other hc₁ hd₁ inp.ktf inp.cr2 false
        fun hcat' => hcat (catches_setEnv.mp hcat')
      rw [hend]
      constructor
      · intro hconf
        obtain ⟨k', heq, hgone⟩ := hconf.refuses hno
        cases heq
        refine .inr ⟨hg, hcat, ?_⟩
        by_cases hec : e = cur
        · exact .inl hec
        · have henv := (hgone.others e hec).1
          rw [show (k₃.setCurenv c none).envs e = k₃.envs e from rfl, hfree.envs_eq hec,
            envs_setEnv_self] at henv
          exact .inr (htf.trans (congrArg Env.envTf henv))
      · intro hfine
        have hsame := (hfine.resolve_left hno).same
        refine ⟨fun k' heq => (by cases heq), fun _ => ⟨_, rfl, h₁.callerGone hc₁ hfree rfl hdirs ?_⟩⟩
        intro e' hne
        by_cases hee : e' = e
        · subst hee
          rw [envs_setEnv_self, ← htf, hsame.resolve_left hne]
        · exact envs_setEnv_of_ne k _ hee

theorem Sound.destroyOther_eq (h : Sound b k) (hc : Counted k) (hcur : k.curenv c = some cur)
    (hne : e ≠ cur) (hd : k.dirs cur = some (k.cpus c).cr3) (hde : k.dirs e = some d) :
    ∃ k', destroyOther k c e = some k' ∧ k'.status e ≠ k.status e ∧ k'.cpus c = k.cpus c ∧
      ∀ va, mmuWalk k'.toPhys (k.cpus c).cr3 va = mmuWalk k.toPhys (k.cpus c).cr3 va := by
  rw [destroyOther]
  by_cases hst : k.status e = .running
  · refine ⟨_, if_pos hst, ?_, rfl, fun _ => rfl⟩
    rw [status_setStatus, if_pos rfl, hst]
    decide
  · obtain ⟨k', hk'⟩ := h.envFree_some (c := c) hc hde
    have hf := envFree_freed hk'
    refine ⟨k', by rw [if_neg hst, hk'], ?_, ?_, h.freed_walk hc hf hne.symm hd⟩
    · rw [hf.status_self]
      intro hfree
      rw [h.free hfree.symm] at hde
      cases hde
    · have hno : k.curenv c ≠ some e := fun h => hne (Option.some.inj (h.symm.trans hcur))
      have hcr3 := hf.cr3_self
      rw [if_neg hno] at hcr3
      have hst := hf.cpuStatus_eq c
      have henv : (k'.cpus c).cpuEnv = (k.cpus c).cpuEnv := hf.curenv_eq c
      cases hk : k.cpus c with
      | mk st env cr =>
        cases hk₁ : k'.cpus c with
        | mk st₁ env₁ cr₁ =>
          rw [hk, hk₁] at hcr3 hst henv
          simp only at hcr3 hst henv
          rw [hcr3, hst, henv]

theorem not_conforms_other {k₁ : Kernel} (hne : e ≠ cur) (hst : k₁.status e ≠ k.status e)
    (hcpu : k₁.cpus c = k.cpus c)
    (hwalk : ∀ va, mmuWalk k₁.toPhys (k.cpus c).cr3 va = mmuWalk k.toPhys (k.cpus c).cr3 va) :
    ¬ Conforms k c cur e tf (installEnd k₁ c cur e tf inp) := by
  intro hconf
  by_cases hg : Grants k₁.toPhys (k₁.cpus c).cr3 tf 68 0
  · obtain ⟨bs, -, hend⟩ := installEnd_ok cur e inp hg
    have hstatus := (hconf.returns _ hend).status_eq
    rw [status, envs_setEnv_self] at hstatus
    exact hst hstatus
  · have hno : ¬ CallerReads k c tf := by
      intro hr
      rw [hcpu] at hg
      exact hg ((Grants.congr hwalk).mpr hr.kernel)
    obtain ⟨k', heq, hgone⟩ := hconf.refuses hno
    rw [installEnd_fault hg] at heq
    obtain ⟨k₃, hfree, rfl⟩ := pageFaultEnd_destroyed (CallEnd.left.inj heq)
    have henv := (hgone.others e hne).1
    rw [show (k₃.setCurenv c none).envs e = k₃.envs e from rfl, hfree.envs_eq hne,
      envs_setEnv_self] at henv
    have hstatus := congrArg Env.envStatus henv
    exact hst hstatus

/-- When `sys_env_set_trapframe` leaves the caller, the target and the others as it should. -/
theorem setTrapframe_conforms_iff (h : Sound b k) (hc : Counted k) (hl : IdleList k)
    (hcur : k.curenv c = some cur) (hd : k.dirs cur = some (k.cpus c).cr3)
    (he : envid2env k c envid true = some e) (tf : Word) (inp : Inputs) :
    setTrapframeCall k c cur envid tf inp = (setTrapframeEnd k c cur envid tf inp).finish c cur ∧
    (Conforms k c cur e tf (setTrapframeEnd k c cur envid tf inp) ↔ SetFine k c cur e tf inp) := by
  refine ⟨setTrapframeCall_eq hcur, ?_⟩
  have hself : ∀ e', k.curenv c = some e' → k.status e' ≠ .free := by
    intro e' he' hfree
    rw [hcur] at he'
    cases he'
    rw [h.free hfree] at hd
    cases hd
  have hlive := envid2env_status he hself
  obtain ⟨d, hde⟩ := h.dir_of_live hl hlive
  obtain ⟨l, hsp⟩ := h.spaces
  obtain ⟨r, hr⟩ := hsp.shape.userMemCheck_some hde tf 68 pteU
  have hpg : (k.envs e).envPgdir = some d := hde
  have htarget := h.targetCheck_iff hde tf
  rw [setTrapframeEnd, he]
  simp only [hpg, hr]
  cases r with
  | none =>
    have hyes := htarget.mp hr
    refine (h.conforms_install hc hd hlive).trans ⟨fun hfine => ⟨fun _ => hfine, ?_⟩, fun hfine => hfine.1 hyes⟩
    exact fun hno => absurd hyes hno
  | some a =>
    have hno : ¬ TargetReads k e tf := by
      intro hyes
      rw [htarget.mpr hyes] at hr
      cases hr
    have hfine : SetFine k c cur e tf inp ↔ e = cur :=
      ⟨fun hf => hf.2 hno, fun hec => ⟨fun hyes => absurd hyes hno, fun _ => hec⟩⟩
    rw [hfine]
    by_cases hec : e = cur
    · subst hec
      obtain ⟨k', hfree, hend⟩ := h.destroyEnd_eq (c := c) hc hd
      rw [if_pos rfl, hend]
      refine iff_of_true ⟨fun k' heq => (nomatch heq), fun _ => ⟨_, rfl, ?_⟩⟩ rfl
      exact h.callerGone hc hfree rfl rfl fun _ _ => rfl
    · obtain ⟨k', hk', hst, hcpu, hwalk⟩ := h.destroyOther_eq hc hcur hec hd hde
      rw [if_neg hec]
      simp only [hk']
      exact iff_of_false (not_conforms_other hec hst hcpu hwalk) hec

theorem setTrapframe_conforms_demo : ∃ k₀ k, Booted demo (List.replicate 1 idleProg) k₀ ∧
    step k₀ (.start bootcpu) = some k ∧
      Conforms k bootcpu env0 env0 0x800000 (setTrapframeEnd k bootcpu env0 0 0x800000 noInputs) := by
  obtain ⟨b, k₀, k, hb, hst, hs, hc, hd, hcur, -⟩ := demo_running
  have he : envid2env k bootcpu 0 true = some env0 := by rw [envid2env, if_pos rfl, hcur]
  refine ⟨k₀, k, hb, hst, (setTrapframe_conforms_iff hs hc hd.list hcur (hd.cr3 hcur) he _ _).2.mpr
    ⟨fun ht => .inl ?_, fun _ => rfl⟩⟩
  obtain ⟨d, hde, hg⟩ := ht.resolve_left (by decide)
  rw [hd.cr3 hcur] at hde
  cases hde
  exact hg

/-- With a pointer that neither can read, a parent destroys its child, and not itself. -/
theorem setTrapframe_destroys_child : ∃ k₀ k k', Booted demo (List.replicate 1 idleProg) k₀ ∧
    Run step Contained k₀ [.start bootcpu, call bootcpu 7 0 0 0 0 0] k ∧
    ¬ CallerReads k bootcpu kernbase ∧ destroyOther k bootcpu env1 = some k' ∧
    k'.status env1 = .free ∧
    setTrapframeEnd k bootcpu env0 envid1 kernbase noInputs =
      installEnd k' bootcpu env0 env1 kernbase noInputs ∧
    ¬ Conforms k bootcpu env0 env1 kernbase
      (setTrapframeEnd k bootcpu env0 envid1 kernbase noInputs) := by
  obtain ⟨k₀, s, m, l₀, hm, l, hb, hs, hl⟩ := demo_booted (n := 1) (by decide)
  cases l with
  | nil => cases hl
  | cons pp l =>
    obtain ⟨k₁, k, h₁, hc₁, h₂, hf⟩ := hs.family
    have hr : Run step Contained k₀ [.start bootcpu, call bootcpu 7 0 0 0 0 0] k :=
      .snoc (.single (.start hs.counted) h₁) (.call hc₁ (by decide)) h₂
    obtain ⟨hsound, hdisp⟩ := Contained.run hs.sound hs.dispatched hr
    have hcur := user_curenv hf.user
    have hdir := hdisp.cr3 hcur
    have hchild := hf.child (by decide)
    obtain ⟨d, hde⟩ := hf.dir1
    obtain ⟨l', hsp⟩ := hsound.spaces
    have hnone : ∀ {e d}, k.dirs e = some d → ¬ Grants k.toPhys d kernbase 68 pteU := by
      intro e d hd hg
      exact hg 0 (by decide) ((hsp.shape.userDir hd).translate_kernel (by decide))
    have hno : ¬ TargetReads k env1 kernbase := by
      rintro (hw | ⟨d', hd', hg⟩)
      · exact absurd hw (by decide)
      · exact hnone hd' hg
    have hst : k.status env1 ≠ .running := by
      rw [hf.status1]
      decide
    obtain ⟨k', hother, hchanged, hcpu, hwalk⟩ :=
      hsound.destroyOther_eq hf.counted hcur (by decide : env1 ≠ env0) hdir hde
    have hfree : envFree k bootcpu env1 = some k' := by rw [← hother, destroyOther, if_neg hst]
    obtain ⟨r, hcheck⟩ := hsp.shape.userMemCheck_some hde kernbase 68 pteU
    have hend : setTrapframeEnd k bootcpu env0 envid1 kernbase noInputs =
        installEnd k' bootcpu env0 env1 kernbase noInputs := by
      rw [setTrapframeEnd, hchild]
      simp only [show (k.envs env1).envPgdir = some d from hde, hcheck]
      cases r with
      | none => exact absurd ((hsound.targetCheck_iff hde kernbase).mp hcheck) hno
      | some a =>
        rw [if_neg (by decide)]
        simp only [hother]
    refine ⟨k₀, k, k', hb, hr, hnone hdir, hother, (envFree_freed hfree).status_self, hend, ?_⟩
    rw [hend]
    exact not_conforms_other (by decide) hchanged hcpu hwalk

end Conform

end Jos.Kern
