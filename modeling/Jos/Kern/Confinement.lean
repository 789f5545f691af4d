import Jos.Kern.Authority
import Jos.Kern.Orphan

/-! Authority is confined, and pages go only where their holders send them. -/

namespace Jos.Kern

open Lib Phys Kernel

/-- What a message may change in the environment it is sent to. -/
structure Messaged (k k' : Kernel) (e : EnvIx) : Prop where
  env : ∃ recving value sender perm st eax, k'.envs e = { k.envs e with
    envIpcRecving := recving
    envIpcValue := value
    envIpcFrom := sender
    envIpcPerm := perm
    envStatus := st
    envTf := { (k.envs e).envTf with tfRegs := { (k.envs e).envTf.tfRegs with regEax := eax } } }
  entry_eq : ∀ i j, ¬(i.val = pdx (k.envs e).envIpcDstva ∧ j.val = ptx (k.envs e).envIpcDstva) →
    entry k'.toPhys k'.dirs e i j = entry k.toPhys k.dirs e i j

section

variable {b : Base} {k k' : Kernel} {c : Cpu} {cur e : EnvIx} {tf : Trapframe} {inp : Inputs}

theorem envRun_envs {e' : EnvIx} (h : envRun k c e = some k') (hne : e' ≠ e)
    (hcur : k.curenv c ≠ some e') : k'.envs e' = k.envs e' := by
  rw [envRun] at h
  obtain ⟨d, -, h⟩ := Option.bind_eq_some_iff.1 h
  cases h
  refine (envs_setEnv_of_ne ((demote k c).setCurenv c (some e)) _ hne).trans ?_
  change (demote k c).envs e' = k.envs e'
  rw [demote_envs, demote_status, if_neg fun hc => hcur hc.1]
  rfl

theorem ipcDeliver_self (k : Kernel) (cur e : EnvIx) (value : Word) :
    (ipcDeliver k cur e value).envs e = { k.envs e with
      envIpcFrom := (k.envs cur).envId
      envIpcRecving := false
      envIpcValue := value
      envStatus := .runnable
      envTf := { (k.envs e).envTf with tfRegs := { (k.envs e).envTf.tfRegs with regEax := 0 } } } :=
  envs_setEnv_self _ _ _

theorem ipcDeliver_of_ne {e' : EnvIx} (k : Kernel) (cur : EnvIx) (value : Word) (h : e' ≠ e) :
    (ipcDeliver k cur e value).envs e' = k.envs e' :=
  envs_setEnv_of_ne _ _ h

theorem ipcDeliver_entry (k : Kernel) (cur e : EnvIx) (value : Word) :
    entry (ipcDeliver k cur e value).toPhys (ipcDeliver k cur e value).dirs =
      entry k.toPhys k.dirs := by
  have hd : (ipcDeliver k cur e value).dirs = k.dirs := dirs_setEnv rfl
  rw [hd]
  rfl

theorem Sound.messaged (hs : Sound b k) (hc : Counted k) (hbelow : TransfersBelow k c tf)
    (hno : tf.sysno = some .ipcTrySend) (he : envid2env k c tf.tfRegs.regEdx false = some e)
    (h : sysIpcTrySend k c cur tf.tfRegs.regEdx tf.tfRegs.regEcx tf.tfRegs.regEbx
      tf.tfRegs.regEdi = some (k', .ret 0)) :
    Messaged k k' e ∧ (∀ {e'}, e' ≠ e → k'.envs e' = k.envs e') ∧ k'.cpus = k.cpus := by
  cases sysIpcTrySend_step h with
  | refused hr =>
    rw [slt_zero] at hr
    cases hr
  | plain he' =>
    obtain rfl := Option.some.inj (he.symm.trans he')
    refine ⟨⟨⟨_, _, _, (k.envs e).envIpcPerm, _, _, ipcDeliver_self ..⟩, fun i j _ => ?_⟩,
      ipcDeliver_of_ne k cur _, rfl⟩
    rw [ipcDeliver_entry]
  | dropped he' =>
    obtain rfl := Option.some.inj (he.symm.trans he')
    refine ⟨⟨⟨_, _, _, (k.envs e).envIpcPerm, _, _, ipcDeliver_self ..⟩, fun i j _ => ?_⟩,
      ipcDeliver_of_ne k cur _, rfl⟩
    rw [ipcDeliver_entry]
  | @mapped e' pp m r he' hrecv _ hpage _ hins hr =>
    obtain rfl := Option.some.inj (he.symm.trans he')
    have hmaps := (hs.ipcInsert hc hpage (hbelow hno e he hrecv (ipcPage_some hpage).1) hins).2 hr
    set k₁ := Kernel.setEnv { k with toPhys := m } e { k.envs e with envIpcPerm := tf.tfRegs.regEdi }
    have hself : k₁.envs e = { k.envs e with envIpcPerm := tf.tfRegs.regEdi } :=
      envs_setEnv_self _ _ _
    have hdirs : k₁.dirs = k.dirs := dirs_setEnv (k := { k with toPhys := m }) rfl
    refine ⟨⟨⟨_, _, _, tf.tfRegs.regEdi, _, _, (ipcDeliver_self ..).trans (by rw [hself])⟩, ?_⟩, ?_, rfl⟩
    · intro i j hij
      rw [ipcDeliver_entry, hdirs]
      refine (hmaps e i j).trans (if_neg ?_)
      rintro ⟨-, rfl, rfl⟩
      exact hij ⟨rfl, rfl⟩
    · intro e' hne
      rw [ipcDeliver_of_ne _ _ _ hne]
      exact envs_setEnv_of_ne _ _ hne

theorem Trapframe.sysno_some {s : Sysno} (h : tf.sysno = some s) :
    tf.tfTrapno = tSyscall ∧ Sysno.ofWord tf.tfRegs.regEax = some s := by
  rw [Trapframe.sysno] at h
  split at h
  · next htrap => exact ⟨htrap, h⟩
  · cases h

theorem Sound.reached (h : Sound b k) (hd : Dispatched k) (hg : Contained k (.trap c tf inp))
    (hu : k.user c = some cur) (hst : Kern.step k (.trap c tf inp) = some k')
    (hr : Reaches k c cur tf e) (hne : e ≠ cur) : Messaged k k' e := by
  obtain ⟨hdy, hno, he, k₂, hcall⟩ := hr
  obtain ⟨htrap, hsys⟩ := Trapframe.sysno_some hno
  have hcur := user_curenv hu
  have hrun : k.status cur = .running := (hd.current hcur).resolve_right hdy
  have hcs : tf.tfCs &&& 3 = 3 := by
    simp only [Kern.step] at hst
    split at hst
    · next hcs => exact hcs.2
    · cases hst
  have hs : Sound b (saved k cur tf) := h.frame tf
  obtain ⟨hmsg, hother, hcpus⟩ := hs.messaged (hg.counted.congr rfl (saved_dirs k cur tf))
    ((hg.transfers rfl).frame tf) hno he hcall
  obtain ⟨⟨recving, value, sender, perm, st, eax, henv⟩, hent⟩ := hmsg
  have hself : (saved k cur tf).envs e = k.envs e := envs_setEnv_of_ne _ _ hne
  rw [hself] at henv hent
  rw [step_syscall_eq hu hdy hcs htrap] at hst
  simp only [syscall, hsys] at hst
  change (sysIpcTrySend (saved k cur tf) c cur _ _ _ _).bind _ = some k' at hst
  rw [hcall, Option.bind_some] at hst
  simp only [callReturn] at hst
  generalize htf : { (k₂.envs cur).envTf with
    tfRegs := { (k₂.envs cur).envTf.tfRegs with regEax := 0 } } = tf' at hst
  set k₃ := k₂.setEnv cur { k₂.envs cur with envTf := tf' }
  have hdirs₃ : k₃.dirs = k₂.dirs := dirs_setEnv rfl
  have hcur₃ : k₃.curenv c = some cur := (congrArg (fun f => (f c).cpuEnv) hcpus).trans hcur
  have hrun₃ : k₃.status cur = .running := by
    rw [status, envs_setEnv_self]
    change (k₂.envs cur).envStatus = .running
    rw [hother hne.symm]
    exact (saved_status cur).trans hrun
  have hret : envRun k₃ c cur = some k' := by
    rw [trapReturn, hcur₃] at hst
    simpa only [if_pos hrun₃] using hst
  have hran := envRun_ran hret
  refine ⟨⟨recving, value, sender, perm, st, eax, ?_⟩, fun i j hij => ?_⟩
  · rw [envRun_envs hret hne (by rw [hcur₃]; exact fun h => hne (Option.some.inj h).symm)]
    exact (envs_setEnv_of_ne _ _ hne).trans henv
  · rw [hran.toPhys_eq, hran.dirs_eq, hdirs₃]
    refine (hent i j hij).trans ?_
    rw [saved_dirs]
    rfl

end

theorem Starting.transfer {b : Base} {k₀ : Kernel} {l : List Nat} (h : Starting demo b k₀ 2 l)
    (hl : 2000 ≤ l.length) (value : Word) :
    ∃ k₁ k₂ k₃, step k₀ (.start bootcpu) = some k₁ ∧
      step k₁ (call bootcpu 13 0x400000 0 0 0 0) = some k₂ ∧
      step k₂ (call bootcpu 12 envid0 value stackVa (pteU ||| pteP) 0) = some k₃ ∧ Counted k₁ ∧
      Waiting b 0x400000 k₂ l := by
  obtain ⟨k₁, k₂, h₁, hc₁, h₂, w⟩ := h.waiting 0x400000 (by decide)
  obtain ⟨pp, -, -, -, htgt, hpage⟩ := w.page
  obtain ⟨d, hd⟩ := w.dir0
  have hlt : (0x400000 : Word) < utop := by decide
  have hok : permOk (pteU ||| pteP) := ⟨by decide, by decide, by decide⟩
  rcases w.spaces.share hd hlt htgt hok w.counted with ⟨rfl, -⟩ | ⟨m, l', hins, -, -⟩
  · cases hl
  · rw [← hd] at hins
    obtain ⟨k₃, h₃, -⟩ := w.send value hpage (.inl ⟨by decide, hins⟩)
    exact ⟨k₁, k₂, k₃, h₁, h₂, h₃, hc₁, w⟩

/-- What a trap of `cur` on CPU `c` does to the environments that are not its own. -/
structure Authority (k : Kernel) (c : Cpu) (cur : EnvIx) (tf : Trapframe) (k' : Kernel) : Prop where
  undisturbed : ∀ {e}, k.status e ≠ .free → ¬Owned k cur e → ¬Reaches k c cur tf e →
    Undisturbed k k' e
  messaged : ∀ {e}, e ≠ cur → Reaches k c cur tf e → Messaged k k' e

theorem authority_of_contained {M : Machine} {progs : List (Image × EnvType)} {k₀ k k' : Kernel}
    {es : List Event} {c : Cpu} {cur : EnvIx} {tf : Trapframe} {inp : Inputs}
    (hb : Booted M progs k₀) (hr : Run step Contained k₀ es k) (hg : Contained k (.trap c tf inp))
    (hu : k.user c = some cur) (hst : step k (.trap c tf inp) = some k') :
    Authority k c cur tf k' := by
  obtain ⟨s, m, l₀, hm, l, hs, -⟩ := hb.starting
  obtain ⟨hsound, hd⟩ := Contained.run hs.sound hs.dispatched hr
  have hconf := hsound.confined hd hg hu hst
  refine ⟨fun {e} hlive hown hreach => ?_, fun hne he => hsound.reached hd hg hu hst he hne⟩
  have hne : e ≠ cur := fun h => hown (.inl h)
  have hf : Foreign (saved k cur tf) cur (Reaches k c cur tf) e :=
    ⟨by rwa [saved_status], fun ho => hown (saved_owned.1 ho), hreach⟩
  obtain ⟨hentry, halike, hstatus⟩ := hconf.undisturbed hf
  rw [saved_dirs] at hentry
  rw [show (saved k cur tf).envs e = k.envs e from envs_setEnv_of_ne _ _ hne] at halike
  rw [saved_status] at hstatus
  exact ⟨hentry, halike, hstatus⟩

theorem authority_of_send : ∃ k₀ k k', Booted demo (List.replicate 2 idleProg) k₀ ∧
    Run step Contained k₀ [.start bootcpu, call bootcpu 13 0x400000 0 0 0 0] k ∧
    step k (call bootcpu 12 envid0 42 stackVa (pteU ||| pteP) 0) = some k' ∧
    Authority k bootcpu env1 (callFrame 12 envid0 42 stackVa (pteU ||| pteP) 0) k' := by
  obtain ⟨k₀, s, m, l₀, hm, l, hb, hs, hl⟩ := demo_booted (n := 2) (by decide)
  obtain ⟨k₁, k₂, k₃, h₁, h₂, h₃, hc₁, w⟩ := hs.transfer hl 42
  have hr : Run step Contained k₀ [.start bootcpu, call bootcpu 13 0x400000 0 0 0 0] k₂ :=
    .snoc (.single (.start hs.counted) h₁) (.call hc₁ (by decide)) h₂
  exact ⟨k₀, k₂, k₃, hb, hr, h₃, authority_of_contained hb hr (w.contained (by decide)) w.user_eq h₃⟩

/-- Steps that keep the counters right and send pages to addresses of user code other than 0. -/
def Mannered (k : Kernel) (ev : Event) : Prop :=
  Counted k ∧ ∀ {c tf inp}, ev = .trap c tf inp → tf.sysno = some .ipcTrySend →
    ∀ e, envid2env k c tf.tfRegs.regEdx false = some e → (k.envs e).envIpcRecving = true →
      tf.tfRegs.regEbx < utop → (k.envs e).envIpcDstva ≠ 0 ∧ (k.envs e).envIpcDstva < utop

theorem Mannered.call {k : Kernel} {c : Cpu} {no a1 a2 a3 a4 a5 : Word} (h : Counted k)
    (hno : Sysno.ofWord no ≠ some .ipcTrySend) : Mannered k (call c no a1 a2 a3 a4 a5) := by
  refine ⟨h, ?_⟩
  rintro c tf inp ⟨⟩ hs
  rw [sysno_callFrame] at hs
  exact absurd hs hno

/-- `sys_exofork` overwrites a live environment that the caller has nothing to do with. -/
theorem authority_fails : ∃ k₀ k k', Booted demo (List.replicate 2 idleProg) k₀ ∧
    Run step Mannered k₀ (destroyTwice ++ [call cpu1 8 0 4 0 0 0]) k ∧
    Mannered k (call cpu1 7 0 0 0 0 0) ∧ k.user cpu1 = some env1 ∧
    step k (call cpu1 7 0 0 0 0 0) = some k' ∧
    ¬Authority k cpu1 env1 (callFrame 7 0 0 0 0 0) k' := by
  obtain ⟨k₀, s, m, l₀, hm, l, hb, hs, hl⟩ := demo_booted (n := 2) (by decide)
  obtain ⟨p, q, l, rfl⟩ : ∃ p q l', l = p :: q :: l' := by
    match l, hl with
    | p :: q :: l, _ => exact ⟨p, q, l, rfl⟩
  obtain ⟨k₁, d, hr, o⟩ := hs.orphan (G := Mannered) (fun h => ⟨h, by rintro _ _ _ ⟨⟩⟩) .call
  obtain ⟨k₂, h₂, w⟩ := o.revenant
  obtain ⟨k₃, h₃, hpar⟩ := w.fork
  have hu : k₂.user cpu1 = some env1 := w.user_eq (c := cpu1) (by decide)
  refine ⟨k₀, k₂, k₃, hb, .snoc hr (.call o.counted (by decide)) h₂, .call w.counted (by decide), hu,
    h₃, fun ha => ?_⟩
  have hlive : k₂.status env2 ≠ .free := by
    rw [w.status_eq]
    decide
  have hown : ¬Owned k₂ env1 env2 := by
    rw [Owned, w.child, w.id (by decide)]
    decide
  have hreach : ¬Reaches k₂ cpu1 env1 (callFrame 7 0 0 0 0 0) env2 := by
    rintro ⟨-, hno, -⟩
    rw [sysno_callFrame] at hno
    exact absurd hno (by decide)
  obtain ⟨_, _, _, halike⟩ := (ha.undisturbed hlive hown hreach).alike
  rw [halike] at hpar
  have : envid0 = envid1 := w.child.symm.trans hpar
  exact absurd this (by decide)

def Writable (k : Kernel) (e : EnvIx) (p : Nat) : Prop :=
  ∃ i j, target k.toPhys k.dirs (.pte e i j) = some p ∧
    entry k.toPhys k.dirs e i j &&& pteU ≠ 0 ∧ entry k.toPhys k.dirs e i j &&& pteW ≠ 0

/-- A step that hands out pages only as `sys_page_alloc` or from what the caller holds, and
writes user memory only where the writer may. -/
structure ByGrant (k : Kernel) (ev : Event) (k' : Kernel) : Prop where
  mapped : ∀ {e i j}, entry k'.toPhys k'.dirs e i j ≠ entry k.toPhys k.dirs e i j →
    entry k'.toPhys k'.dirs e i j ≠ 0 → ∃ c tf inp cur, ev = .trap c tf inp ∧
      k.user c = some cur ∧ Granted k k' cur (entry k'.toPhys k'.dirs e i j)
  written : ∀ {c va v cur p}, ev = .store c va v → k.user c = some cur → k'.mem p ≠ k.mem p →
    Writable k cur p

section

variable {b : Base} {k k' : Kernel} {ev : Event} {e : EnvIx} {p : Nat}

theorem ByGrant.of_eq (hp : k'.toPhys = k.toPhys) (hd : k'.dirs = k.dirs) : ByGrant k ev k' := by
  refine ⟨fun hne => absurd ?_ hne, fun _ _ hne => absurd ?_ hne⟩
  · rw [hp, hd]
  · rw [hp]

theorem ByGrant.schedYield {k₁ : Kernel} {c : Cpu} (hp : k₁.toPhys = k.toPhys)
    (hd : k₁.dirs = k.dirs) (hy : schedYield k₁ c = some k') : ByGrant k ev k' := by
  rcases schedYield_cases hy with ⟨e, -, hrun⟩ | ⟨-, -, hhalt⟩
  · have hr := envRun_ran hrun
    exact .of_eq (hr.toPhys_eq.trans hp) (hr.dirs_eq.trans hd)
  · have hh := schedHalt_halted hhalt
    refine .of_eq (hh.toPhys_eq.trans hp) (Eq.trans ?_ hd)
    funext e
    rw [dirs, hh.envs_eq, dirs]

theorem ByGrant.trapHalted {c : Cpu} {trapno : Word} (h : trapHalted k c trapno = some k') :
    ByGrant k ev k' := by
  have hp : (k.setCpu c { k.cpus c with cpuStatus := .started }).toPhys = k.toPhys := rfl
  have hd : (k.setCpu c { k.cpus c with cpuStatus := .started }).dirs = k.dirs := rfl
  simp only [Kern.trapHalted] at h
  generalize k.setCpu c { k.cpus c with cpuStatus := .started } = k₁ at hp hd h
  split at h
  · obtain ⟨k₂, htick, h⟩ := Option.bind_eq_some_iff.1 h
    simp only [timeTick] at htick
    split at htick
    · cases htick
    · cases htick
      have hp₂ : ({ k₁ with ticks := k₁.ticks + 1 } : Kernel).toPhys = k.toPhys := hp
      have hd₂ : ({ k₁ with ticks := k₁.ticks + 1 } : Kernel).dirs = k.dirs := hd
      exact schedYield hp₂ hd₂ h
  · split at h
    · rcases trapReturn_cases h with ⟨e, -, -, hrun⟩ | hy
      · have hr := envRun_ran hrun
        exact .of_eq (hr.toPhys_eq.trans hp) (hr.dirs_eq.trans hd)
      · exact schedYield hp hd hy
    · cases h

theorem Sound.byGrant_store (h : Sound b k) (hd : Dispatched k) {c : Cpu} {va : Word} {v : Byte}
    (hst : Kern.step k (.store c va v) = some k') : ByGrant k (.store c va v) k' := by
  obtain ⟨l, hsp⟩ := h.spaces
  simp only [Kern.step] at hst
  split at hst
  · next hu =>
    obtain ⟨m, hm, rfl⟩ := Option.map_eq_some_iff.1 hst
    obtain ⟨cur, hu⟩ := Option.ne_none_iff_exists'.1 hu
    have hdir := hd.cr3 (user_curenv hu)
    obtain ⟨hdata, hva⟩ := hsp.mmuStore hdir (by decide) (.inr (by decide)) hm
    refine ⟨fun hne => absurd ?_ hne, ?_⟩
    · exact congrFun (congrFun (congrFun hdata.entry_eq _) _) _
    · rintro c va v cur' p ⟨⟩ hu' hne
      rw [hu] at hu'
      cases hu'
      obtain ⟨q, htr, hm⟩ := Option.map_eq_some_iff.1 hm
      obtain ⟨htgt, hbits⟩ := translate_user hdir hva htr
      have hq : p = q := by
        by_contra hpq
        apply hne
        rw [← hm]
        split
        · exact mem_setPage_of_ne _ _ hpq
        · rfl
      subst hq
      refine ⟨_, _, htgt, ?_, ?_⟩
      · rw [and_eq_of_and_eq hbits (by decide : (pteU ||| pteW) &&& pteU = pteU)]
        decide
      · rw [and_eq_of_and_eq hbits (by decide : (pteU ||| pteW) &&& pteW = pteW)]
        decide
  · cases hst

theorem Sound.byGrant_trap (h : Sound b k) (hd : Dispatched k) {c : Cpu} {tf : Trapframe}
    {inp : Inputs} (hg : Contained k (.trap c tf inp))
    (hst : Kern.step k (.trap c tf inp) = some k') : ByGrant k (.trap c tf inp) k' := by
  have hu : k.user c ≠ none := by
    simp only [Kern.step] at hst
    split at hst
    · next hu => exact hu.1
    · cases hst
  obtain ⟨cur, hu⟩ := Option.ne_none_iff_exists'.1 hu
  refine ⟨fun {e i j} hne hnz => ⟨c, tf, inp, cur, rfl, hu, ?_⟩, by rintro _ _ _ _ _ ⟨⟩⟩
  have hgrant := (h.confined hd hg hu hst).granted e i j
  rw [saved_dirs] at hgrant
  exact saved_granted ((hgrant.resolve_left hne).resolve_left hnz)

theorem Sound.byGrant (h : Sound b k) (hd : Dispatched k) (hg : Contained k ev)
    (hst : Kern.step k ev = some k') : ByGrant k ev k' := by
  cases ev with
  | start c =>
    simp only [Kern.step] at hst
    split at hst
    · exact .schedYield rfl rfl hst
    · cases hst
  | trap c tf inp => exact h.byGrant_trap hd hg hst
  | irq c trapno =>
    simp only [Kern.step] at hst
    split at hst
    · exact .trapHalted hst
    · cases hst
  | store c va v => exact h.byGrant_store hd hst
  | device d =>
    cases hst
    exact .of_eq rfl rfl

theorem ByGrant.gained (h : ByGrant k ev k') (hw : Writable k' e p) (hn : ¬Writable k e p) :
    ∃ c tf inp cur, ev = .trap c tf inp ∧ k.user c = some cur ∧
      (Fresh k k' p ∨ ∃ e', Owned k cur e' ∧ Writable k e' p) := by
  obtain ⟨i, j, ht, hU, hW⟩ := hw
  have hne : entry k'.toPhys k'.dirs e i j ≠ entry k.toPhys k.dirs e i j := by
    intro heq
    refine hn ⟨i, j, ?_, by rwa [← heq], by rwa [← heq]⟩
    rw [target, ← heq]
    exact ht
  have hnz : entry k'.toPhys k'.dirs e i j ≠ 0 := by
    intro h0
    rw [target, h0, present_zero] at ht
    cases ht
  obtain ⟨c, tf, inp, cur, hev, hu, q, hq, hgrant⟩ := h.mapped hne hnz
  obtain rfl : q = p := Option.some.inj (hq.symm.trans ht)
  refine ⟨c, tf, inp, cur, hev, hu, hgrant.imp_right ?_⟩
  rintro ⟨e', i', j', ho, ht', hU', hW'⟩
  exact ⟨e', ho, i', j', ht', hU', hW' hW⟩

end

/-- The pages `e` can write at the end of a run it could write at its start, or some step gave
them to it: fresh, or on behalf of an environment that could write them. -/
structure FlowsByGrant (G : Kernel → Event → Prop) (k₀ : Kernel) (es : List Event) (k : Kernel) :
    Prop where
  step : ∀ {ev k'}, G k ev → Kern.step k ev = some k' → ByGrant k ev k'
  passed : ∀ {e p}, Writable k e p → Writable k₀ e p ∨ ∃ es₁ ev es₂ k₁ k₂, es = es₁ ++ ev :: es₂ ∧
    Run Kern.step G k₀ es₁ k₁ ∧ Kern.step k₁ ev = some k₂ ∧
    Run Kern.step G k₂ es₂ k ∧ ¬Writable k₁ e p ∧ Writable k₂ e p ∧
    ∃ c tf inp cur, ev = .trap c tf inp ∧ k₁.user c = some cur ∧
      (Fresh k₁ k₂ p ∨ ∃ e', Owned k₁ cur e' ∧ Writable k₁ e' p)

/-- In runs of contained steps pages flow by grant only. -/
theorem flowsByGrant_of_contained {M : Machine} {progs : List (Image × EnvType)} {k₀ k : Kernel}
    {es : List Event} (hb : Booted M progs k₀) (hr : Run step Contained k₀ es k) :
    FlowsByGrant Contained k₀ es k := by
  obtain ⟨s, m, l₀, hm, l, hs, -⟩ := hb.starting
  have hinv : ∀ {es k}, Run step Contained k₀ es k → Sound hm.base k ∧ Dispatched k :=
    fun hr => Contained.run hs.sound hs.dispatched hr
  refine ⟨fun hg hst => (hinv hr).1.byGrant (hinv hr).2 hg hst, ?_⟩
  induction hr with
  | nil => exact .inl
  | @snoc k₁ k₂ es ev hr hg hst ih =>
    intro e p hw
    by_cases hw₁ : Writable k₁ e p
    · refine (ih hw₁).imp_right ?_
      rintro ⟨es₁, ev', es₂, k', k'', rfl, h₁, h₂, h₃, hrest⟩
      refine ⟨es₁, ev', es₂ ++ [ev], k', k'', ?_, h₁, h₂, .snoc h₃ hg hst, hrest⟩
      rw [List.append_assoc, List.cons_append]
    · have hgrant := ((hinv hr).1.byGrant (hinv hr).2 hg hst).gained hw hw₁
      exact .inr ⟨es, ev, [], k₁, k₂, rfl, hr, hst, .nil, hw₁, hw, hgrant⟩

theorem flowsByGrant_of_send : ∃ k₀ k, Booted demo (List.replicate 2 idleProg) k₀ ∧
    Run step Contained k₀ [.start bootcpu, call bootcpu 13 0x400000 0 0 0 0,
      call bootcpu 12 envid0 7 stackVa (pteU ||| pteP) 0] k ∧
    FlowsByGrant Contained k₀ [.start bootcpu, call bootcpu 13 0x400000 0 0 0 0,
      call bootcpu 12 envid0 7 stackVa (pteU ||| pteP) 0] k := by
  obtain ⟨k₀, s, m, l₀, hm, l, hb, hs, hl⟩ := demo_booted (n := 2) (by decide)
  obtain ⟨k₁, k₂, k₃, h₁, h₂, h₃, hc₁, w⟩ := hs.transfer hl 7
  have hr : Run step Contained k₀ [.start bootcpu, call bootcpu 13 0x400000 0 0 0 0,
      call bootcpu 12 envid0 7 stackVa (pteU ||| pteP) 0] k₃ :=
    .snoc (.snoc (.single (.start hs.counted) h₁) (.call hc₁ (by decide)) h₂)
      (w.contained (by decide)) h₃
  exact ⟨k₀, k₃, hb, hr, flowsByGrant_of_contained hb hr⟩

/-- A CPU left in a destroyed environment writes a page that nobody has given it. -/
theorem flowsByGrant_fails : ∃ k₀ k d, Booted demo (List.replicate 2 idleProg) k₀ ∧
    Run step Mannered k₀ (destroyTwice ++ [call bootcpu 4 0 0x400000 7 0 0] ++ Handed.forging d) k ∧
    ¬FlowsByGrant Mannered k₀
      (destroyTwice ++ [call bootcpu 4 0 0x400000 7 0 0] ++ Handed.forging d) k := by
  obtain ⟨k₀, s, m, l₀, hm, l, hb, hs, hl⟩ := demo_booted (n := 2) (by decide)
  obtain ⟨p, q, l, rfl⟩ : ∃ p q l', l = p :: q :: l' := by
    match l, hl with
    | p :: q :: l, _ => exact ⟨p, q, l, rfl⟩
  obtain ⟨k₁, d, hr, o⟩ := hs.orphan (G := Mannered) (fun h => ⟨h, by rintro _ _ _ ⟨⟩⟩) .call
  obtain ⟨k₂, h₂, w₂, hzero⟩ := o.handed
  obtain ⟨k₃, hr₃, w₃, hone, h0⟩ := w₂.forge (G := Mannered) fun h => ⟨h, by rintro _ _ _ ⟨⟩⟩
  obtain ⟨k₄, h₄, hne⟩ := w₃.reach hone (h0.trans (hzero 0))
  refine ⟨k₀, k₃, d, hb, (Run.snoc hr (.call o.counted (by decide)) h₂).append hr₃, fun hf => ?_⟩
  have hg : Mannered k₃ (.store cpu1 0x401000 1) := ⟨w₃.counted, by rintro _ _ _ ⟨⟩⟩
  obtain ⟨i, j, htgt, -⟩ := (hf.step hg h₄).written rfl w₃.user1 hne
  rw [target, entry_of_dir_none w₃.nodir, present_zero] at htgt
  cases htgt

end Jos.Kern
