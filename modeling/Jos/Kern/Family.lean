import Jos.Kern.KernelSpace

/-! A parent and its child: the calls with which one environment starts, stops and destroys
another. -/

namespace Jos.Kern

open Lib Phys Kernel

section

variable {k k' : Kernel} {c : Cpu} {cur e : EnvIx} {d d' : Nat} {m : Phys} {envid : Word}

theorem Same.setEnv (s : Same k k') {v v' : Env}
    (hv : ∃ tf runs cpu, v' = { v with envTf := tf, envRuns := runs, envCpunum := cpu }) :
    Same (k.setEnv e v) (k'.setEnv e v') := by
  refine ⟨s.toPhys_eq, s.kernPgdir_eq, s.freeList_eq, fun e' => ?_, s.curenv_eq, s.cpuStatus_eq⟩
  by_cases h : e' = e
  · rw [h, envs_setEnv_self, envs_setEnv_self]
    exact hv
  · rw [envs_setEnv_of_ne _ _ h, envs_setEnv_of_ne _ _ h]
    exact s.envs_eq e'

theorem Same.setStatus (s : Same k k') (st : EnvStatus) :
    Same (k.setStatus e st) (k'.setStatus e st) := by
  obtain ⟨tf, runs, cpu, he⟩ := s.envs_eq e
  refine s.setEnv ⟨tf, runs, cpu, ?_⟩
  rw [he]

def forked (k : Kernel) (cur e : EnvIx) (m : Phys) (d : Nat) : Kernel :=
  { k with toPhys := m, envFreeList := (k.envs e).envLink }.setEnv e { k.envs e with
    envPgdir := some d
    envId := envgen (k.envs e).envId e
    envParentId := (k.envs cur).envId
    envType := .user
    envStatus := .notRunnable
    envPgfaultUpcall := 0
    envIpcRecving := false }

theorem sysExofork_some {k₁ : Kernel} (h : envAlloc k (k.envs cur).envId = some (k₁, .ok e)) :
    ∃ tf, sysExofork k cur = some (k₁.setEnv e
      { k₁.envs e with envStatus := .notRunnable, envTf := tf }, .ret (k₁.envs e).envId) := by
  rw [sysExofork, h]
  simp only [Option.bind_eq_bind, Option.bind_some, envs_setEnv_self]
  exact ⟨_, rfl⟩

theorem Same.forked (s : Same k k') (hl : k.envFreeList = some e)
    (hvm : envSetupVm k.toPhys k.kernPgdir = some (m, some d)) :
    ∃ k₂, sysExofork k' cur = some (k₂, .ret (envgen (k.envs e).envId e)) ∧
      Same (forked k cur e m d) k₂ := by
  have hl' : k'.envFreeList = some e := s.freeList_eq.trans hl
  have hvm' : envSetupVm k'.toPhys k'.kernPgdir = some (m, some d) := by
    rw [s.toPhys_eq, s.kernPgdir_eq, hvm]
  have hid : (k'.envs cur).envId = (k.envs cur).envId := s.field Env.envId (fun _ _ _ _ => rfl) cur
  obtain ⟨tf, runs, cpu, he⟩ := s.envs_eq e
  obtain ⟨k₁, halloc⟩ := envAlloc_some hl' hvm' (k'.envs cur).envId
  rcases envAlloc_cases halloc with ⟨r, hr, -⟩ | ⟨_, ⟨⟩, ha⟩
  · cases hr
  obtain ⟨d₁, hvm₁, hd₁⟩ := ha.vm
  obtain ⟨d₂, hself⟩ := ha.envs_self
  rw [hvm'] at hvm₁
  cases hvm₁
  rw [hid, he] at hself
  have hnew : (k₁.envs e).envId = envgen (k.envs e).envId e := by rw [hself]
  have hdir : d₂ = d := by
    rw [dirs, hself] at hd₁
    exact Option.some.inj hd₁
  subst hdir
  obtain ⟨tf', hfork⟩ := sysExofork_some halloc
  rw [hnew] at hfork
  refine ⟨_, hfork, rfl, ha.kernPgdir_eq.trans s.kernPgdir_eq, ?_, fun e' => ?_, ?_, ?_⟩
  · exact ha.freeList_eq.trans (s.field Env.envLink (fun _ _ _ _ => rfl) e)
  · by_cases hee : e' = e
    · refine ⟨tf', 0, cpu, ?_⟩
      rw [hee, Kern.forked, envs_setEnv_self, envs_setEnv_self, hself]
    · rw [Kern.forked, envs_setEnv_of_ne _ _ hee, envs_setEnv_of_ne _ _ hee, ha.envs_eq hee]
      exact s.envs_eq e'
  · intro c
    change k₁.curenv c = k.curenv c
    rw [curenv, ha.cpus_eq]
    exact s.curenv_eq c
  · intro c
    change (k₁.cpus c).cpuStatus = _
    rw [ha.cpus_eq]
    exact s.cpuStatus_eq c

theorem forked_status (k : Kernel) (cur e e' : EnvIx) (m : Phys) (d : Nat) :
    (forked k cur e m d).status e' = if e' = e then .notRunnable else k.status e' := by
  by_cases h : e' = e
  · rw [if_pos h, h]
    exact congrArg Env.envStatus (envs_setEnv_self _ _ _)
  · rw [if_neg h]
    exact congrArg Env.envStatus (envs_setEnv_of_ne _ _ h)

theorem forked_dirs (k : Kernel) (cur e : EnvIx) (m : Phys) (d : Nat) :
    (forked k cur e m d).dirs = Function.update k.dirs e (some d) := by
  funext e'
  by_cases h : e' = e
  · rw [h, Function.update_self]
    exact congrArg Env.envPgdir (envs_setEnv_self _ _ _)
  · rw [Function.update_of_ne h]
    exact congrArg Env.envPgdir (envs_setEnv_of_ne _ _ h)

theorem step_exofork (hu : k.user c = some cur) (hst : k.status cur = .running)
    (hd : k.dirs cur = some d') (hl : k.envFreeList = some e)
    (hvm : envSetupVm k.toPhys k.kernPgdir = some (m, some d)) (hne : cur ≠ e) :
    ∃ k', step k (call c 7 0 0 0 0 0) = some k' ∧ Same (forked k cur e m d) k' := by
  have hno : Sysno.ofWord 7 = some .exofork := by decide
  have hd₂ : (forked k cur e m d).dirs cur = some d' := by
    rw [forked_dirs, Function.update_of_ne hne, hd]
  refine step_ret (r := envgen (k.envs e).envId e) hu hst (fun {k₁} s₁ => ?_) (user_curenv hu) ?_ hd₂
  · simp only [syscall, hno]
    exact s₁.forked hl hvm
  · rw [forked_status, if_neg hne, hst]

theorem envid2env_child (hcur : k.curenv c = some cur) (hid : (k.envs e).envId = envid)
    (hx : envx envid = e) (hz : envid ≠ 0) (hf : k.status e ≠ .free)
    (hp : (k.envs e).envParentId = (k.envs cur).envId) : envid2env k c envid true = some e := by
  have hlive : ¬(k.status e = .free ∨ (k.envs e).envId ≠ envid) := by
    rintro (h | h)
    · exact hf h
    · exact h hid
  have hperm : ¬(True ∧ some e ≠ k.curenv c ∧
      some (k.envs e).envParentId ≠ (k.curenv c).map fun cur => (k.envs cur).envId) := by
    rintro ⟨-, -, h⟩
    rw [hcur, hp] at h
    exact h rfl
  rw [envid2env, if_neg hz]
  simp only [hx]
  rw [if_neg hlive, if_neg hperm]

theorem step_setRunnable (hu : k.user c = some cur) (hst : k.status cur = .running)
    (hd : k.dirs cur = some d) (he : envid2env k c envid true = some e) (hne : cur ≠ e) :
    ∃ k', step k (call c 8 envid 2 0 0 0) = some k' ∧ Same (k.setStatus e .runnable) k' := by
  have hno : Sysno.ofWord 8 = some .envSetStatus := by decide
  have hcode : EnvStatus.runnable.code = 2 := rfl
  have hd₂ : (k.setStatus e .runnable).dirs cur = some d := by
    rw [setStatus, dirs_setEnv (k := k) (by rfl), hd]
  refine step_ret (r := 0) hu hst (fun {k₁} s₁ => ⟨_, ?_, s₁.setStatus .runnable⟩) (user_curenv hu)
    ?_ hd₂
  · simp only [syscall, hno, sysEnvSetStatus, s₁.envid2env_eq, he, hcode]
    rfl
  · rw [status_setStatus, if_neg hne, hst]

theorem step_mark (hu : k.user c = some cur) (hst : k.status cur = .running)
    (hd : k.dirs cur = some d) (he : envid2env k c envid true = some e) (hne : cur ≠ e)
    (hrun : k.status e = .running) :
    ∃ k', step k (call c 3 envid 0 0 0 0) = some k' ∧ Same (k.setStatus e .dying) k' := by
  have hno : Sysno.ofWord 3 = some .envDestroy := by decide
  have hd₂ : (k.setStatus e .dying).dirs cur = some d := by
    rw [setStatus, dirs_setEnv (k := k) (by rfl), hd]
  refine step_ret (r := 0) hu hst (fun {k₁} s₁ => ⟨_, ?_, s₁.setStatus .dying⟩) (user_curenv hu)
    ?_ hd₂
  · have hc : k₁.status e = .running ∧ k₁.curenv c ≠ some e := by
      rw [s₁.status_eq, s₁.curenv_eq, user_curenv hu]
      exact ⟨hrun, fun h => hne (Option.some.inj h)⟩
    simp only [syscall, hno, sysEnvDestroy, s₁.envid2env_eq, he, envDestroy]
    rw [if_pos hc]
    rfl
  · rw [status_setStatus, if_neg hne, hst]

def released (k : Kernel) (e : EnvIx) (m : Phys) : Kernel :=
  { Kernel.setEnv { k with toPhys := m } e { k.envs e with
      envPgdir := none, envStatus := .free, envLink := k.envFreeList } with
    envFreeList := some e }

theorem Same.released (s : Same k k') (hne : k.curenv c ≠ some e) (hd : k.dirs e = some d)
    (hvm : envFreeVm k.toPhys d = some m) :
    ∃ k₂, envFree k' c e = some k₂ ∧ Same (released k e m) k₂ := by
  have hne' : k'.curenv c ≠ some e := by
    rw [s.curenv_eq]
    exact hne
  have hd' : (k'.envs e).envPgdir = some d := (congrFun s.dirs_eq e).trans hd
  obtain ⟨tf, runs, cpu, he⟩ := s.envs_eq e
  have s₁ : Same { k with toPhys := m } { k' with toPhys := m } := s.phys m
  have s₂ : Same (Kernel.setEnv { k with toPhys := m } e { k.envs e with
        envPgdir := none, envStatus := .free, envLink := k.envFreeList })
      (Kernel.setEnv { k' with toPhys := m } e { k'.envs e with
        envPgdir := none, envStatus := .free, envLink := k'.envFreeList }) := by
    refine s₁.setEnv ⟨tf, runs, cpu, ?_⟩
    rw [he, s.freeList_eq]
  rw [envFree, if_neg hne']
  simp only [hd', s.toPhys_eq, hvm, Option.bind_eq_bind, Option.bind_some]
  exact ⟨_, rfl, s₂.toPhys_eq, s₂.kernPgdir_eq, rfl, s₂.envs_eq, s₂.curenv_eq, s₂.cpuStatus_eq⟩

theorem step_free (hu : k.user c = some cur) (hst : k.status cur = .running)
    (hd : k.dirs cur = some d) (he : envid2env k c envid true = some e) (hne : cur ≠ e)
    (hrun : k.status e ≠ .running) (hd' : k.dirs e = some d')
    (hvm : envFreeVm k.toPhys d' = some m) :
    ∃ k', step k (call c 3 envid 0 0 0 0) = some k' ∧ Same (released k e m) k' := by
  have hno : Sysno.ofWord 3 = some .envDestroy := by decide
  have hcur : k.curenv c ≠ some e := by
    rw [user_curenv hu]
    exact fun h => hne (Option.some.inj h)
  have hst₂ : (released k e m).status cur = .running :=
    (congrArg Env.envStatus (envs_setEnv_of_ne _ _ hne)).trans hst
  have hd₂ : (released k e m).dirs cur = some d :=
    (congrArg Env.envPgdir (envs_setEnv_of_ne _ _ hne)).trans hd
  refine step_ret (r := 0) hu hst (fun {k₁} s₁ => ?_) (user_curenv hu) hst₂ hd₂
  obtain ⟨k₂, hfree, s₂⟩ := s₁.released hcur hd' hvm
  refine ⟨k₂, ?_, s₂⟩
  have hc : ¬(k₁.status e = .running ∧ k₁.curenv c ≠ some e) := by
    rw [s₁.status_eq]
    exact fun h => hrun h.1
  have hcur₁ : k₁.curenv c ≠ some e := by
    rw [s₁.curenv_eq]
    exact hcur
  simp only [syscall, hno, sysEnvDestroy, s₁.envid2env_eq, he, envDestroy]
  rw [if_neg hc]
  simp only [hfree, Option.bind_eq_bind, Option.bind_some, if_neg hcur₁]
  rfl

theorem step_yield (hu : k.user c = some cur) (hst : k.status cur = .running)
    (he : ∀ e', k.status e' = .runnable ↔ e' = e) (hd : k.dirs e = some d) :
    ∃ k₁ k', Same k k₁ ∧ step k (call c 11 0 0 0 0 0) = some k' ∧ Same (dispatch k₁ c e) k' := by
  have s₁ := Same.frame k cur (callFrame 11 0 0 0 0 0)
  generalize hk₁ : k.setEnv cur { k.envs cur with envTf := callFrame 11 0 0 0 0 0 } = k₁ at s₁
  have hpick : ∀ e', k₁.status e' = .runnable ↔ e' = e := by
    intro e'
    rw [s₁.status_eq]
    exact he e'
  obtain ⟨k', hy, s'⟩ := schedYield_pick (k := k₁) (c := c) (schedPick_unique hpick _)
    ((congrFun s₁.dirs_eq e).trans hd)
  refine ⟨k₁, k', s₁, step_gone hu hst ?_, s'⟩
  have hno : Sysno.ofWord 11 = some .yield := by decide
  rw [hk₁]
  simp only [syscall, hno]
  rw [sysYield, hy]
  rfl

end

/-- `env0` runs on the boot CPU, and is the parent of `env1`, which has status `st`; the second
CPU runs `on`. -/
structure Family (b : Base) (st : EnvStatus) (on : Option EnvIx) (k : Kernel) : Prop where
  kern_eq : k.kernPgdir = b.kern
  spaces : ∃ l, Spaces b k.toPhys k.dirs ∅ l
  counted : Counted k
  user : k.user bootcpu = some env0
  status0 : k.status env0 = .running
  status1 : k.status env1 = st
  others : ∀ {e}, e ≠ env0 → e ≠ env1 → k.status e = .free
  dir0 : ∃ d, k.dirs env0 = some d
  dir1 : ∃ d, k.dirs env1 = some d
  id1 : (k.envs env1).envId = envid1
  parent : (k.envs env1).envParentId = (k.envs env0).envId
  started : (k.cpus cpu1).cpuStatus = .started
  curenv_eq : ∀ {c}, c ≠ bootcpu → k.curenv c = if c = cpu1 then on else none

namespace Family

variable {b : Base} {st : EnvStatus} {on : Option EnvIx} {k k' : Kernel}

theorem same (h : Family b st on k) (s : Same k k') : Family b st on k' where
  kern_eq := s.kernPgdir_eq.trans h.kern_eq
  spaces := by
    obtain ⟨l, hl⟩ := h.spaces
    exact ⟨l, s.spaces hl⟩
  counted := h.counted.congr s.toPhys_eq s.dirs_eq
  user := by
    rw [Kernel.user, s.cpuStatus_eq, s.curenv_eq]
    exact h.user
  status0 := (s.status_eq _).trans h.status0
  status1 := (s.status_eq _).trans h.status1
  others := fun h0 h1 => (s.status_eq _).trans (h.others h0 h1)
  dir0 := by rw [s.dirs_eq]; exact h.dir0
  dir1 := by rw [s.dirs_eq]; exact h.dir1
  id1 := (s.field Env.envId (fun _ _ _ _ => rfl) _).trans h.id1
  parent := by
    rw [s.field Env.envParentId (fun _ _ _ _ => rfl), s.field Env.envId (fun _ _ _ _ => rfl)]
    exact h.parent
  started := (s.cpuStatus_eq _).trans h.started
  curenv_eq := fun hc => (s.curenv_eq _).trans (h.curenv_eq hc)

theorem setStatus (h : Family b st on k) (st' : EnvStatus) :
    Family b st' on (k.setStatus env1 st') where
  kern_eq := h.kern_eq
  spaces := by
    rw [Kernel.setStatus, dirs_setEnv (k := k) (by rfl)]
    exact h.spaces
  counted := h.counted.congr rfl (dirs_setEnv (by rfl))
  user := h.user
  status0 := by
    rw [status_setStatus, if_neg (by decide), h.status0]
  status1 := by
    rw [status_setStatus, if_pos rfl]
  others := by
    intro e h0 h1
    rw [status_setStatus, if_neg h1, h.others h0 h1]
  dir0 := by
    rw [Kernel.setStatus, dirs_setEnv (k := k) (by rfl)]
    exact h.dir0
  dir1 := by
    rw [Kernel.setStatus, dirs_setEnv (k := k) (by rfl)]
    exact h.dir1
  id1 := by
    rw [Kernel.setStatus, envs_setEnv_field Env.envId k env1 (by rfl), h.id1]
  parent := by
    rw [Kernel.setStatus, envs_setEnv_field Env.envParentId k env1 (by rfl),
      envs_setEnv_field Env.envId k env1 (by rfl), h.parent]
  started := h.started
  curenv_eq := h.curenv_eq

theorem child (h : Family b st on k) (hf : st ≠ .free) :
    envid2env k bootcpu envid1 true = some env1 :=
  envid2env_child (user_curenv h.user) h.id1 (by decide) (by decide) (by rw [h.status1]; exact hf)
    h.parent

theorem setRunnable (h : Family b st on k) (hf : st ≠ .free) :
    ∃ k', step k (call bootcpu 8 envid1 2 0 0 0) = some k' ∧ Family b .runnable on k' := by
  obtain ⟨d, hd⟩ := h.dir0
  obtain ⟨k', hstep, s⟩ := step_setRunnable h.user h.status0 hd (h.child hf) (by decide)
  exact ⟨k', hstep, (h.setStatus .runnable).same s⟩

theorem mark (h : Family b .running on k) :
    ∃ k', step k (call bootcpu 3 envid1 0 0 0 0) = some k' ∧ Family b .dying on k' := by
  obtain ⟨d, hd⟩ := h.dir0
  obtain ⟨k', hstep, s⟩ := step_mark h.user h.status0 hd (h.child (by decide)) (by decide) h.status1
  exact ⟨k', hstep, (h.setStatus .dying).same s⟩

theorem destroyAgain (h : Family b .dying on k) :
    ∃ k', step k (call bootcpu 3 envid1 0 0 0 0) = some k' ∧ k'.status env1 = .free ∧
      k'.curenv cpu1 = k.curenv cpu1 := by
  obtain ⟨d, hd⟩ := h.dir0
  obtain ⟨d', hd'⟩ := h.dir1
  obtain ⟨l, hsp⟩ := h.spaces
  obtain ⟨m, -, hvm, -⟩ := hsp.envFreeVm hd' fun q => h.counted.le q
  have hrun : k.status env1 ≠ .running := by
    rw [h.status1]
    decide
  obtain ⟨k', hstep, s⟩ := step_free h.user h.status0 hd (h.child (by decide)) (by decide) hrun hd' hvm
  refine ⟨k', hstep, ?_, s.curenv_eq cpu1⟩
  rw [s.status_eq]
  exact congrArg Env.envStatus (envs_setEnv_self _ _ _)

theorem runnable_iff (h : Family b .runnable on k) (e : EnvIx) : k.status e = .runnable ↔ e = env1 := by
  by_cases h1 : e = env1
  · simp [h1, h.status1]
  · by_cases h0 : e = env0
    · have hne : env0 ≠ env1 := by decide
      simp [h0, h.status0, hne]
    · simp [h.others h0 h1, h1]

theorem startSecond (h : Family b .runnable none k) :
    ∃ k', step k (.start cpu1) = some k' ∧ Family b .running (some env1) k' := by
  obtain ⟨d, hd⟩ := h.dir1
  have hcur : k.curenv cpu1 = none := by rw [h.curenv_eq (by decide), if_pos rfl]
  obtain ⟨k', hstep, s⟩ := step_start h.started hcur (schedPick_unique h.runnable_iff 0) hd
  obtain ⟨hphys, hkern, -⟩ := dispatch_rest k cpu1 env1
  have hdirs := dispatch_dirs k cpu1 env1
  have hst : ∀ e, (dispatch k cpu1 env1).status e = if e = env1 then .running else k.status e := by
    intro e
    rw [dispatch_status, hcur]
    simp
  refine ⟨k', hstep, Family.same ⟨?_, ?_, ?_, ?_, ?_, ?_, ?_, ?_, ?_, ?_, ?_, ?_, ?_⟩ s⟩
  · rw [hkern, h.kern_eq]
  · rw [hphys, hdirs]
    exact h.spaces
  · exact h.counted.congr hphys hdirs
  · have hc : bootcpu ≠ cpu1 := by decide
    rw [Kernel.user, dispatch_cpuStatus, dispatch_curenv, if_neg hc]
    exact h.user
  · rw [hst, if_neg (by decide), h.status0]
  · rw [hst, if_pos rfl]
  · intro e h0 h1
    rw [hst, if_neg h1, h.others h0 h1]
  · rw [hdirs]
    exact h.dir0
  · rw [hdirs]
    exact h.dir1
  · rw [dispatch_field Env.envId (fun _ _ => rfl), h.id1]
  · rw [dispatch_field Env.envParentId (fun _ _ => rfl), dispatch_field Env.envId (fun _ _ => rfl),
      h.parent]
  · rw [dispatch_cpuStatus, h.started]
  · intro c hc
    rw [dispatch_curenv]
    split
    · rfl
    · next hc1 => rw [h.curenv_eq hc, if_neg hc1]

end Family

theorem Starting.family {b : Base} {k₀ : Kernel} {pp : Nat} {l : List Nat}
    (h : Starting demo b k₀ 1 (pp :: l)) :
    ∃ k₁ k₂, step k₀ (.start bootcpu) = some k₁ ∧ Counted k₁ ∧
      step k₁ (call bootcpu 7 0 0 0 0 0) = some k₂ ∧ Family b .notRunnable none k₂ := by
  obtain ⟨k₁, h₁, s₁⟩ := h.start (by decide) (by decide)
  obtain ⟨d₀, hd₀⟩ := h.dirs_some (e := env0) (by decide)
  have hdirs₁ : k₁.dirs = k₀.dirs := s₁.dirs_eq.trans (dispatch_dirs k₀ bootcpu env0)
  have hphys₁ : k₁.toPhys = k₀.toPhys := s₁.toPhys_eq.trans (dispatch_rest k₀ bootcpu env0).1
  have hkern₁ : k₁.kernPgdir = b.kern :=
    (s₁.kernPgdir_eq.trans (dispatch_rest k₀ bootcpu env0).2.1).trans h.kern_eq
  have hl₁ : k₁.envFreeList = some env1 :=
    (s₁.freeList_eq.trans (dispatch_rest k₀ bootcpu env0).2.2).trans (h.head (by decide)).1
  have hcur₁ : ∀ c, k₁.curenv c = if c = bootcpu then some env0 else none := by
    intro c
    rw [s₁.curenv_eq, dispatch_curenv, h.curenv_none]
  have hcpu₁ : ∀ c, (k₁.cpus c).cpuStatus = if c.val < 2 then .started else .unused := by
    intro c
    rw [s₁.cpuStatus_eq, dispatch_cpuStatus, h.cpuStatus_eq]
    rfl
  have hstat₁ : ∀ e, k₁.status e = if e = env0 then .running else .free := by
    intro e
    rw [s₁.status_eq, dispatch_status, h.curenv_none, h.status_eq]
    simp only [Fin.ext_iff, env0, reduceCtorEq, false_and, if_false]
    split
    · rfl
    · next hne => rw [if_neg (by omega)]
  have hnone : k₁.dirs env1 = none := by
    rw [hdirs₁, h.dirs_none_iff]
    decide
  have hu₁ : k₁.user bootcpu = some env0 := by
    rw [user, hcpu₁, hcur₁]
    rfl
  have hsp₁ : Spaces b k₁.toPhys k₁.dirs ∅ (pp :: l) := by
    rw [hphys₁, hdirs₁]
    exact h.spaces
  obtain ⟨m, hvm, hsp, htgt, -⟩ := hsp₁.envSetupVm_cons hnone
  rw [← hkern₁] at hvm
  obtain ⟨k₂, h₂, s₂⟩ := step_exofork hu₁ (by rw [hstat₁, if_pos rfl]) (by rw [hdirs₁]; exact hd₀)
    hl₁ hvm (by decide)
  have hdirs := forked_dirs k₁ env0 env1 m pp
  obtain ⟨link, hv⟩ := h.unused (e := env1) (by decide)
  have hself : (forked k₁ env0 env1 m pp).envs env1 = _ := envs_setEnv_self _ _ _
  have hother : (forked k₁ env0 env1 m pp).envs env0 = k₁.envs env0 :=
    envs_setEnv_of_ne _ _ (by decide)
  suffices hf : Family b .notRunnable none (forked k₁ env0 env1 m pp) from
    ⟨k₁, k₂, h₁, h.counted.congr hphys₁ hdirs₁, h₂, hf.same s₂⟩
  refine ⟨hkern₁, ⟨l, ?_⟩, ?_, hu₁, ?_, ?_, ?_, ⟨d₀, ?_⟩, ⟨pp, ?_⟩, ?_, ?_, ?_, ?_⟩
  · rw [hdirs]
    exact hsp
  · intro p
    rw [hdirs]
    refine Nat.le_trans ?_ (by decide : 1 ≤ 65535)
    change refCount (target m _) p ≤ 1
    rw [htgt]
    refine Unshared.refCount_le (Unshared.update ?_ (hsp₁.free.target_ne List.mem_cons_self)) p
    rw [hphys₁, hdirs₁]
    exact h.unshared
  · rw [forked_status, if_neg (by decide), hstat₁, if_pos rfl]
  · rw [forked_status, if_pos rfl]
  · intro e h0 h1
    rw [forked_status, if_neg h1, hstat₁, if_neg h0]
  · rw [hdirs, Function.update_of_ne (by decide), hdirs₁, hd₀]
  · rw [hdirs, Function.update_self]
  · rw [hself, s₁.field Env.envId (fun _ _ _ _ => rfl), dispatch_field Env.envId (fun _ _ => rfl), hv]
    change envgen 0 env1 = envid1
    decide
  · rw [hself, hother]
  · rw [show ((forked k₁ env0 env1 m pp).cpus cpu1).cpuStatus = (k₁.cpus cpu1).cpuStatus from rfl,
      hcpu₁]
    rfl
  · intro c hc
    change k₁.curenv c = _
    rw [hcur₁, if_neg hc]
    split <;> rfl

end Jos.Kern
