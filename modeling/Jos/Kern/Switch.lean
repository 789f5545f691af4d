import Jos.Kern.Entry

/-! The changes to environments and CPUs, field by field: `env_alloc`, `env_free`, `env_run`
and `sched_halt`. -/

namespace Jos.Kern

open Kernel

def Kernel.dirs (k : Kernel) : EnvIx → Option Nat := fun e => (k.envs e).envPgdir

theorem envs_setEnv_self (k : Kernel) (e : EnvIx) (v : Env) : (k.setEnv e v).envs e = v :=
  Function.update_self ..

theorem envs_setEnv_of_ne (k : Kernel) {e e' : EnvIx} (v : Env) (h : e' ≠ e) :
    (k.setEnv e v).envs e' = k.envs e' :=
  Function.update_of_ne h _ _

theorem envs_setEnv_field {α : Type} (g : Env → α) (k : Kernel) (e : EnvIx) {v : Env}
    (hv : g v = g (k.envs e)) (e' : EnvIx) : g ((k.setEnv e v).envs e') = g (k.envs e') := by
  by_cases h : e' = e
  · subst h
    rw [envs_setEnv_self, hv]
  · rw [envs_setEnv_of_ne k v h]

theorem dirs_setEnv {k : Kernel} {e : EnvIx} {v : Env} (hv : v.envPgdir = (k.envs e).envPgdir) :
    (k.setEnv e v).dirs = k.dirs :=
  funext (envs_setEnv_field Env.envPgdir k e hv)

theorem status_setStatus (k : Kernel) (e e' : EnvIx) (st : EnvStatus) :
    (k.setStatus e st).status e' = if e' = e then st else k.status e' := by
  by_cases h : e' = e
  · subst h
    rw [if_pos rfl, status, setStatus, envs_setEnv_self]
  · rw [if_neg h, status, setStatus, envs_setEnv_of_ne k _ h, status]

theorem curenv_setCurenv (k : Kernel) (c c' : Cpu) (v : Option EnvIx) :
    (k.setCurenv c v).curenv c' = if c' = c then v else k.curenv c' := by
  by_cases h : c' = c
  · subst h
    simp [curenv, setCurenv, setCpu]
  · simp [curenv, setCurenv, setCpu, h]

def Env.Alike (v v' : Env) : Prop :=
  ∃ st runs cpu, v' = { v with envStatus := st, envRuns := runs, envCpunum := cpu }

theorem Env.Alike.refl (v : Env) : v.Alike v := ⟨v.envStatus, v.envRuns, v.envCpunum, rfl⟩

theorem Env.Alike.trans {v v' v'' : Env} (h : v.Alike v') (h' : v'.Alike v'') : v.Alike v'' := by
  obtain ⟨st, runs, cpu, rfl⟩ := h
  obtain ⟨st', runs', cpu', rfl⟩ := h'
  exact ⟨st', runs', cpu', rfl⟩

theorem alike_setEnv {k : Kernel} {e : EnvIx} {v : Env} (h : (k.envs e).Alike v) (e' : EnvIx) :
    (k.envs e').Alike ((k.setEnv e v).envs e') := by
  by_cases hee : e' = e
  · subst hee
    rw [envs_setEnv_self]
    exact h
  · rw [envs_setEnv_of_ne k v hee]
    exact .refl _

/-- `env_run(e)` on CPU `c`. -/
structure Ran (k : Kernel) (c : Cpu) (e : EnvIx) (k' : Kernel) : Prop where
  toPhys_eq : k'.toPhys = k.toPhys
  kernPgdir_eq : k'.kernPgdir = k.kernPgdir
  freeList_eq : k'.envFreeList = k.envFreeList
  ticks_eq : k'.ticks = k.ticks
  alike : ∀ e', (k.envs e').Alike (k'.envs e')
  status_eq : ∀ e', k'.status e' =
    if e' = e then .running
    else if k.curenv c = some e' ∧ k.status e' = .running then .runnable
    else k.status e'
  dir : ∃ d, k.dirs e = some d ∧ (k'.cpus c).cr3 = d
  curenv_self : k'.curenv c = some e
  cpuStatus_self : (k'.cpus c).cpuStatus = (k.cpus c).cpuStatus
  cpus_eq : ∀ {c'}, c' ≠ c → k'.cpus c' = k.cpus c'
  trace_eq : k'.trace = .ran c e (k.envs e).envIpcValue (k.envs e).envIpcFrom :: k.trace

theorem demote_alike (k : Kernel) (c : Cpu) (e : EnvIx) :
    (k.envs e).Alike ((demote k c).envs e) := by
  rw [demote]
  split
  · split
    · exact alike_setEnv ⟨.runnable, _, _, rfl⟩ e
    · exact .refl _
  · exact .refl _

theorem demote_status (k : Kernel) (c : Cpu) (e : EnvIx) : (demote k c).status e =
    if k.curenv c = some e ∧ k.status e = .running then .runnable else k.status e := by
  rw [demote]
  cases hc : k.curenv c with
  | none => simp
  | some o =>
    by_cases ho : k.status o = .running
    · simp only [if_pos ho, status_setStatus, Option.some.injEq]
      by_cases heo : e = o
      · subst heo; simp [ho]
      · simp [heo, Ne.symm heo]
    · simp only [if_neg ho, Option.some.injEq]
      by_cases heo : o = e
      · subst heo; simp [ho]
      · simp [heo]

theorem demote_rest (k : Kernel) (c : Cpu) : (demote k c).toPhys = k.toPhys ∧
    (demote k c).kernPgdir = k.kernPgdir ∧ (demote k c).envFreeList = k.envFreeList ∧
    (demote k c).ticks = k.ticks ∧ (demote k c).cpus = k.cpus ∧ (demote k c).trace = k.trace := by
  rw [demote]
  split
  · split <;> exact ⟨rfl, rfl, rfl, rfl, rfl, rfl⟩
  · exact ⟨rfl, rfl, rfl, rfl, rfl, rfl⟩

theorem envRun_ran {k k' : Kernel} {c : Cpu} {e : EnvIx} (h : envRun k c e = some k') :
    Ran k c e k' := by
  rw [envRun] at h
  obtain ⟨d, hd, h⟩ := Option.bind_eq_some_iff.1 h
  cases h
  obtain ⟨st, runs, cpu, halike⟩ := demote_alike k c e
  obtain ⟨h1, h2, h3, h4, h5, h6⟩ := demote_rest k c
  rw [envs_setEnv_self] at hd
  refine ⟨h1, h2, h3, h4, ?_, ?_, ⟨d, ?_, ?_⟩, ?_, ?_, ?_, ?_⟩
  · intro e'
    refine (demote_alike k c e').trans ?_
    exact alike_setEnv (k := (demote k c).setCurenv c (some e)) ⟨.running, _, _, rfl⟩ e'
  · intro e'
    by_cases hee : e' = e
    · subst hee
      rw [if_pos rfl]
      exact congrArg Env.envStatus (envs_setEnv_self _ e' _)
    · rw [if_neg hee, ← demote_status]
      exact congrArg Env.envStatus
        (envs_setEnv_of_ne ((demote k c).setCurenv c (some e)) _ hee)
  · have : ((demote k c).envs e).envPgdir = some d := hd
    rw [halike] at this
    exact this
  · simp [note, lcr3, setCpu]
  · simp [note, lcr3, setCpu, curenv, setEnv, setCurenv]
  · simp [note, lcr3, setCpu, setEnv, setCurenv, h5]
  · intro c' hc'
    simp [note, lcr3, setCpu, setEnv, setCurenv, hc', h5]
  · simp only [note, lcr3, setCpu, setCurenv, envs_setEnv_self]
    change _ :: (demote k c).trace = _
    rw [h6, halike]

/-- `sched_halt` on CPU `c`. -/
structure Halted (k : Kernel) (c : Cpu) (k' : Kernel) : Prop where
  toPhys_eq : k'.toPhys = k.toPhys
  kernPgdir_eq : k'.kernPgdir = k.kernPgdir
  freeList_eq : k'.envFreeList = k.envFreeList
  envs_eq : k'.envs = k.envs
  curenv_self : k'.curenv c = none
  cpus_self : k'.cpus c = ⟨.halted, none, k.kernPgdir⟩
  cpus_eq : ∀ {c'}, c' ≠ c → k'.cpus c' = k.cpus c'
  trace_eq : k'.trace = k.trace

theorem schedHalt_halted {k k' : Kernel} {c : Cpu} (h : schedHalt k c = some k') :
    Halted k c k' := by
  rw [schedHalt] at h
  split at h
  · cases h
  · cases h
    refine ⟨rfl, rfl, rfl, rfl, ?_, ?_, ?_, rfl⟩
    · simp [curenv, setCpu]
    · simp [setCpu]
    · intro c' hc'
      simp [setCpu, hc']

/-- `env_free(e)` on CPU `c`. -/
structure Freed (k : Kernel) (c : Cpu) (e : EnvIx) (k' : Kernel) : Prop where
  vm : ∃ d, k.dirs e = some d ∧ envFreeVm k.toPhys d = some k'.toPhys
  kernPgdir_eq : k'.kernPgdir = k.kernPgdir
  freeList_eq : k'.envFreeList = some e
  envs_self : k'.envs e = { k.envs e with
    envPgdir := none, envStatus := .free, envLink := k.envFreeList }
  envs_eq : ∀ {e'}, e' ≠ e → k'.envs e' = k.envs e'
  curenv_eq : ∀ c', k'.curenv c' = k.curenv c'
  cpuStatus_eq : ∀ c', (k'.cpus c').cpuStatus = (k.cpus c').cpuStatus
  cpus_eq : ∀ {c'}, c' ≠ c → k'.cpus c' = k.cpus c'
  cr3_self : (k'.cpus c).cr3 = if k.curenv c = some e then k.kernPgdir else (k.cpus c).cr3
  trace_eq : k'.trace = .freed c e :: k.trace

theorem Freed.link_eq {k k' : Kernel} {c : Cpu} {e : EnvIx} (h : Freed k c e k') :
    (fun e' => (k'.envs e').envLink) =
      Function.update (fun e' => (k.envs e').envLink) e k.envFreeList := by
  funext e'
  by_cases hee : e' = e
  · subst hee
    rw [Function.update_self, h.envs_self]
  · rw [Function.update_of_ne hee, h.envs_eq hee]

theorem envFree_freed {k k' : Kernel} {c : Cpu} {e : EnvIx} (h : envFree k c e = some k') :
    Freed k c e k' := by
  rw [envFree] at h
  by_cases hc : k.curenv c = some e
  · simp only [if_pos hc] at h
    obtain ⟨d, hd, h⟩ := Option.bind_eq_some_iff.1 h
    obtain ⟨m, hm, h⟩ := Option.bind_eq_some_iff.1 h
    cases h
    refine ⟨⟨d, hd, hm⟩, rfl, rfl, envs_setEnv_self _ _ _, ?_, ?_, ?_, ?_, ?_, rfl⟩
    · intro e' he'
      exact envs_setEnv_of_ne _ _ he'
    · intro c'
      by_cases hcc : c' = c
      · subst hcc; simp [note, setEnv, curenv, lcr3, setCpu]
      · simp [note, setEnv, curenv, lcr3, setCpu, hcc]
    · intro c'
      by_cases hcc : c' = c
      · subst hcc; simp [note, setEnv, lcr3, setCpu]
      · simp [note, setEnv, lcr3, setCpu, hcc]
    · intro c' hcc
      simp [note, setEnv, lcr3, setCpu, hcc]
    · simp [note, setEnv, lcr3, setCpu, hc]
  · simp only [if_neg hc] at h
    obtain ⟨d, hd, h⟩ := Option.bind_eq_some_iff.1 h
    obtain ⟨m, hm, h⟩ := Option.bind_eq_some_iff.1 h
    cases h
    refine ⟨⟨d, hd, hm⟩, rfl, rfl, envs_setEnv_self _ _ _, ?_, fun _ => rfl, fun _ => rfl,
      fun _ => rfl, ?_, rfl⟩
    · intro e' he'
      exact envs_setEnv_of_ne _ _ he'
    · rw [if_neg hc]
      rfl

/-- `env_alloc` handing out `e`. -/
structure Allocated (k : Kernel) (parentId : Word) (e : EnvIx) (k' : Kernel) : Prop where
  head : k.envFreeList = some e
  vm : ∃ d, envSetupVm k.toPhys k.kernPgdir = some (k'.toPhys, some d) ∧ k'.dirs e = some d
  kernPgdir_eq : k'.kernPgdir = k.kernPgdir
  freeList_eq : k'.envFreeList = (k.envs e).envLink
  envs_self : ∃ d, k'.envs e = { k.envs e with
    envPgdir := some d
    envId := envgen (k.envs e).envId e
    envParentId := parentId
    envType := .user
    envStatus := .runnable
    envRuns := 0
    envTf := envTfInit
    envPgfaultUpcall := 0
    envIpcRecving := false }
  envs_eq : ∀ {e'}, e' ≠ e → k'.envs e' = k.envs e'
  cpus_eq : k'.cpus = k.cpus
  trace_eq : k'.trace = .alloc e :: k.trace

theorem envAlloc_cases {k k' : Kernel} {parentId : Word} {res : Except Word EnvIx}
    (h : envAlloc k parentId = some (k', res)) :
    (∃ r, res = .error r ∧ (k' = k ∨ ∃ m, envSetupVm k.toPhys k.kernPgdir = some (m, none) ∧
      k' = { k with toPhys := m })) ∨
    ∃ e, res = .ok e ∧ Allocated k parentId e k' := by
  rw [envAlloc] at h
  split at h
  · cases h
    exact .inl ⟨_, rfl, .inl rfl⟩
  · next e he =>
    obtain ⟨⟨m, d⟩, hvm, h⟩ := Option.bind_eq_some_iff.1 h
    cases d with
    | none =>
      cases h
      exact .inl ⟨_, rfl, .inr ⟨m, hvm, rfl⟩⟩
    | some d =>
      cases h
      refine .inr ⟨e, rfl, he, ⟨d, hvm, ?_⟩, rfl, rfl, ⟨d, envs_setEnv_self _ _ _⟩, ?_, rfl, rfl⟩
      · exact congrArg Env.envPgdir (envs_setEnv_self _ _ _)
      · intro e' he'
        exact envs_setEnv_of_ne _ _ he'

theorem envAlloc_some {k : Kernel} {e : EnvIx} {m : Phys} {d : Nat} (hl : k.envFreeList = some e)
    (hvm : envSetupVm k.toPhys k.kernPgdir = some (m, some d)) (parentId : Word) :
    ∃ k₁, envAlloc k parentId = some (k₁, .ok e) := by
  rw [envAlloc, hl]
  simp only [hvm, Option.bind_eq_bind, Option.bind_some]
  exact ⟨_, rfl⟩

/-- `sys_exofork`: a child that maps nothing and may not run, or no change but to the pages
that `env_setup_vm` asked for in vain. -/
theorem sysExofork_cases {k k' : Kernel} {cur : EnvIx} {r : Word}
    (h : sysExofork k cur = some (k', .ret r)) :
    (k' = k ∨ ∃ m, envSetupVm k.toPhys k.kernPgdir = some (m, none) ∧ k' = { k with toPhys := m }) ∨
    ∃ e k₁ tf, Allocated k (k.envs cur).envId e k₁ ∧ r = (k₁.envs e).envId ∧
      k' = k₁.setEnv e { k₁.envs e with envStatus := .notRunnable, envTf := tf } := by
  rw [sysExofork] at h
  obtain ⟨⟨k₁, res⟩, halloc, h⟩ := Option.bind_eq_some_iff.1 h
  rcases envAlloc_cases halloc with ⟨_, rfl, hk⟩ | ⟨e, rfl, hk⟩
  · cases h
    exact .inl hk
  · cases h
    refine .inr ⟨e, k₁, _, hk, ?_, rfl⟩
    rw [envs_setEnv_self]

end Jos.Kern
