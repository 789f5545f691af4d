import Jos.Kern.Family
import Mathlib.Tactic.IntervalCases

/-! A child that its parent destroys twice while another CPU runs it.  The CPU goes on in an
environment that no longer exists. -/

namespace Jos.Kern

open Lib Phys Kernel

/-- A trap on CPU `c` leaves the other CPUs alone, and leaves `c` in the address space of the
environment it goes on in. -/
theorem cpuRules (k₀ : Kernel) (c : Cpu) (cur : EnvIx) (tf : Trapframe) :
    Rules c cur tf (fun k => k.curenv c = some cur ∧ ∀ {c'}, c' ≠ c → k.cpus c' = k₀.cpus c')
      (fun k => k.curenv c = some cur ∧ ∀ {c'}, c' ≠ c → k.cpus c' = k₀.cpus c')
      (fun k => ∀ {c'}, c' ≠ c → k.cpus c' = k₀.cpus c')
      (fun k => (∀ {c'}, c' ≠ c → k.cpus c' = k₀.cpus c') ∧
        ∀ {e}, k.curenv c = some e → k.dirs e = some (k.cpus c).cr3) := by
  have hran : ∀ {k k' : Kernel} {e}, (∀ {c'}, c' ≠ c → k.cpus c' = k₀.cpus c') →
      Ran k c e k' → (∀ {c'}, c' ≠ c → k'.cpus c' = k₀.cpus c') ∧
        ∀ {e}, k'.curenv c = some e → k'.dirs e = some (k'.cpus c).cr3 := by
    intro k k' e h hr
    refine ⟨fun hc => (hr.cpus_eq hc).trans (h hc), fun {e'} he => ?_⟩
    rw [hr.curenv_self] at he
    cases he
    obtain ⟨d, hd, hcr3⟩ := hr.dir
    obtain ⟨_, _, _, halike⟩ := hr.alike e
    rw [hcr3, dirs, halike]
    exact hd
  exact {
    weaken := id
    forget := And.right
    current := And.left
    frame := fun _ h _ => h
    result := fun _ h => h
    tick := fun _ h => h.2
    device := fun _ h => h
    upcall := fun _ h _ _ => h.2
    fork := by
      rintro k k' r ⟨-, h⟩ - hcall
      rcases sysExofork_cases hcall with (rfl | ⟨m, -, rfl⟩) | ⟨e, k₁, tf', ha, -, rfl⟩
      · exact h
      · exact h
      · intro c' hc'
        change k₁.cpus c' = _
        rw [ha.cpus_eq]
        exact h hc'
    setStatus := fun _ h _ _ _ _ => h.2
    pageAlloc := by
      rintro k k' r ⟨-, h⟩ - hcall
      obtain ⟨-, m, rfl⟩ := sysPageAlloc_ret hcall
      exact h
    pageMap := by
      rintro k k' r ⟨-, h⟩ - hcall
      obtain ⟨-, m, rfl⟩ := sysPageMap_ret hcall
      exact h
    pageUnmap := by
      rintro k k' r ⟨-, h⟩ - hcall
      obtain ⟨-, m, rfl⟩ := sysPageUnmap_ret hcall
      exact h
    trySend := by
      rintro k k' r ⟨-, h⟩ - hcall
      cases sysIpcTrySend_step hcall <;> exact h
    recv := fun h _ _ => h.2
    mark := fun h _ _ _ _ => h
    free := by
      rintro k k' e ⟨hcur, h⟩ - - - - hcall
      have hf := envFree_freed hcall
      exact ⟨(hf.curenv_eq c).trans hcur, fun hc => (hf.cpus_eq hc).trans (h hc)⟩
    exit := by
      rintro k k' ⟨-, h⟩ hcall c' hc
      have hf := envFree_freed hcall
      rw [setCurenv, setCpu]
      exact (Function.update_of_ne hc _ _).trans ((hf.cpus_eq hc).trans (h hc))
    receive := fun _ h _ _ => h
    push := fun _ _ h _ _ => h
    run := fun h _ hrun => hran h (envRun_ran hrun)
    resume := fun h hrun => hran h.2 (envRun_ran hrun)
    halt := by
      rintro k k' h - - hcall
      have hh := schedHalt_halted hcall
      refine ⟨fun hc => (hh.cpus_eq hc).trans (h hc), fun he => ?_⟩
      rw [hh.curenv_self] at he
      cases he }

theorem step_cpus {k k' : Kernel} {c : Cpu} {cur : EnvIx} {tf : Trapframe} {inp : Inputs}
    (hu : k.user c = some cur) (hdy : k.status cur ≠ .dying)
    (hst : step k (.trap c tf inp) = some k') :
    (∀ {c'}, c' ≠ c → k'.cpus c' = k.cpus c') ∧
      ∀ {e}, k'.curenv c = some e → k'.dirs e = some (k'.cpus c).cr3 := by
  simp only [step] at hst
  split at hst
  · exact (cpuRules k c cur tf).trapUser (user_curenv hu) hdy ⟨user_curenv hu, fun _ => rfl⟩ hst
  · cases hst

def env2 : EnvIx := ⟨2, by decide⟩
def envid2 : Word := 0x1002

def statuses (s0 s1 s2 : EnvStatus) (e : EnvIx) : EnvStatus :=
  if e = env0 then s0 else if e = env1 then s1 else if e = env2 then s2 else .free

def running (a0 a1 : Option EnvIx) (c : Cpu) : Option EnvIx :=
  if c = bootcpu then a0 else if c = cpu1 then a1 else none

section

variable (s0 s1 s2 s : EnvStatus) (a0 a1 a : Option EnvIx) (e : EnvIx) (c : Cpu)

theorem statuses_env0 : (if e = env0 then s else statuses s0 s1 s2 e) = statuses s s1 s2 e := by
  by_cases h : e = env0 <;> simp [statuses, h]

theorem statuses_env1 : (if e = env1 then s else statuses s0 s1 s2 e) = statuses s0 s s2 e := by
  have h10 : env1 ≠ env0 := by decide
  by_cases h : e = env1 <;> simp [statuses, h, h10]

theorem statuses_env2 : (if e = env2 then s else statuses s0 s1 s2 e) = statuses s0 s1 s e := by
  have h20 : env2 ≠ env0 := by decide
  have h21 : env2 ≠ env1 := by decide
  by_cases h : e = env2 <;> simp [statuses, h, h20, h21]

theorem running_bootcpu : (if c = bootcpu then a else running a0 a1 c) = running a a1 c := by
  by_cases h : c = bootcpu <;> simp [running, h]

theorem running_cpu1 : (if c = cpu1 then a else running a0 a1 c) = running a0 a c := by
  have h10 : cpu1 ≠ bootcpu := by decide
  by_cases h : c = cpu1 <;> simp [running, h, h10]

theorem statuses_runnable_env1 (h0 : s0 ≠ .runnable) (h2 : s2 ≠ .runnable) :
    statuses s0 .runnable s2 e = .runnable ↔ e = env1 := by
  have h10 : env0 ≠ env1 := by decide
  rw [statuses]
  split_ifs with he he' he'' <;> simp_all

theorem statuses_runnable_env2 (h0 : s0 ≠ .runnable) (h1 : s1 ≠ .runnable) :
    statuses s0 s1 .runnable e = .runnable ↔ e = env2 := by
  have h20 : env0 ≠ env2 := by decide
  have h21 : env1 ≠ env2 := by decide
  rw [statuses]
  split_ifs with he he' he'' <;> simp_all

end

structure Scene (b : Base) (n : Nat) (st : EnvIx → EnvStatus) (on : Cpu → Option EnvIx)
    (k : Kernel) : Prop where
  kern_eq : k.kernPgdir = b.kern
  spaces : ∃ p l, Spaces b k.toPhys k.dirs ∅ (p :: l)
  unshared : Unshared (target k.toPhys k.dirs)
  status_eq : ∀ e, k.status e = st e
  curenv_eq : ∀ c, k.curenv c = on c
  started : ∀ {c : Cpu}, c.val < 2 → (k.cpus c).cpuStatus = .started
  dir : ∀ {e : EnvIx}, e.val < n → ∃ d, k.dirs e = some d
  id : ∀ {e : EnvIx}, e.val < n → (k.envs e).envId = 0x1000 + BitVec.ofNat 32 e.val
  parent : 2 < n → (k.envs env2).envParentId = envid0

namespace Scene

variable {b : Base} {n : Nat} {st st' : EnvIx → EnvStatus} {on on' : Cpu → Option EnvIx}
  {k k' : Kernel} {s0 s1 s2 : EnvStatus} {a0 a1 : Option EnvIx}

theorem counted (h : Scene b n st on k) : Counted k :=
  fun p => (h.unshared.refCount_le p).trans (by decide)

theorem congr (h : Scene b n st on k) (hst : ∀ e, st e = st' e) (hon : ∀ c, on c = on' c) :
    Scene b n st' on' k := by
  obtain rfl : st = st' := funext hst
  obtain rfl : on = on' := funext hon
  exact h

theorem same (h : Scene b n st on k) (s : Same k k') : Scene b n st on k' where
  kern_eq := s.kernPgdir_eq.trans h.kern_eq
  spaces := by
    obtain ⟨p, l, hl⟩ := h.spaces
    exact ⟨p, l, s.spaces hl⟩
  unshared := by
    rw [s.toPhys_eq, s.dirs_eq]
    exact h.unshared
  status_eq := fun e => (s.status_eq e).trans (h.status_eq e)
  curenv_eq := fun c => (s.curenv_eq c).trans (h.curenv_eq c)
  started := fun hc => (s.cpuStatus_eq _).trans (h.started hc)
  dir := by
    rw [s.dirs_eq]
    exact h.dir
  id := fun he => (s.field Env.envId (fun _ _ _ _ => rfl) _).trans (h.id he)
  parent := fun hn => (s.field Env.envParentId (fun _ _ _ _ => rfl) _).trans (h.parent hn)

theorem setStatus (h : Scene b n st on k) (e : EnvIx) (s : EnvStatus) :
    Scene b n (fun e' => if e' = e then s else st e') on (k.setStatus e s) where
  kern_eq := h.kern_eq
  spaces := by
    rw [Kernel.setStatus, dirs_setEnv (k := k) (by rfl)]
    exact h.spaces
  unshared := by
    rw [Kernel.setStatus, dirs_setEnv (k := k) (by rfl)]
    exact h.unshared
  status_eq := by
    intro e'
    rw [status_setStatus, h.status_eq]
  curenv_eq := h.curenv_eq
  started := h.started
  dir := by
    rw [Kernel.setStatus, dirs_setEnv (k := k) (by rfl)]
    exact h.dir
  id := by
    rw [Kernel.setStatus]
    intro e' he'
    rw [envs_setEnv_field Env.envId k e (by rfl), h.id he']
  parent := by
    rw [Kernel.setStatus, envs_setEnv_field Env.envParentId k e (by rfl)]
    exact h.parent

theorem dispatch (h : Scene b n st on k) (c : Cpu) (e : EnvIx) :
    Scene b n (fun e' => if e' = e then .running
        else if on c = some e' ∧ st e' = .running then .runnable else st e')
      (fun c' => if c' = c then some e else on c') (dispatch k c e) := by
  obtain ⟨hphys, hkern, -⟩ := dispatch_rest k c e
  have hdirs := dispatch_dirs k c e
  refine ⟨hkern.trans h.kern_eq, ?_, ?_, ?_, ?_, ?_, ?_, ?_, ?_⟩
  · rw [hphys, hdirs]
    exact h.spaces
  · rw [hphys, hdirs]
    exact h.unshared
  · intro e'
    rw [dispatch_status, h.curenv_eq, h.status_eq]
  · intro c'
    rw [dispatch_curenv, h.curenv_eq]
  · intro c' hc'
    rw [dispatch_cpuStatus, h.started hc']
  · rw [hdirs]
    exact h.dir
  · intro e' he'
    rw [dispatch_field Env.envId (fun _ _ => rfl), h.id he']
  · intro hn
    rw [dispatch_field Env.envParentId (fun _ _ => rfl), h.parent hn]

theorem user_eq (h : Scene b n st on k) {c : Cpu} (hc : c.val < 2) : k.user c = on c := by
  rw [Kernel.user, if_pos (h.started hc), h.curenv_eq]

theorem start (h : Scene b n st on k) {c : Cpu} {e : EnvIx} (hc : c.val < 2) (hon : on c = none)
    (he : e.val < n) (hp : schedPick k 0 = some e) :
    ∃ k', step k (.start c) = some k' ∧ Same (Kern.dispatch k c e) k' ∧
      Scene b n (fun e' => if e' = e then .running else st e')
        (fun c' => if c' = c then some e else on c') k' := by
  obtain ⟨d, hd⟩ := h.dir he
  obtain ⟨k', hstep, s⟩ := step_start (h.started hc) ((h.curenv_eq c).trans hon) hp hd
  refine ⟨k', hstep, s, ((h.dispatch c e).same s).congr (fun e' => ?_) fun _ => rfl⟩
  simp [hon]

end Scene

theorem Starting.scene₀ {b : Base} {k : Kernel} {p : Nat} {l : List Nat}
    (h : Starting demo b k 2 (p :: l)) :
    Scene b 2 (statuses .runnable .runnable .free) (running none none) k where
  kern_eq := h.kern_eq
  spaces := ⟨p, l, h.spaces⟩
  unshared := h.unshared
  status_eq := by
    intro e
    rw [h.status_eq]
    simp only [statuses, Fin.ext_iff, env0, env1, env2]
    split_ifs <;> first | rfl | omega
  curenv_eq := by
    intro c
    rw [h.curenv_none]
    simp [running]
  started := by
    intro c hc
    rw [h.cpuStatus_eq]
    exact if_pos hc
  dir := h.dirs_some
  id := by
    intro e he
    obtain ⟨⟨tf, ty, d, link, hv⟩, -⟩ := h.created he
    rw [hv]
    change envgen 0 e = _
    have : e = env0 ∨ e = env1 := by
      simp only [Fin.ext_iff, env0, env1]
      omega
    rcases this with rfl | rfl <;> decide
  parent := fun hn => absurd hn (by decide)

theorem Starting.scene {b : Base} {k₀ : Kernel} {p q : Nat} {l : List Nat}
    (h : Starting demo b k₀ 2 (p :: q :: l)) :
    ∃ k₁ k₂ k₃, step k₀ (.start bootcpu) = some k₁ ∧ Counted k₁ ∧
      step k₁ (.start cpu1) = some k₂ ∧ Counted k₂ ∧
      step k₂ (call bootcpu 7 0 0 0 0 0) = some k₃ ∧
      Scene b 3 (statuses .running .running .notRunnable) (running (some env0) (some env1)) k₃ := by
  have hpick₀ : schedPick k₀ 0 = some (slot 0) := by
    apply schedPick_first
    rw [h.status_eq]
    rfl
  obtain ⟨k₁, h₁, s₁, w₁⟩ := h.scene₀.start (c := bootcpu) (e := env0) (by decide) rfl (by decide) hpick₀
  replace w₁ : Scene b 2 (statuses .running .runnable .free) (running (some env0) none) k₁ :=
    w₁.congr (statuses_env0 _ _ _ _) (running_bootcpu _ _ _)
  have hrun₁ : ∀ e, k₁.status e = .runnable ↔ e = env1 := by
    intro e
    rw [w₁.status_eq]
    exact statuses_runnable_env1 _ _ e (by decide) (by decide)
  obtain ⟨k₂, h₂, s₂, w₂⟩ := w₁.start (c := cpu1) (e := env1) (by decide) rfl (by decide)
    (schedPick_unique hrun₁ 0)
  replace w₂ : Scene b 2 (statuses .running .running .free) (running (some env0) (some env1)) k₂ :=
    w₂.congr (statuses_env1 _ _ _ _) (running_cpu1 _ _ _)
  have hphys : k₂.toPhys = k₀.toPhys := by
    rw [s₂.toPhys_eq, (dispatch_rest _ _ _).1, s₁.toPhys_eq, (dispatch_rest _ _ _).1]
  have hdirs : k₂.dirs = k₀.dirs := by
    rw [s₂.dirs_eq, dispatch_dirs, s₁.dirs_eq, dispatch_dirs]
  have hlist : k₂.envFreeList = some env2 := by
    rw [s₂.freeList_eq, (dispatch_rest _ _ _).2.2, s₁.freeList_eq, (dispatch_rest _ _ _).2.2]
    exact (h.head (by decide)).1
  have hnone : k₂.dirs env2 = none := by
    rw [hdirs, h.dirs_none_iff]
    decide
  have hsp₂ : Spaces b k₂.toPhys k₂.dirs ∅ (p :: q :: l) := by
    rw [hphys, hdirs]
    exact h.spaces
  obtain ⟨d₀, hd₀⟩ := w₂.dir (e := env0) (by decide)
  obtain ⟨m, hvm, hsp, htgt, -⟩ := hsp₂.envSetupVm_cons hnone
  rw [← w₂.kern_eq] at hvm
  obtain ⟨k₃, h₃, s₃⟩ := step_exofork (w₂.user_eq (c := bootcpu) (by decide)) (w₂.status_eq env0) hd₀ hlist hvm
    (by decide)
  refine ⟨k₁, k₂, k₃, h₁, w₁.counted, h₂, w₂.counted, h₃, Scene.same ?_ s₃⟩
  have hfdirs := forked_dirs k₂ env0 env2 m p
  have hself : (forked k₂ env0 env2 m p).envs env2 = _ := envs_setEnv_self _ _ _
  have hother : ∀ {e}, e ≠ env2 → (forked k₂ env0 env2 m p).envs e = k₂.envs e :=
    fun he => envs_setEnv_of_ne _ _ he
  have hlt : ∀ {e : EnvIx}, e.val < 3 → e ≠ env2 → e.val < 2 := by
    intro e he hne
    have : e.val ≠ 2 := fun h => hne (Fin.ext h)
    omega
  refine ⟨w₂.kern_eq, ⟨q, l, ?_⟩, ?_, ?_, w₂.curenv_eq, w₂.started, ?_, ?_, fun _ => ?_⟩
  · rw [hfdirs]
    exact hsp
  · rw [hfdirs]
    change Unshared (target m _)
    rw [htgt]
    refine Unshared.update ?_ (hsp₂.free.target_ne List.mem_cons_self)
    rw [hphys, hdirs]
    exact h.unshared
  · intro e
    rw [forked_status, w₂.status_eq, statuses_env2]
  · intro e he
    rw [hfdirs]
    by_cases hee : e = env2
    · exact ⟨p, by rw [hee, Function.update_self]⟩
    · rw [Function.update_of_ne hee]
      exact w₂.dir (hlt he hee)
  · intro e he
    by_cases hee : e = env2
    · obtain ⟨link, hv⟩ := h.unused (e := env2) (by decide)
      rw [hee, hself, s₂.field Env.envId (fun _ _ _ _ => rfl),
        dispatch_field Env.envId (fun _ _ => rfl), s₁.field Env.envId (fun _ _ _ _ => rfl),
        dispatch_field Env.envId (fun _ _ => rfl), hv]
      change envgen 0 env2 = _
      decide
    · rw [hother hee]
      exact w₂.id (hlt he hee)
  · rw [hself]
    exact (w₂.id (e := env0) (by decide)).trans (by decide)

namespace Scene

variable {b : Base} {k : Kernel} {s1 s2 : EnvStatus} {a1 : Option EnvIx}

theorem child (h : Scene b 3 (statuses .running s1 s2) (running (some env0) a1) k) (hf : s2 ≠ .free) :
    envid2env k bootcpu envid2 true = some env2 := by
  have hcur : k.curenv bootcpu = some env0 := h.curenv_eq bootcpu
  refine envid2env_child hcur ((h.id (by decide)).trans (by decide)) (by decide) (by decide) ?_ ?_
  · rw [h.status_eq]
    exact hf
  · rw [h.parent (by decide), h.id (by decide)]
    decide

theorem setRunnable (h : Scene b 3 (statuses .running s1 .notRunnable) (running (some env0) a1) k) :
    ∃ k', step k (call bootcpu 8 envid2 2 0 0 0) = some k' ∧
      Scene b 3 (statuses .running s1 .runnable) (running (some env0) a1) k' := by
  obtain ⟨d, hd⟩ := h.dir (e := env0) (by decide)
  obtain ⟨k', hstep, s⟩ := step_setRunnable (h.user_eq (c := bootcpu) (by decide)) (h.status_eq env0)
    hd (h.child (by decide)) (by decide)
  exact ⟨k', hstep, ((h.setStatus env2 .runnable).congr (statuses_env2 _ _ _ _) fun _ => rfl).same s⟩

theorem yield (h : Scene b 3 (statuses .running .running .runnable)
      (running (some env0) (some env1)) k) :
    ∃ k', step k (call cpu1 11 0 0 0 0 0) = some k' ∧
      Scene b 3 (statuses .running .runnable .running) (running (some env0) (some env2)) k' := by
  obtain ⟨d, hd⟩ := h.dir (e := env2) (by decide)
  have hrun : ∀ e, k.status e = .runnable ↔ e = env2 := by
    intro e
    rw [h.status_eq]
    exact statuses_runnable_env2 _ _ e (by decide) (by decide)
  obtain ⟨k₁, k', s₁, hstep, s'⟩ := step_yield (h.user_eq (c := cpu1) (by decide)) (h.status_eq env1)
    hrun hd
  refine ⟨k', hstep, (((h.same s₁).dispatch cpu1 env2).same s').congr (fun e => ?_)
    (running_cpu1 _ _ _)⟩
  have hone : running (some env0) (some env1) cpu1 = some env1 := rfl
  have h01 : env0 ≠ env1 := by decide
  have h21 : env2 ≠ env1 := by decide
  have h20 : env2 ≠ env0 := by decide
  rw [hone]
  by_cases he1 : e = env1
  · simp [he1, statuses, h01.symm, h21.symm]
  · by_cases he2 : e = env2
    · simp [he2, statuses, h20, h21]
    · simp [he1, he2, statuses, Ne.symm he1]

theorem mark (h : Scene b 3 (statuses .running s1 .running) (running (some env0) a1) k) :
    ∃ k', step k (call bootcpu 3 envid2 0 0 0 0) = some k' ∧ k'.dirs = k.dirs ∧
      Scene b 3 (statuses .running s1 .dying) (running (some env0) a1) k' := by
  obtain ⟨d, hd⟩ := h.dir (e := env0) (by decide)
  obtain ⟨k', hstep, s⟩ := step_mark (h.user_eq (c := bootcpu) (by decide)) (h.status_eq env0)
    hd (h.child (by decide)) (by decide) (h.status_eq env2)
  exact ⟨k', hstep, s.dirs_eq.trans (dirs_setEnv (by rfl)), ((h.setStatus env2 .dying).congr (statuses_env2 _ _ _ _) fun _ => rfl).same s⟩

end Scene

/-- The second CPU runs `env2`, which is free; its page directory `d` is the next page that
`page_alloc` hands out, and its slot the next that `env_alloc` does. -/
structure Orphan (b : Base) (d : Nat) (k : Kernel) : Prop extends
    Scene b 2 (statuses .running .runnable .free) (running (some env0) (some env2)) k where
  pages : ∃ q l, Spaces b k.toPhys k.dirs ∅ (d :: q :: l)
  nodir : k.dirs env2 = none
  child : (k.envs env2).envParentId = envid0
  list : k.envFreeList = some env2
  cr3 : (k.cpus cpu1).cr3 = d
  own : k.dirs env0 = some (k.cpus bootcpu).cr3

theorem released_dirs (k : Kernel) (e : EnvIx) (m : Phys) :
    (released k e m).dirs = Function.update k.dirs e none := by
  funext e'
  by_cases h : e' = e
  · rw [h, Function.update_self]
    exact congrArg Env.envPgdir (envs_setEnv_self _ _ _)
  · rw [Function.update_of_ne h]
    exact congrArg Env.envPgdir (envs_setEnv_of_ne _ _ h)

theorem released_status (k : Kernel) (e e' : EnvIx) (m : Phys) :
    (released k e m).status e' = if e' = e then .free else k.status e' := by
  by_cases h : e' = e
  · rw [if_pos h, h]
    exact congrArg Env.envStatus (envs_setEnv_self _ _ _)
  · rw [if_neg h]
    exact congrArg Env.envStatus (envs_setEnv_of_ne _ _ h)

theorem Scene.orphan {b : Base} {k : Kernel} {d : Nat}
    (h : Scene b 3 (statuses .running .runnable .dying) (running (some env0) (some env2)) k)
    (hd : k.dirs env2 = some d) (hcr3 : (k.cpus cpu1).cr3 = d) :
    ∃ k', step k (call bootcpu 3 envid2 0 0 0 0) = some k' ∧ Orphan b d k' := by
  obtain ⟨d₀, hd₀⟩ := h.dir (e := env0) (by decide)
  obtain ⟨q, l, hsp⟩ := h.spaces
  obtain ⟨m, l', hvm, hsp', hfewer, -, -, hhead⟩ := hsp.envFreeVm hd fun q => h.counted.le q
  have hu := h.user_eq (c := bootcpu) (by decide)
  have hrun : k.status env2 ≠ .running := by
    rw [h.status_eq]
    decide
  obtain ⟨k', hstep, s⟩ := step_free hu (h.status_eq env0) hd₀ (h.child (by decide)) (by decide) hrun
    hd hvm
  obtain ⟨hcpus, hown⟩ := step_cpus hu (by rw [h.status_eq]; decide) hstep
  have hother : ∀ {e}, e ≠ env2 → (released k env2 m).envs e = k.envs e :=
    fun he => envs_setEnv_of_ne _ _ he
  have hparent : ((released k env2 m).envs env2).envParentId = (k.envs env2).envParentId := by
    change ((Kernel.setEnv { k with toPhys := m } env2 { k.envs env2 with
      envPgdir := none, envStatus := .free, envLink := k.envFreeList }).envs env2).envParentId = _
    rw [envs_setEnv_self]
  have hdirs := released_dirs k env2 m
  have hne : ∀ {e : EnvIx}, e.val < 2 → e ≠ env2 := by
    rintro e he rfl
    exact absurd he (by decide)
  -- a page that was free before is still free, and it is not the directory
  have hpages : ∃ q' l'', Spaces b (released k env2 m).toPhys (released k env2 m).dirs ∅
      (d :: q' :: l'') := by
    have hq := hsp.free.mem_pool_of_head
    have hqd : q ≠ d := by
      rintro rfl
      exact hsp.free.target_ne List.mem_cons_self (.dir env2) hd
    have hmem : q ∈ l' := by
      refine hsp'.free.balanced.mem_free.2 ⟨hq.1, refCount_eq_zero_iff.2 fun r hr => ?_, by simp⟩
      exact hsp.free.target_ne List.mem_cons_self r (hfewer hr)
    rw [hdirs]
    have hchain := hsp'.free.chain
    rw [hhead] at hchain
    cases hchain with
    | @cons _ l'' hchain =>
      cases l'' with
      | nil =>
        rw [List.mem_singleton] at hmem
        exact absurd hmem hqd
      | cons q' l'' => exact ⟨q', l'', hsp'⟩
  have hscene : Scene b 2 (statuses .running .runnable .free) (running (some env0) (some env2))
      (released k env2 m) := by
    refine ⟨h.kern_eq, ?_, ?_, ?_, h.curenv_eq, h.started, ?_, ?_, fun hn => absurd hn (by decide)⟩
    · obtain ⟨q', l'', hl⟩ := hpages
      exact ⟨d, _, hl⟩
    · rw [hdirs]
      exact fun r r' p hr hr' => h.unshared (hfewer hr) (hfewer hr')
    · intro e
      rw [released_status, h.status_eq, statuses_env2]
    · intro e he
      rw [hdirs, Function.update_of_ne (hne he)]
      exact h.dir (by omega)
    · intro e he
      rw [hother (hne he)]
      exact h.id (by omega)
  refine ⟨k', hstep, hscene.same s, ?_, ?_, ?_, s.freeList_eq, ?_, hown ?_⟩
  · obtain ⟨q', l'', hl⟩ := hpages
    exact ⟨q', l'', s.spaces hl⟩
  · rw [s.dirs_eq, hdirs, Function.update_self]
  · rw [s.field Env.envParentId fun _ _ _ _ => rfl, hparent, h.parent (by decide)]
  · rw [hcpus (by decide), hcr3]
  · rw [s.curenv_eq]
    exact h.curenv_eq bootcpu

def destroyTwice : List Event :=
  [.start bootcpu, .start cpu1, call bootcpu 7 0 0 0 0 0, call bootcpu 8 envid2 2 0 0 0,
    call cpu1 11 0 0 0 0 0, call bootcpu 3 envid2 0 0 0 0, call bootcpu 3 envid2 0 0 0 0]

theorem Starting.orphan {G : Kernel → Event → Prop} {b : Base} {k₀ : Kernel} {p q : Nat} {l : List Nat}
    (h : Starting demo b k₀ 2 (p :: q :: l)) (hstart : ∀ {k c}, Counted k → G k (.start c))
    (hcall : ∀ {k c no a1 a2 a3 a4 a5}, Counted k → Sysno.ofWord no ≠ some .ipcTrySend →
      G k (call c no a1 a2 a3 a4 a5)) :
    ∃ k d, Run step G k₀ destroyTwice k ∧ Orphan b d k := by
  obtain ⟨k₁, k₂, k₃, h₁, hc₁, h₂, hc₂, h₃, w₃⟩ := h.scene
  obtain ⟨k₄, h₄, w₄⟩ := w₃.setRunnable
  obtain ⟨k₅, h₅, w₅⟩ := w₄.yield
  obtain ⟨k₆, h₆, hdirs, w₆⟩ := w₅.mark
  have hdir := (step_cpus (w₄.user_eq (c := cpu1) (by decide)) (by rw [w₄.status_eq]; decide) h₅).2
    (w₅.curenv_eq cpu1)
  have hcpu : k₆.cpus cpu1 = k₅.cpus cpu1 :=
    (step_cpus (w₅.user_eq (c := bootcpu) (by decide)) (by rw [w₅.status_eq]; decide) h₆).1 (by decide)
  obtain ⟨k₇, h₇, o⟩ := w₆.orphan ((congrFun hdirs env2).trans hdir) (by rw [hcpu])
  refine ⟨k₇, _, ?_, o⟩
  refine .snoc (.snoc (.snoc (.snoc (.snoc (.snoc (.single (hstart h.counted) h₁) (hstart hc₁) h₂)
    (hcall hc₂ ?_) h₃) (hcall w₃.counted ?_) h₄) (hcall w₄.counted ?_) h₅) (hcall w₅.counted ?_) h₆)
    (hcall w₆.counted ?_) h₇ <;> decide

theorem step_stop {k : Kernel} {c : Cpu} {cur e : EnvIx} {d : Nat} (hu : k.user c = some cur)
    (hst : k.status cur ≠ .dying)
    (he : ∀ e', (k.setStatus cur .notRunnable).status e' = .runnable ↔ e' = e)
    (hd : k.dirs e = some d) :
    ∃ k₁ k', Same (k.setStatus cur .notRunnable) k₁ ∧ step k (call c 8 0 4 0 0 0) = some k' ∧
      Same (dispatch k₁ c e) k' := by
  have hno : Sysno.ofWord 8 = some .envSetStatus := by decide
  have hcode : ¬((4 : Word) = EnvStatus.runnable.code) := by decide
  have hok : ¬((4 : Word) ≠ EnvStatus.runnable.code ∧ (4 : Word) ≠ EnvStatus.notRunnable.code) := by
    decide
  rw [call, step_call_eq hu hst]
  have s₁ := (Same.frame k cur (callFrame 8 0 4 0 0 0)).setStatus (e := cur) .notRunnable
  have hcur : (k.setEnv cur { k.envs cur with envTf := callFrame 8 0 4 0 0 0 }).curenv c = some cur :=
    user_curenv hu
  generalize k.setEnv cur { k.envs cur with envTf := callFrame 8 0 4 0 0 0 } = k₁ at s₁ hcur ⊢
  have hcall : syscall k₁ c cur noInputs 8 0 4 0 0 0 =
      some (k₁.setStatus cur .notRunnable, .ret 0) := by
    simp only [syscall, hno, sysEnvSetStatus, envid2env_zero hcur, if_neg hok, if_neg hcode]
  rw [hcall, Option.bind_some]
  simp only [callReturn]
  generalize hk₂ : k₁.setStatus cur .notRunnable = k₂ at s₁
  have hcur₂ : k₂.curenv c = some cur := by
    rw [← hk₂]
    exact hcur
  generalize { (k₂.envs cur).envTf with
    tfRegs := { (k₂.envs cur).envTf.tfRegs with regEax := 0 } } = tf
  have s₂ := s₁.trans (Same.frame k₂ cur tf)
  have hcur₃ : (k₂.setEnv cur { k₂.envs cur with envTf := tf }).curenv c = some cur := hcur₂
  generalize k₂.setEnv cur { k₂.envs cur with envTf := tf } = k₃ at s₂ hcur₃ ⊢
  have hpick : ∀ e', k₃.status e' = .runnable ↔ e' = e := by
    intro e'
    rw [s₂.status_eq]
    exact he e'
  have hst₃ : k₃.status cur ≠ .running := by
    rw [s₂.status_eq, status_setStatus, if_pos rfl]
    decide
  have hd₃ : k₃.dirs e = some d := by
    rw [s₂.dirs_eq, Kernel.setStatus, dirs_setEnv (by rfl)]
    exact hd
  obtain ⟨k', hy, s'⟩ := schedYield_pick (k := k₃) (c := c) (schedPick_unique hpick _) hd₃
  refine ⟨k₃, k', s₂, ?_, s'⟩
  rw [trapReturn, hcur₃]
  simp only [if_neg hst₃]
  exact hy

/-- A free environment that has made itself live again, still the next that `env_alloc` takes;
the second CPU is back in the second program. -/
structure Revenant (b : Base) (k : Kernel) : Prop extends
    Scene b 2 (statuses .running .running .notRunnable) (running (some env0) (some env1)) k where
  nodir : k.dirs env2 = none
  child : (k.envs env2).envParentId = envid0
  list : k.envFreeList = some env2

theorem Orphan.revenant {b : Base} {d : Nat} {k : Kernel} (h : Orphan b d k) :
    ∃ k', step k (call cpu1 8 0 4 0 0 0) = some k' ∧ Revenant b k' := by
  have hscene := (h.toScene.setStatus env2 .notRunnable).congr (statuses_env2 _ _ _ _) fun _ => rfl
  obtain ⟨d₁, hd₁⟩ := h.dir (e := env1) (by decide)
  have hrun : ∀ e, (k.setStatus env2 .notRunnable).status e = .runnable ↔ e = env1 := by
    intro e
    rw [hscene.status_eq]
    exact statuses_runnable_env1 _ _ e (by decide) (by decide)
  obtain ⟨k₁, k', s₁, hstep, s'⟩ := step_stop (h.user_eq (c := cpu1) (by decide))
    (by rw [h.status_eq]; decide) hrun hd₁
  have hdirs : (k.setStatus env2 .notRunnable).dirs = k.dirs := dirs_setEnv (by rfl)
  refine ⟨k', hstep, (((hscene.same s₁).dispatch cpu1 env1).same s').congr (fun e => ?_)
    (running_cpu1 _ _ _), ?_, ?_, ?_⟩
  · have htwo : running (some env0) (some env2) cpu1 = some env2 := rfl
    have hst : statuses .running .runnable .notRunnable env2 = .notRunnable := rfl
    rw [htwo]
    refine Eq.trans ?_ (statuses_env1 .running .runnable .notRunnable .running e)
    split
    · rfl
    · rw [if_neg]
      rintro ⟨he, hrun⟩
      cases he
      rw [hst] at hrun
      cases hrun
  · rw [s'.dirs_eq, dispatch_dirs, s₁.dirs_eq, hdirs, h.nodir]
  · rw [s'.field Env.envParentId (fun _ _ _ _ => rfl), dispatch_field Env.envParentId (fun _ _ => rfl),
      s₁.field Env.envParentId (fun _ _ _ _ => rfl), Kernel.setStatus,
      envs_setEnv_field Env.envParentId k env2 (by rfl), h.child]
  · rw [s'.freeList_eq, (dispatch_rest _ _ _).2.2, s₁.freeList_eq]
    exact h.list

theorem Revenant.fork {b : Base} {k : Kernel} (h : Revenant b k) :
    ∃ k', step k (call cpu1 7 0 0 0 0 0) = some k' ∧ (k'.envs env2).envParentId = envid1 := by
  obtain ⟨p, l, hsp⟩ := h.spaces
  obtain ⟨m, hvm, -⟩ := hsp.envSetupVm_cons h.nodir
  obtain ⟨d, hd⟩ := h.dir (e := env1) (by decide)
  rw [← h.kern_eq] at hvm
  obtain ⟨k', hstep, s⟩ := step_exofork (h.user_eq (c := cpu1) (by decide)) (h.status_eq env1) hd h.list
    hvm (by decide)
  have hself : ((forked k env1 env2 m p).envs env2).envParentId = (k.envs env1).envId :=
    congrArg Env.envParentId (envs_setEnv_self _ _ _)
  refine ⟨k', hstep, ?_⟩
  rw [s.field Env.envParentId (fun _ _ _ _ => rfl), hself, h.id (by decide)]
  decide

/-! The page directory of the destroyed child comes back as a page of its parent. -/

section

variable {b : Base} {m : Phys} {ds : Dirs} {l : List Nat} {e : EnvIx} {d pp q : Nat} {va perm : Word}

theorem Spaces.allocMap (h : Spaces b m ds ∅ (pp :: q :: l)) (hu : Unshared (target m ds))
    (hd : ds e = some d) (hva : va < utop) (hperm : permOk perm) :
    ∃ m' l', Kern.pageInsert (m.unlink pp) (some d) pp va perm = some (m', 0) ∧
      Spaces b (m'.clear pp) ds ∅ l' ∧ Unshared (target (m'.clear pp) ds) ∧
      target (m'.clear pp) ds (.pte e (dirIx va hva) (tabIx va)) = some pp ∧
      entry (m'.clear pp) ds e (dirIx va hva) (tabIx va) = page2pa pp ||| perm ||| pteP := by
  obtain ⟨hpool, -, -⟩ := h.free.mem_pool_of_head
  have hpp := h.free.target_ne List.mem_cons_self
  have hnl := (List.nodup_cons.1 h.free.chain.nodup).1
  have hcount : ∀ p, refCount (target (m.unlink pp) ds) p ≤ 65535 := by
    intro p
    rw [target_unlink]
    exact (hu.refCount_le p).trans (by decide)
  rcases h.unlink.pageInsert hd hva hpool hnl (fun r _ => hpp r) hperm.lt hperm.2.1
    (fun p _ => hcount p) with ⟨hl, -⟩ | ⟨m', l', heq, hsp, -, hins⟩
  · cases hl
  · rw [Set.insert_sdiff_self_of_notMem (Set.notMem_empty pp)] at hsp
    obtain ⟨f, hf, htgt⟩ := hins.target_eq
    rw [target_unlink] at hf
    have hpte : target m' ds (.pte e (dirIx va hva) (tabIx va)) = some pp := by
      rw [htgt, Function.update_self]
    have hdata := hsp.setPage_data hpte fun _ => 0
    refine ⟨m', l', heq, hdata.spaces, ?_, ?_, ?_⟩
    · rw [clear, hdata.target_eq, htgt]
      rcases hf with rfl | ⟨t, ht, rfl⟩
      · exact hu.update hpp
      · refine (hu.update (h.free.target_ne (List.mem_cons_of_mem _ ht))).update ?_
        intro r hr
        by_cases hrr : r = .pde e (dirIx va hva)
        · rw [hrr, Function.update_self] at hr
          cases hr
          exact hnl ht
        · rw [Function.update_of_ne hrr] at hr
          exact hpp r hr
    · rw [clear, hdata.target_eq, hpte]
    · rw [clear, hdata.entry_eq, hins.entry_eq, if_pos ⟨rfl, rfl, rfl⟩]

theorem step_pageAlloc {k : Kernel} {c : Cpu} {cur : EnvIx} (hu : k.user c = some cur)
    (hst : k.status cur = .running) (hd : k.dirs cur = some d) (hva : va < utop)
    (hperm : permOk perm) (hsp : Spaces b k.toPhys k.dirs ∅ (pp :: l))
    (hins : pageInsert (k.unlink pp) (some d) pp va perm = some (m, 0))
    (hlt : pp < m.npages) (hnp : m.npages ≤ 2 ^ 20) :
    ∃ k', step k (call c 4 0 va perm 0 0) = some k' ∧ Same { k with toPhys := m.clear pp } k' := by
  have hPU : ¬(perm &&& pteU = 0 ∨ perm &&& pteP = 0) := by
    rintro (h | h)
    · exact hperm.2.1 h
    · exact hperm.1 h
  have hbits : ¬(perm &&& ~~~(pteU ||| pteP ||| pteW ||| pteAvail) ≠ 0) := fun h => h hperm.2.2
  have hno : Sysno.ofWord 4 = some .pageAlloc := by decide
  refine step_ret (r := 0) hu hst (fun {k₁} s₁ => ⟨_, ?_, s₁.phys (m.clear pp)⟩) (user_curenv hu) hst hd
  have hcur : k₁.curenv c = some cur := (s₁.curenv_eq c).trans (user_curenv hu)
  have hd₁ : (k₁.envs cur).envPgdir = some d := (congrFun s₁.dirs_eq cur).trans hd
  have halloc : pageAlloc k₁.toPhys false = some (k.unlink pp, some pp) := by
    rw [s₁.toPhys_eq]
    exact hsp.pageAlloc_cons false
  simp only [syscall, hno]
  rw [sysPageAlloc, if_neg (BitVec.not_le.2 hva), if_neg hPU, if_neg hbits, envid2env_zero hcur]
  simp only [halloc, Option.bind_eq_bind, Option.bind_some, hd₁, hins, slt_zero, Bool.false_eq_true,
    if_false, page2kva_eq hlt hnp]
  rfl

end

/-- The parent has the directory `d` of its destroyed child mapped at 0x400000, for writing; the
second CPU still translates through it. -/
structure Handed (b : Base) (d : Nat) (k : Kernel) : Prop where
  spaces : ∃ l, Spaces b k.toPhys k.dirs ∅ l
  unshared : Unshared (target k.toPhys k.dirs)
  user0 : k.user bootcpu = some env0
  user1 : k.user cpu1 = some env2
  own : k.dirs env0 = some (k.cpus bootcpu).cr3
  cr3 : (k.cpus cpu1).cr3 = d
  nodir : k.dirs env2 = none
  page : ∀ hva : (0x400000 : Word) < utop,
    target k.toPhys k.dirs (.pte env0 (dirIx 0x400000 hva) (tabIx 0x400000)) = some d ∧
    entry k.toPhys k.dirs env0 (dirIx 0x400000 hva) (tabIx 0x400000) = page2pa d ||| 7 ||| pteP

theorem Orphan.handed {b : Base} {d : Nat} {k : Kernel} (h : Orphan b d k) :
    ∃ k', step k (call bootcpu 4 0 0x400000 7 0 0) = some k' ∧ Handed b d k' ∧
      ∀ i, k'.mem d i = 0 := by
  obtain ⟨q, l, hsp⟩ := h.pages
  have hva : (0x400000 : Word) < utop := by decide
  have hperm : permOk 7 := ⟨by decide, by decide, by decide⟩
  have hu := h.user_eq (c := bootcpu) (by decide)
  obtain ⟨m, l', hins, hsp', hun, htgt, hent⟩ := hsp.allocMap h.unshared h.own hva hperm
  have hlt : d < m.npages := hsp'.shape.lt_npages hsp.free.mem_pool_of_head.1
  obtain ⟨k', hstep, s⟩ := step_pageAlloc hu (h.status_eq env0) h.own hva hperm hsp hins hlt
    hsp'.shape.npages_le
  obtain ⟨hcpus, hown⟩ := step_cpus hu (by rw [h.status_eq]; decide) hstep
  have hdirs : k'.dirs = k.dirs := s.dirs_eq
  have hphys : k'.toPhys = m.clear d := s.toPhys_eq
  have huser : ∀ c, k'.user c = k.user c := by
    intro c
    rw [user, user, s.cpuStatus_eq, s.curenv_eq]
    rfl
  refine ⟨k', hstep, ⟨⟨l', ?_⟩, ?_, (huser _).trans hu, ?_, hown ?_, ?_, ?_, fun _ => ⟨?_, ?_⟩⟩, ?_⟩
  · rw [hphys, hdirs]
    exact hsp'
  · rw [hphys, hdirs]
    exact hun
  · exact (huser _).trans (h.user_eq (c := cpu1) (by decide))
  · rw [s.curenv_eq]
    exact h.curenv_eq bootcpu
  · rw [hcpus (by decide), h.cr3]
  · rw [hdirs, h.nodir]
  · rw [hphys, hdirs]
    exact htgt
  · rw [hphys, hdirs]
    exact hent
  · intro i
    rw [hphys]
    exact mem_clear_self m d i

namespace Handed

variable {b : Base} {d : Nat} {k : Kernel}

theorem counted (h : Handed b d k) : Counted k :=
  fun p => (h.unshared.refCount_le p).trans (by decide)

theorem pool (h : Handed b d k) : d ∈ b.pool := by
  obtain ⟨l, hsp⟩ := h.spaces
  exact (hsp.data_page (h.page (by decide)).1).1

theorem store (h : Handed b d k) (va : Word) (hd : pdx va = 1) (ht : ptx va = 0) (v : Byte) :
    ∃ k', step k (.store bootcpu va v) = some k' ∧ Handed b d k' ∧
      k'.mem = (k.toPhys.storeByte d (pgoff va) v).mem := by
  obtain ⟨l, hsp⟩ := h.spaces
  have h0 : (0x400000 : Word) < utop := by decide
  obtain ⟨htgt, hent⟩ := h.page h0
  have hva : va < utop := by
    rw [← pdx_lt_iff, hd]
    decide
  have hpdx : pdx 0x400000 = 1 := by decide
  have hptx : ptx 0x400000 = 0 := by decide
  have hi : dirIx va hva = dirIx 0x400000 h0 := Fin.ext (hd.trans hpdx.symm)
  have hj : tabIx va = tabIx 0x400000 := Fin.ext (ht.trans hptx.symm)
  have hbits : (page2pa d ||| 7 ||| pteP) &&& (pteU ||| pteW) = pteU ||| pteW := by
    rw [entry_and (by decide)]
    decide
  have htr : translate k.toPhys (k.cpus bootcpu).cr3 va (pteU ||| pteW) = some d := by
    refine hsp.translate_eq h.own hva ?_ ?_ (by decide) (by decide)
    · rw [hi, hj, htgt]
    · rw [hi, hj, hent, hbits]
  have hlt : d < k.toPhys.npages := hsp.shape.lt_npages h.pool
  have hst : mmuStore k.toPhys (k.cpus bootcpu).cr3 va (pteU ||| pteW) v =
      some (k.toPhys.storeByte d (pgoff va) v) := by
    rw [mmuStore, htr, Option.map_some, if_pos hlt]
  obtain ⟨hdata, -⟩ := hsp.mmuStore h.own (by decide) (.inr (by decide)) hst
  refine ⟨{ k with toPhys := k.toPhys.storeByte d (pgoff va) v }, ?_,
    ⟨⟨l, hdata.spaces⟩, ?_, h.user0, h.user1, h.own, h.cr3, h.nodir, fun _ => ⟨?_, ?_⟩⟩, rfl⟩
  · have hne : k.user bootcpu ≠ none := by
      rw [h.user0]
      rintro ⟨⟩
    simp only [step]
    rw [if_pos hne, hst]
    rfl
  · change Unshared (target (k.toPhys.storeByte d (pgoff va) v) k.dirs)
    rw [hdata.target_eq]
    exact h.unshared
  · change target (k.toPhys.storeByte d (pgoff va) v) k.dirs _ = _
    rw [hdata.target_eq, htgt]
  · change entry (k.toPhys.storeByte d (pgoff va) v) k.dirs _ _ _ = _
    rw [hdata.entry_eq, hent]

def forging (d : Nat) : List Event :=
  [.store bootcpu 0x400004 ((pdeWord d).setWidth 8),
    .store bootcpu 0x400005 ((pdeWord d >>> 8).setWidth 8),
    .store bootcpu 0x400006 ((pdeWord d >>> 16).setWidth 8),
    .store bootcpu 0x400007 ((pdeWord d >>> 24).setWidth 8)]

theorem word_of_bytes (x w : Word) :
    (((((((x &&& ~~~((0xFF : Word) <<< 0)) ||| (w.setWidth 8).setWidth 32 <<< 0) &&&
      ~~~((0xFF : Word) <<< 8)) ||| ((w >>> 8).setWidth 8).setWidth 32 <<< 8) &&&
      ~~~((0xFF : Word) <<< 16)) ||| ((w >>> 16).setWidth 8).setWidth 32 <<< 16) &&&
      ~~~((0xFF : Word) <<< 24)) ||| ((w >>> 24).setWidth 8).setWidth 32 <<< 24 = w := by
  apply BitVec.eq_of_getLsbD_eq
  intro i hi
  interval_cases i <;> simp

theorem forge {G : Kernel → Event → Prop} (h : Handed b d k)
    (hstore : ∀ {k c va v}, Counted k → G k (.store c va v)) :
    ∃ k', Run step G k (forging d) k' ∧ Handed b d k' ∧ k'.mem d 1 = pdeWord d ∧
      k'.mem d 0 = k.mem d 0 := by
  obtain ⟨k₁, h₁, w₁, m₁⟩ := h.store 0x400004 (by decide) (by decide) ((pdeWord d).setWidth 8)
  obtain ⟨k₂, h₂, w₂, m₂⟩ := w₁.store 0x400005 (by decide) (by decide)
    ((pdeWord d >>> 8).setWidth 8)
  obtain ⟨k₃, h₃, w₃, m₃⟩ := w₂.store 0x400006 (by decide) (by decide)
    ((pdeWord d >>> 16).setWidth 8)
  obtain ⟨k₄, h₄, w₄, m₄⟩ := w₃.store 0x400007 (by decide) (by decide)
    ((pdeWord d >>> 24).setWidth 8)
  have o₁ : pgoff 0x400004 = 4 := by decide
  have o₂ : pgoff 0x400005 = 5 := by decide
  have o₃ : pgoff 0x400006 = 6 := by decide
  have o₄ : pgoff 0x400007 = 7 := by decide
  rw [o₁] at m₁
  rw [o₂] at m₂
  rw [o₃] at m₃
  rw [o₄] at m₄
  refine ⟨k₄, .snoc (.snoc (.snoc (.single (hstore h.counted) h₁) (hstore w₁.counted) h₂)
    (hstore w₂.counted) h₃) (hstore w₃.counted) h₄, w₄, ?_, ?_⟩
  · rw [m₄, storeByte_mem, if_pos rfl, m₃, storeByte_mem, if_pos rfl, m₂, storeByte_mem, if_pos rfl,
      m₁, storeByte_mem, if_pos rfl]
    exact word_of_bytes _ _
  · rw [m₄, storeByte_mem, if_neg (by decide), m₃, storeByte_mem, if_neg (by decide), m₂,
      storeByte_mem, if_neg (by decide), m₁, storeByte_mem, if_neg (by decide)]

theorem reach (h : Handed b d k) (h1 : k.mem d 1 = pdeWord d) (h0 : k.mem d 0 = 0) :
    ∃ k', step k (.store cpu1 0x401000 1) = some k' ∧ k'.mem d ≠ k.mem d := by
  obtain ⟨l, hsp⟩ := h.spaces
  have hd := b.lt h.pool
  have hpdx : pdx 0x401000 = 1 := by decide
  have hptx : ptx 0x401000 = 1 := by decide
  have hoff : pgoff 0x401000 = 0 := by decide
  have hP : pdeWord d &&& pteP ≠ 0 := (present_eq_some_iff.1 (present_pdeWord hd)).1
  have hf : pdeWord d &&& (pteU ||| pteW) = pteU ||| pteW := by
    rw [pdeWord_and (by decide)]
    decide
  have hwalk : mmuWalk k.toPhys d 0x401000 = some (pdeWord d, pdeWord d) := by
    simp only [mmuWalk, hpdx, hptx, h1, pgnum_pdeWord hd]
    rw [if_neg hP, if_neg hP]
  have htr : translate k.toPhys (k.cpus cpu1).cr3 0x401000 (pteU ||| pteW) = some d := by
    rw [h.cr3, translate, hwalk]
    simp only
    rw [if_pos ⟨hf, hf⟩, pgnum_pdeWord hd]
  have hne : k.user cpu1 ≠ none := by
    rw [h.user1]
    rintro ⟨⟩
  refine ⟨{ k with toPhys := k.toPhys.storeByte d 0 1 }, ?_, fun heq => ?_⟩
  · simp only [step]
    rw [if_pos hne, mmuStore, htr, Option.map_some, if_pos (hsp.shape.lt_npages h.pool), hoff]
    rfl
  · have := congrFun heq 0
    change (k.toPhys.storeByte d 0 1).mem d 0 = _ at this
    rw [storeByte_mem, if_pos rfl, h0] at this
    exact absurd this (by decide)

end Handed

end Jos.Kern
