import Jos.Kern.Dispatch

/-! The calls that keep each environment on one CPU, and that every other step does.  The
kernel itself does not refuse the rest. -/

namespace Jos.Kern

open Lib Kernel

/-- A trap that meddles with no environment another CPU runs: it neither sets its status nor
wakes it with a message, and it destroys it only while it is not already marked to die. -/
structure DisciplinedCall (k : Kernel) (c : Cpu) (tf : Trapframe) : Prop where
  setStatus : tf.sysno = some .envSetStatus → ∀ {e}, envid2env k c tf.tfRegs.regEdx true = some e →
    ∀ c', c' ≠ c → k.curenv c' ≠ some e
  trySend : tf.sysno = some .ipcTrySend → ∀ {e}, envid2env k c tf.tfRegs.regEdx false = some e →
    (k.envs e).envIpcRecving = true → ∀ c', c' ≠ c → k.curenv c' ≠ some e
  destroy : tf.sysno = some .envDestroy ∨ tf.sysno = some .envSetTrapframe →
    ∀ {e}, envid2env k c tf.tfRegs.regEdx true = some e →
    ∀ c', c' ≠ c → k.curenv c' = some e → k.status e = .running

def Disciplined (k : Kernel) : Event → Prop
  | .trap c tf _ => DisciplinedCall k c tf
  | _ => True

def Event.cpu : Event → Option Cpu
  | .start c => some c
  | .trap c _ _ => some c
  | .irq c _ => some c
  | .store c _ _ => some c
  | .device _ => none

section

variable {c : Cpu} {k₀ k k' : Kernel} {e cur : EnvIx} {tf : Trapframe}

theorem envid2env_status {envid : Word} {checkperm : Bool}
    (h : envid2env k c envid checkperm = some e)
    (hcur : ∀ e, k.curenv c = some e → k.status e ≠ .free) : k.status e ≠ .free := by
  rw [envid2env] at h
  split at h
  · exact hcur e h
  · simp only at h
    split_ifs at h with h1 h2
    cases h
    exact fun hf => h1 (.inl hf)

theorem envid2env_congr (hc : k'.curenv c = k.curenv c)
    (h : ∀ e, k'.status e = k.status e ∧ (k'.envs e).envId = (k.envs e).envId ∧
      (k'.envs e).envParentId = (k.envs e).envParentId) (envid : Word) (checkperm : Bool) :
    envid2env k' c envid checkperm = envid2env k c envid checkperm := by
  simp only [envid2env, hc, (h _).1, (h _).2.1, (h _).2.2]

theorem status_frame (k : Kernel) (e e' : EnvIx) (tf : Trapframe) :
    (k.setEnv e { k.envs e with envTf := tf }).status e' = k.status e' :=
  envs_setEnv_field Env.envStatus k e (by rfl) e'

theorem recving_frame (k : Kernel) (e e' : EnvIx) (tf : Trapframe) :
    ((k.setEnv e { k.envs e with envTf := tf }).envs e').envIpcRecving = (k.envs e').envIpcRecving :=
  envs_setEnv_field Env.envIpcRecving k e (by rfl) e'

theorem envid2env_frame (k : Kernel) (c : Cpu) (e : EnvIx) (tf : Trapframe) (envid : Word) (b : Bool) :
    envid2env (k.setEnv e { k.envs e with envTf := tf }) c envid b = envid2env k c envid b :=
  envid2env_congr (by rfl) (fun e' => ⟨status_frame k e e' tf, envs_setEnv_field Env.envId k e (by rfl) e',
    envs_setEnv_field Env.envParentId k e (by rfl) e'⟩) envid b

theorem DisciplinedCall.frame (h : DisciplinedCall k c tf) (tf' : Trapframe) :
    DisciplinedCall (k.setEnv e { k.envs e with envTf := tf' }) c tf := by
  refine ⟨?_, ?_, ?_⟩
  · intro hno e' he'
    rw [envid2env_frame] at he'
    exact h.setStatus hno he'
  · intro hno e' he' hrecv
    rw [envid2env_frame] at he'
    rw [recving_frame] at hrecv
    exact h.trySend hno he' hrecv
  · intro hno e' he' c' hc' hcur
    rw [envid2env_frame] at he'
    rw [status_frame]
    exact h.destroy hno he' c' hc' hcur

namespace Inside

theorem frame (h : Inside c k) (tf' : Trapframe) :
    Inside c (k.setEnv e { k.envs e with envTf := tf' }) :=
  h.congr rfl (envs_setEnv_field Env.envStatus k e rfl) (dirs_setEnv rfl) rfl
    (envs_setEnv_field Env.envLink k e rfl)

theorem phys (h : Inside c k) (m : Phys) : Inside c { k with toPhys := m } :=
  h.congr rfl (fun _ => rfl) rfl rfl fun _ => rfl

theorem ipcDeliver (h : Inside c k) {value : Word} (hne : ∀ c', c' ≠ c → k.curenv c' ≠ some e)
    (hnf : k.status e ≠ .free) : Inside c (ipcDeliver k cur e value) := by
  refine Inside.note (h.setEnv hne ?_ ?_ (.inl ?_) hnf) _ <;> rfl

theorem allocated (h : Inside c k) {parentId : Word} (ha : Allocated k parentId e k') :
    Inside c k' ∧ ∀ c', k'.curenv c' ≠ some e := by
  obtain ⟨l, hchain, hfree⟩ := h.list
  rw [ha.head] at hchain
  cases hchain with
  | @cons _ l hchain =>
    have hst : k.status e = .free := hfree e List.mem_cons_self
    have hel : e ∉ l := (List.nodup_cons.1 (Chain.cons hchain).nodup).1
    have hcur : ∀ c', k'.curenv c' = k.curenv c' := by
      intro c'
      rw [curenv, ha.cpus_eq, curenv]
    have hne : ∀ c', k.curenv c' ≠ some e := by
      intro c' hc'
      by_cases hcc : c' = c
      · subst hcc
        exact (h.self hc').2 hst
      · rcases h.other hcc hc' with hs | hs <;> rw [hst] at hs <;> cases hs
    have hstatus : ∀ {e'}, e' ≠ e → k'.status e' = k.status e' := by
      intro e' hee
      rw [status, ha.envs_eq hee, status]
    have hself : k'.status e = .runnable := by
      obtain ⟨_, henv⟩ := ha.envs_self
      rw [status, henv]
    have hee : ∀ {c' e'}, k.curenv c' = some e' → e' ≠ e := by
      rintro c' e' hc' rfl
      exact hne c' hc'
    refine ⟨⟨⟨?_, ?_, ?_, ?_, ⟨l, ?_, ?_⟩, ?_, ?_⟩, ?_⟩, fun c' => by rw [hcur]; exact hne c'⟩
    · intro c₁ c₂ e'
      rw [hcur, hcur]
      exact h.inj
    · intro c' e' hc'
      rw [hcur]
      intro he'
      rw [hstatus (hee he')]
      exact h.other hc' he'
    · intro e' he'
      by_cases heq : e' = e
      · subst heq
        rw [hself] at he'
        rcases he' with he' | he' <;> cases he'
      · rw [hstatus heq] at he'
        simp only [hcur]
        exact h.placed he'
    · intro c' e'
      rw [hcur, ha.cpus_eq]
      intro he'
      rw [dirs, ha.envs_eq (hee he')]
      exact h.cr3 he'
    · have hlink : (fun e' => (k'.envs e').envLink) = fun e' => (k.envs e').envLink := by
        funext e'
        by_cases heq : e' = e
        · subst heq
          obtain ⟨_, henv⟩ := ha.envs_self
          rw [henv]
        · rw [ha.envs_eq heq]
      rw [hlink, ha.freeList_eq]
      exact hchain
    · intro e' he'
      have heq : e' ≠ e := by
        rintro rfl
        exact hel he'
      rw [hstatus heq]
      exact hfree e' (List.mem_cons_of_mem _ he')
    · intro c'
      rw [hcur, ha.cpus_eq]
      exact h.asleep
    · rw [ha.cpus_eq]
      exact h.awake
    · intro e'
      rw [hcur]
      intro he'
      rw [hstatus (hee he')]
      exact h.self he'

theorem ran (h : Inside c k) (he : k.status e = .runnable ∨ k.curenv c = some e)
    (hr : Ran k c e k') : Dispatched k' := by
  have hother : ∀ {c' e'}, c' ≠ c → k.curenv c' = some e' → e' ≠ e ∧ k.curenv c ≠ some e' := by
    intro c' e' hcc hc'
    refine ⟨?_, fun hc => hcc (h.inj hc' hc)⟩
    rintro rfl
    rcases he with he | he
    · rcases h.other hcc hc' with hs | hs <;> rw [he] at hs <;> cases hs
    · exact hcc (h.inj hc' he)
  have hcur : ∀ {c' e'}, k'.curenv c' = some e' →
      (c' = c ∧ e' = e) ∨ (c' ≠ c ∧ k.curenv c' = some e') := by
    intro c' e' hc'
    by_cases hcc : c' = c
    · subst hcc
      rw [hr.curenv_self] at hc'
      exact .inl ⟨rfl, (Option.some.inj hc').symm⟩
    · rw [curenv, hr.cpus_eq hcc] at hc'
      exact .inr ⟨hcc, hc'⟩
  have hnf : k.status e ≠ .free := by
    rcases he with he | he
    · rw [he]
      decide
    · exact (h.self he).2
  refine ⟨?_, ?_, ?_, ?_, h.list.congr hr.freeList_eq ?_ ?_, ?_⟩
  · intro c₁ c₂ e' h₁ h₂
    rcases hcur h₁ with ⟨rfl, rfl⟩ | ⟨hc₁, h₁⟩
    · rcases hcur h₂ with ⟨rfl, -⟩ | ⟨hc₂, h₂⟩
      · rfl
      · exact absurd rfl (hother hc₂ h₂).1
    · rcases hcur h₂ with ⟨rfl, rfl⟩ | ⟨hc₂, h₂⟩
      · exact absurd rfl (hother hc₁ h₁).1
      · exact h.inj h₁ h₂
  · intro c' e' hc'
    rw [hr.status_eq]
    rcases hcur hc' with ⟨-, rfl⟩ | ⟨hcc, hc'⟩
    · rw [if_pos rfl]
      exact .inl rfl
    · obtain ⟨hee, hne⟩ := hother hcc hc'
      rw [if_neg hee, if_neg (fun hh => hne hh.1)]
      exact h.other hcc hc'
  · intro e' hst
    by_cases hee : e' = e
    · subst hee
      exact ⟨c, hr.curenv_self⟩
    · rw [hr.status_eq, if_neg hee] at hst
      split at hst
      · rcases hst with hst | hst <;> cases hst
      · next hdem =>
        obtain ⟨c', hc'⟩ := h.placed hst
        have hcc : c' ≠ c := by
          rintro rfl
          rcases hst with hst | hst
          · exact hdem ⟨hc', hst⟩
          · exact (h.self hc').1 hst
        exact ⟨c', by rw [curenv, hr.cpus_eq hcc]; exact hc'⟩
  · intro c' e' hc'
    obtain ⟨_, _, _, halike⟩ := hr.alike e'
    have hdir : k'.dirs e' = k.dirs e' := by rw [dirs, halike, dirs]
    rw [hdir]
    rcases hcur hc' with ⟨rfl, rfl⟩ | ⟨hcc, hc'⟩
    · obtain ⟨d, hd, hcr3⟩ := hr.dir
      rw [hd, hcr3]
    · rw [hr.cpus_eq hcc]
      exact h.cr3 hc'
  · intro e'
    obtain ⟨_, _, _, halike⟩ := hr.alike e'
    rw [halike]
  · intro e' hst
    have hee : e' ≠ e := by
      rintro rfl
      exact hnf hst
    rw [hr.status_eq, if_neg hee, if_neg, hst]
    rintro ⟨-, hrun⟩
    rw [hst] at hrun
    cases hrun
  · intro c' hc'
    by_cases hcc : c' = c
    · subst hcc
      rw [hr.cpuStatus_self] at hc'
      exact absurd hc' h.awake
    · rw [hr.cpus_eq hcc] at hc'
      rw [curenv, hr.cpus_eq hcc]
      exact h.asleep hcc hc'

theorem halted (h : Inside c k) (hrun : ∀ e, k.curenv c = some e → k.status e ≠ .running)
    (hh : Halted k c k') : Dispatched k' := by
  have hcur : ∀ {c' e'}, k'.curenv c' = some e' → c' ≠ c ∧ k.curenv c' = some e' := by
    intro c' e' hc'
    have hcc : c' ≠ c := by
      rintro rfl
      rw [hh.curenv_self] at hc'
      cases hc'
    rw [curenv, hh.cpus_eq hcc] at hc'
    exact ⟨hcc, hc'⟩
  have hst : ∀ e', k'.status e' = k.status e' := by
    intro e'
    rw [status, hh.envs_eq, status]
  refine ⟨?_, ?_, ?_, ?_, h.list.congr hh.freeList_eq (fun e => by rw [hh.envs_eq])
    (fun e => by rw [hst]; exact id), ?_⟩
  · intro c₁ c₂ e' h₁ h₂
    exact h.inj (hcur h₁).2 (hcur h₂).2
  · intro c' e' hc'
    rw [hst]
    exact h.other (hcur hc').1 (hcur hc').2
  · intro e' he'
    rw [hst] at he'
    obtain ⟨c', hc'⟩ := h.placed he'
    have hcc : c' ≠ c := by
      rintro rfl
      rcases he' with he' | he'
      · exact hrun e' hc' he'
      · exact (h.self hc').1 he'
    exact ⟨c', by rw [curenv, hh.cpus_eq hcc]; exact hc'⟩
  · intro c' e' hc'
    obtain ⟨hcc, hc'⟩ := hcur hc'
    rw [dirs, hh.envs_eq, hh.cpus_eq hcc]
    exact h.cr3 hc'
  · intro c' hc'
    by_cases hcc : c' = c
    · subst hcc
      exact hh.curenv_self
    · rw [hh.cpus_eq hcc] at hc'
      rw [curenv, hh.cpus_eq hcc]
      exact h.asleep hcc hc'

end Inside

namespace Since

theorem frame (h : Since c k₀ k) (tf' : Trapframe) :
    Since c k₀ (k.setEnv e { k.envs e with envTf := tf' }) :=
  h.congr rfl (envs_setEnv_field Env.envStatus k e rfl) rfl

theorem phys (h : Since c k₀ k) (m : Phys) : Since c k₀ { k with toPhys := m } :=
  h.congr rfl (fun _ => rfl) rfl

theorem ipcDeliver (h : Since c k₀ k) {value : Word}
    (hne : ∀ c', c' ≠ c → k.curenv c' ≠ some e) : Since c k₀ (ipcDeliver k cur e value) :=
  (h.setEnv hne _).note (by simp)

theorem allocated (h : Since c k₀ k) {parentId : Word} (ha : Allocated k parentId e k')
    (hne : ∀ c', k.curenv c' ≠ some e) : Since c k₀ k' := by
  refine h.extend (fun _ => by rw [ha.cpus_eq]) ?_ [.alloc e] ha.trace_eq (by simp)
  intro c' e' _ hcur hst
  have hee : e' ≠ e := by
    rintro rfl
    exact hne c' hcur
  rw [status, ha.envs_eq hee]
  exact hst

theorem ran (h : Since c k₀ k) (hi : Inside c k)
    (he : k.status e = .runnable ∨ k.curenv c = some e) (hr : Ran k c e k') : Since c k₀ k' := by
  refine h.extend hr.cpus_eq ?_ [_] hr.trace_eq (by simp)
  intro c' e' hcc hcur hst
  have hee : e' ≠ e := by
    rintro rfl
    rcases he with he | he
    · rw [hst] at he
      cases he
    · exact hcc (hi.inj hcur he)
  rw [hr.status_eq, if_neg hee, if_neg, hst]
  rintro ⟨-, hrun⟩
  rw [hst] at hrun
  cases hrun

theorem halted (h : Since c k₀ k) (hh : Halted k c k') : Since c k₀ k' := by
  refine h.extend hh.cpus_eq ?_ [] hh.trace_eq (by simp)
  intro c' e' _ _ hst
  rw [status, hh.envs_eq]
  exact hst

end Since

theorem dispatchRules (k₀ : Kernel) (c : Cpu) (cur : EnvIx) (tf : Trapframe) :
    Rules c cur tf
      (fun k => Inside c k ∧ Since c k₀ k ∧ k.curenv c = some cur ∧ DisciplinedCall k c tf)
      (fun k => Inside c k ∧ Since c k₀ k ∧ k.curenv c = some cur)
      (fun k => Inside c k ∧ Since c k₀ k)
      (fun k => Dispatched k ∧ Since c k₀ k) where
  weaken := fun ⟨hi, hs, hc, _⟩ => ⟨hi, hs, hc⟩
  forget := fun ⟨hi, hs, _⟩ => ⟨hi, hs⟩
  current := fun ⟨_, _, hc⟩ => hc
  frame := fun tf' ⟨hi, hs, hc⟩ _ => ⟨hi.frame tf', hs.frame tf', hc⟩
  result := fun tf' ⟨hi, hs⟩ => ⟨hi.frame tf', hs.frame tf'⟩
  tick := fun ticks ⟨hi, hs, _⟩ =>
    ⟨hi.congr rfl (fun _ => rfl) rfl rfl fun _ => rfl, hs.congr rfl (fun _ => rfl) rfl⟩
  device := fun d ⟨hi, hs, hc⟩ =>
    ⟨hi.congr rfl (fun _ => rfl) rfl rfl fun _ => rfl, hs.congr rfl (fun _ => rfl) rfl, hc⟩
  upcall := by
    rintro k e func ⟨hi, hs, -⟩ - -
    exact ⟨hi.congr rfl (envs_setEnv_field Env.envStatus k e rfl) (dirs_setEnv rfl) rfl
      (envs_setEnv_field Env.envLink k e rfl),
      hs.congr rfl (envs_setEnv_field Env.envStatus k e rfl) rfl⟩
  fork := by
    rintro k k' r ⟨hi, hs, -⟩ - h
    rcases sysExofork_cases h with (rfl | ⟨m, -, rfl⟩) | ⟨e, k₁, tf', ha, -, rfl⟩
    · exact ⟨hi, hs⟩
    · exact ⟨hi.phys m, hs.phys m⟩
    · obtain ⟨hi₁, hne⟩ := hi.allocated ha
      have hcur : ∀ c', k.curenv c' ≠ some e := by
        intro c'
        have := hne c'
        rwa [curenv, ha.cpus_eq] at this
      have hst : k₁.status e ≠ .free := by
        obtain ⟨_, henv⟩ := ha.envs_self
        intro hf
        rw [status, henv] at hf
        cases hf
      have hs₁ := hs.allocated ha hcur
      exact ⟨hi₁.setEnv (fun c' _ => hne c') rfl rfl (.inr rfl) hst,
        hs₁.setEnv (fun c' _ => hne c') _⟩
  setStatus := by
    rintro k e st ⟨hi, hs, hc, hg⟩ hno he hst -
    have hne := hg.setStatus hno he
    have hnf := envid2env_status he fun e he => (hi.self he).2
    exact ⟨hi.setEnv hne rfl rfl hst hnf, hs.setEnv hne _⟩
  pageAlloc := by
    rintro k k' r ⟨hi, hs, -⟩ - h
    obtain ⟨-, m, rfl⟩ := sysPageAlloc_ret h
    exact ⟨hi.phys m, hs.phys m⟩
  pageMap := by
    rintro k k' r ⟨hi, hs, -⟩ - h
    obtain ⟨-, m, rfl⟩ := sysPageMap_ret h
    exact ⟨hi.phys m, hs.phys m⟩
  pageUnmap := by
    rintro k k' r ⟨hi, hs, -⟩ - h
    obtain ⟨-, m, rfl⟩ := sysPageUnmap_ret h
    exact ⟨hi.phys m, hs.phys m⟩
  trySend := by
    rintro k k' r ⟨hi, hs, hc, hg⟩ hno h
    cases sysIpcTrySend_step h with
    | refused => exact ⟨hi, hs⟩
    | plain he hrecv =>
      have hne := hg.trySend hno he hrecv
      exact ⟨hi.ipcDeliver hne (envid2env_status he fun e he => (hi.self he).2), hs.ipcDeliver hne⟩
    | dropped he hrecv =>
      have hne := hg.trySend hno he hrecv
      exact ⟨hi.ipcDeliver hne (envid2env_status he fun e he => (hi.self he).2), hs.ipcDeliver hne⟩
    | noMemory => exact ⟨hi.phys _, hs.phys _⟩
    | @mapped e _ m _ he hrecv =>
      have hst : ∀ e', (Kernel.setEnv { k with toPhys := m } e { k.envs e with
          envIpcPerm := tf.tfRegs.regEdi }).status e' = k.status e' :=
        envs_setEnv_field Env.envStatus { k with toPhys := m } e rfl
      have hi₁ : Inside c (Kernel.setEnv { k with toPhys := m } e { k.envs e with
          envIpcPerm := tf.tfRegs.regEdi }) := hi.congr rfl hst
        (dirs_setEnv (k := { k with toPhys := m }) rfl) rfl
        (envs_setEnv_field Env.envLink { k with toPhys := m } e rfl)
      have hnf := envid2env_status he fun e he => (hi.self he).2
      rw [← hst] at hnf
      have hne := hg.trySend hno he hrecv
      have hs₁ : Since c k₀ (Kernel.setEnv { k with toPhys := m } e { k.envs e with
          envIpcPerm := tf.tfRegs.regEdi }) := hs.congr rfl hst rfl
      exact ⟨hi₁.ipcDeliver hne hnf, hs₁.ipcDeliver hne⟩
  recv := by
    rintro k ⟨hi, hs, hc, -⟩ - -
    have hne : ∀ c', c' ≠ c → k.curenv c' ≠ some cur := fun c' hcc hc' => hcc (hi.inj hc' hc)
    refine ⟨Inside.note (hi.setEnv hne ?_ ?_ (.inr ?_) (hi.self hc).2) _,
      (hs.setEnv hne _).note (by simp)⟩ <;> rfl
  mark := by
    rintro k e ⟨hi, hs, hc, -⟩ - - hst hne
    exact ⟨hi.mark hst hne, hs.mark, hc⟩
  free := by
    rintro k k' e ⟨hi, hs, hc, hg⟩ hno he hst hne h
    have hf := envFree_freed h
    have hnowhere : ∀ c', k.curenv c' ≠ some e := by
      intro c' hc'
      by_cases hcc : c' = c
      · subst hcc
        exact hne hc'
      · exact hst (hg.destroy hno he c' hcc hc')
    have hnf := envid2env_status he fun e he => (hi.self he).2
    exact ⟨hi.freed hf hnowhere hnf, hs.freed hf fun c' _ => hnowhere c',
      by rw [hf.curenv_eq]; exact hc⟩
  exit := by
    rintro k k' ⟨hi, hs, hc⟩ h
    have hf := envFree_freed h
    have hne : ∀ c', c' ≠ c → k.curenv c' ≠ some cur := fun c' hcc hc' => hcc (hi.inj hc' hc)
    exact ⟨hi.exit hc (hi.self hc).2 hf, (hs.freed hf hne).setCurenv none⟩
  receive := fun _ ⟨hi, hs, hc, _⟩ _ _ => ⟨hi.phys _, hs.phys _, hc⟩
  push := fun _ _ ⟨hi, hs, hc⟩ _ _ => ⟨hi.phys _, hs.phys _, hc⟩
  run := by
    rintro k k' e ⟨hi, hs⟩ he h
    have hr := envRun_ran h
    have he := he.imp_right And.left
    exact ⟨hi.ran he hr, hs.ran hi he hr⟩
  resume := by
    rintro k k' ⟨hi, hs, hc⟩ h
    have hr := envRun_ran h
    exact ⟨hi.ran (.inr hc) hr, hs.ran hi (.inr hc) hr⟩
  halt := by
    rintro k k' ⟨hi, hs⟩ - hrun h
    have hh := schedHalt_halted h
    exact ⟨hi.halted hrun hh, hs.halted hh⟩

theorem Inside.schedYield (hi : Inside c k) (hs : Since c k₀ k) (h : schedYield k c = some k') :
    Dispatched k' ∧ Since c k₀ k' := by
  rcases schedYield_cases h with ⟨e, he, hrun⟩ | ⟨-, hcur, hhalt⟩
  · have hr := envRun_ran hrun
    have he := he.imp_right And.left
    exact ⟨hi.ran he hr, hs.ran hi he hr⟩
  · have hh := schedHalt_halted hhalt
    exact ⟨hi.halted hcur hh, hs.halted hh⟩

end

theorem Dispatched.wake {c : Cpu} {k : Kernel} (h : Dispatched k)
    (hc : (k.cpus c).cpuStatus = .halted) :
    Inside c (k.setCpu c { k.cpus c with cpuStatus := .started }) ∧
      Since c k (k.setCpu c { k.cpus c with cpuStatus := .started }) := by
  have hcur : ∀ c', (k.setCpu c { k.cpus c with cpuStatus := .started }).curenv c' =
      k.curenv c' := by
    intro c'
    by_cases hcc : c' = c
    · subst hcc; simp [curenv, setCpu]
    · simp [curenv, setCpu, hcc]
  have hcr3 : ∀ c', ((k.setCpu c { k.cpus c with cpuStatus := .started }).cpus c').cr3 =
      (k.cpus c').cr3 := by
    intro c'
    by_cases hcc : c' = c
    · subst hcc; simp [setCpu]
    · simp [setCpu, hcc]
  have hother : ∀ {c'}, c' ≠ c →
      (k.setCpu c { k.cpus c with cpuStatus := .started }).cpus c' = k.cpus c' :=
    fun hcc => Function.update_of_ne hcc _ _
  refine ⟨⟨⟨?_, ?_, ?_, ?_, h.list, ?_, by simp [setCpu]⟩, ?_⟩, ?_⟩
  · intro c₁ c₂ e
    rw [hcur, hcur]
    exact h.inj
  · intro c' e _
    rw [hcur]
    exact h.current
  · intro e he
    obtain ⟨c', hc'⟩ := h.placed he
    exact ⟨c', by rw [hcur]; exact hc'⟩
  · intro c' e
    rw [hcur, hcr3]
    exact h.cr3
  · intro c' hcc
    rw [hother hcc, hcur]
    exact h.asleep
  · intro e he
    rw [hcur, h.asleep hc] at he
    cases he
  · exact (Since.refl c k).extend hother (fun _ _ => id) [] rfl (by simp)

theorem Dispatched.trapHalted {c : Cpu} {k k' : Kernel} {trapno : Word} (h : Dispatched k)
    (hc : (k.cpus c).cpuStatus = .halted) (hst : trapHalted k c trapno = some k') :
    Dispatched k' ∧ Since c k k' := by
  obtain ⟨hi, hs⟩ := h.wake hc
  simp only [Kern.trapHalted] at hst
  generalize k.setCpu c { k.cpus c with cpuStatus := .started } = k₁ at hi hs hst
  split at hst
  · obtain ⟨k₂, htick, hst⟩ := Option.bind_eq_some_iff.1 hst
    simp only [timeTick] at htick
    split at htick
    · cases htick
    · cases htick
      have hi₂ : Inside c { k₁ with ticks := k₁.ticks + 1 } :=
        hi.congr rfl (fun _ => rfl) rfl rfl fun _ => rfl
      exact hi₂.schedYield (hs.congr rfl (fun _ => rfl) rfl) hst
  · split at hst
    · rcases trapReturn_cases hst with ⟨e, he, -, hrun⟩ | hy
      · have hr := envRun_ran hrun
        exact ⟨hi.ran (.inr he) hr, hs.ran hi (.inr he) hr⟩
      · exact hi.schedYield hs hy
    · cases hst

theorem Dispatched.step {k k' : Kernel} {ev : Event} (h : Dispatched k) (hg : Disciplined k ev)
    (hst : step k ev = some k') :
    Dispatched k' ∧ ∀ c, ev.cpu = some c ∨ ev.cpu = none → Since c k k' := by
  cases ev with
  | start c =>
    simp only [Kern.step] at hst
    split at hst
    · next hc =>
      have hi : Inside c k := h.inside (by rw [hc.1]; decide)
        fun e he => by rw [hc.2] at he; cases he
      obtain ⟨hd, hs⟩ := hi.schedYield (.refl c k) hst
      refine ⟨hd, ?_⟩
      rintro c' (hc' | hc') <;> cases hc'
      exact hs
    · cases hst
  | trap c tf inp =>
    simp only [Kern.step] at hst
    split at hst
    · next hc =>
      have hawake : (k.cpus c).cpuStatus ≠ .halted := by
        intro hh
        rw [user, hh, if_neg (by decide)] at hc
        exact hc.1 rfl
      have key : Dispatched k' ∧ Since c k k' := by
        cases hcur : k.curenv c with
        | none => simp [trapUser, hcur] at hst
        | some cur =>
          by_cases hdy : k.status cur = .dying
          · obtain ⟨k₁, hfree, hy⟩ := trapUser_dying hcur hdy hst
            have hf := envFree_freed hfree
            have hne : ∀ c', c' ≠ c → k.curenv c' ≠ some cur :=
              fun c' hcc hc' => hcc (h.inj hc' hcur)
            have hi := (h.around hawake).exit hcur (h.status_ne_free hcur) hf
            exact hi.schedYield (((Since.refl c k).freed hf hne).setCurenv none) hy
          · have hi : Inside c k := h.inside hawake fun e he => by
              rw [hcur] at he
              cases he
              exact hdy
            exact (dispatchRules k c cur tf).trapUser hcur hdy
              ⟨hi.frame tf, (Since.refl c k).frame tf, hcur, hg.frame tf⟩ hst
      refine ⟨key.1, ?_⟩
      rintro c' (hc' | hc') <;> cases hc'
      exact key.2
    · cases hst
  | irq c trapno =>
    simp only [Kern.step] at hst
    split at hst
    · next hc =>
      obtain ⟨hd, hs⟩ := h.trapHalted hc hst
      refine ⟨hd, ?_⟩
      rintro c' (hc' | hc') <;> cases hc'
      exact hs
    · cases hst
  | store c va b =>
    simp only [Kern.step] at hst
    split at hst
    · obtain ⟨m, -, rfl⟩ := Option.map_eq_some_iff.1 hst
      exact ⟨⟨h.inj, h.current, h.placed, h.cr3, h.list, h.asleep⟩, fun c _ => (Since.refl c k).phys m⟩
    · cases hst
  | device d =>
    cases hst
    exact ⟨⟨h.inj, h.current, h.placed, h.cr3, h.list, h.asleep⟩,
      fun c _ => (Since.refl c k).congr rfl (fun _ => rfl) rfl⟩

end Jos.Kern
