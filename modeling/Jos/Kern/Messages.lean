import Jos.Kern.Handshake
import Jos.Kern.Family

/-! `sys_ipc_try_send` and `sys_ipc_recv` over whole runs: every message is seen once, and a
receiver stays blocked until it has one. -/

namespace Jos.Kern

open Lib Phys Kernel

def sends (k : Kernel) (e : EnvIx) : List (Word × Word) := puts (acts e k.trace)

/-- What `e` found in `env_ipc_value` and `env_ipc_from` after each return from
`sys_ipc_recv`. -/
def observed (k : Kernel) (e : EnvIx) : List (Word × Word) := seen (acts e k.trace)

theorem acts_append (e : EnvIx) (l l' : List Note) : acts e (l ++ l') = acts e l ++ acts e l' :=
  List.filterMap_append

section

variable {e : EnvIx} {l : List Note}

theorem ask_mem_acts (h : Act.ask ∈ acts e l) : .recv e ∈ l := by
  obtain ⟨n, hn, ha⟩ := List.mem_filterMap.1 h
  cases n <;> simp only [Note.act, Option.ite_none_right_eq_some] at ha
  case recv => rwa [← ha.1]
  all_goals cases ha.2

theorem put_mem_acts {v s : Word} (h : Act.put (v, s) ∈ acts e l) : .sent e v s ∈ l := by
  obtain ⟨n, hn, ha⟩ := List.mem_filterMap.1 h
  cases n <;> simp only [Note.act, Option.ite_none_right_eq_some] at ha
  case sent =>
    obtain ⟨rfl, ha⟩ := ha
    cases ha
    exact hn
  all_goals cases ha.2

theorem look_mem_acts {v s : Word} (h : Act.look (v, s) ∈ acts e l) : ∃ c, .ran c e v s ∈ l := by
  obtain ⟨n, hn, ha⟩ := List.mem_filterMap.1 h
  cases n <;> simp only [Note.act, Option.ite_none_right_eq_some] at ha
  case ran c _ _ _ =>
    obtain ⟨rfl, ha⟩ := ha
    cases ha
    exact ⟨c, hn⟩
  all_goals cases ha.2

/-- The slot of `e` in `envs` passes from one environment to another. -/
def Note.Resets (e : EnvIx) : Note → Prop
  | .alloc e' => e' = e
  | .freed _ e' => e' = e
  | _ => False

theorem reset_mem_acts (h : Act.reset ∈ acts e l) : ∃ n ∈ l, n.Resets e := by
  obtain ⟨n, hn, ha⟩ := List.mem_filterMap.1 h
  cases n <;> simp only [Note.act, Option.ite_none_right_eq_some] at ha
  case alloc => exact ⟨_, hn, ha.1⟩
  case freed => exact ⟨_, hn, ha.1⟩
  all_goals cases ha.2

end

section

variable {M : Machine} {b : Base} {quiet : Prop} {k₀ k : Kernel} {n : Nat} {l : List Nat}
  {es : List Event}

theorem Starting.exchange (h : Starting M b k n l) : Exchange quiet k := by
  have hresets : ∀ e, ∀ a ∈ acts e k.trace, a = .reset := by
    intro e a ha
    obtain ⟨note, hn, ha⟩ := List.mem_filterMap.1 ha
    obtain ⟨e', rfl⟩ := h.trace note hn
    simp only [Note.act, Option.ite_none_right_eq_some] at ha
    cases ha.2
    rfl
  refine ⟨fun e => ⟨.idle, (phase_resets (hresets e)).1, ?_⟩, fun _ e => (phase_resets (hresets e)).2⟩
  rcases Nat.lt_or_ge e.val n with hn | hn
  · obtain ⟨⟨tf, ty, d, link, hv⟩, -⟩ := h.created hn
    refine .inr ?_
    rw [hv]
    rfl
  · refine .inl ?_
    rw [h.status_eq, if_neg (Nat.not_lt.2 hn)]

theorem Exchange.run_quiet (hx : Exchange True k₀) (hd : Dispatched k₀)
    (hr : Run Kern.step Quiet k₀ es k) : Exchange True k := by
  suffices h : Dispatched k ∧ Exchange True k from h.2
  refine hr.invariant (fun k => Dispatched k ∧ Exchange True k) ?_ ⟨hd, hx⟩
  rintro k ev k' ⟨hd, hx⟩ hg hst
  refine hx.step hd ?_ (fun _ => hg) hst
  cases ev with
  | trap c tf inp => exact QuietCall.polite hg
  | start => exact trivial
  | irq => exact trivial
  | store => exact trivial
  | device => exact trivial

theorem Exchange.run_polite (hx : Exchange False k₀) (hd : Dispatched k₀)
    (hr : Run Kern.step Polite k₀ es k) : Dispatched k ∧ Exchange False k := by
  refine hr.invariant (fun k => Dispatched k ∧ Exchange False k) ?_ ⟨hd, hx⟩
  rintro k ev k' ⟨hd, hx⟩ hg hst
  exact hx.step hd hg False.elim hst

end

structure ExactlyOnce (k : Kernel) (e : EnvIx) : Prop where
  /-- In the same order; only the last message may not have been seen yet, and then `e` is about
  to run. -/
  delivered : sends k e = observed k e ∨
    (sends k e = ((k.envs e).envIpcValue, (k.envs e).envIpcFrom) :: observed k e ∧
      k.status e = .runnable ∧ (k.envs e).envIpcRecving = false)
  /-- As long as `e` does not call `sys_ipc_recv`, one call succeeds at most. -/
  single : ∀ {new old}, k.trace = new ++ old → .recv e ∉ new → (puts (acts e new)).length ≤ 1
  /-- A call that returns 0 sends one message, and a call that returns an error none. -/
  call : ∀ {c cur envid value srcva perm k' r},
    sysIpcTrySend k c cur envid value srcva perm = some (k', .ret r) →
    (r = 0 ∧ ∃ e', envid2env k c envid false = some e' ∧
      k'.trace = .sent e' value (k.envs cur).envId :: k.trace) ∨
    (r.slt 0 = true ∧ k'.trace = k.trace ∧ k'.envs = k.envs)

theorem Exchange.exactlyOnce {k : Kernel} (h : Exchange True k) (e : EnvIx) : ExactlyOnce k e := by
  obtain ⟨p, hp, hok⟩ := h.phase e
  refine ⟨?_, ?_, ?_⟩
  · have heq := puts_eq hp (h.lossless trivial e)
    cases p with
    | idle => exact .inl heq
    | waiting => exact .inl heq
    | full x =>
      obtain ⟨hr, rfl, hst⟩ := hok
      exact .inr ⟨heq, hst.resolve_right fun h => h.1 trivial, hr⟩
  · intro new old htrace hrecv
    rw [htrace, acts_append] at hp
    exact (length_puts_le hp fun ha => hrecv (ask_mem_acts ha)).1
  · intro c cur envid value srcva perm k' r h
    cases sysIpcTrySend_step h with
    | refused hr => exact .inr ⟨hr, rfl, rfl⟩
    | plain he => exact .inl ⟨rfl, _, he, rfl⟩
    | dropped he => exact .inl ⟨rfl, _, he, rfl⟩
    | noMemory => exact .inr ⟨by decide, rfl, rfl⟩
    | @mapped e' _ m _ he =>
      refine .inl ⟨rfl, e', he, ?_⟩
      have hid : ((Kernel.setEnv { k with toPhys := m } e'
          { k.envs e' with envIpcPerm := perm }).envs cur).envId = (k.envs cur).envId :=
        envs_setEnv_field Env.envId { k with toPhys := m } e' (by rfl) cur
      rw [← hid]
      rfl

/-- Messages are delivered exactly once in every run in which nobody's status is set and nobody
is destroyed by another environment. -/
theorem exactlyOnce_of_quiet {M : Machine} {progs : List (Image × EnvType)} {k₀ k : Kernel}
    {es : List Event} (hb : Booted M progs k₀) (hr : Run step Quiet k₀ es k) (e : EnvIx) :
    ExactlyOnce k e := by
  obtain ⟨s, m, l₀, hm, l, hs, -⟩ := hb.starting
  exact (hs.exchange.run_quiet hs.dispatched hr).exactlyOnce e

theorem Quiet.call {k : Kernel} {c : Cpu} {no a1 a2 a3 a4 a5 : Word}
    (h : Sysno.ofWord no = some .ipcRecv ∨ Sysno.ofWord no = some .ipcTrySend) :
    Quiet k (call c no a1 a2 a3 a4 a5) := by
  refine ⟨?_, ?_, ?_⟩ <;> rw [sysno_callFrame] <;> rcases h with h | h <;> rw [h] <;> decide

def messageEvents : List Event :=
  [.start bootcpu, call bootcpu 13 0 0 0 0 0,
    call bootcpu 12 envid0 42 stackVa (pteU ||| pteP) 0]

theorem exactlyOnce_of_message : ∃ k₀ k, Booted demo (List.replicate 2 idleProg) k₀ ∧
    Run step Quiet k₀ messageEvents k ∧ (k.envs env0).envIpcValue = 42 ∧ ExactlyOnce k env0 := by
  obtain ⟨k₀, s, m, l₀, hm, l, hb, hs, -⟩ := demo_booted (n := 2) (by decide)
  obtain ⟨k₁, k₂, h₁, -, h₂, w⟩ := hs.waiting 0 (by decide)
  obtain ⟨pp, -, -, -, -, hpage⟩ := w.page
  obtain ⟨k₃, h₃, -, -, -, -, hv, -⟩ := w.send 42 hpage (.inr ⟨rfl, rfl⟩)
  have hr : Run step Quiet k₀ messageEvents k₃ :=
    .snoc (.snoc (.single trivial h₁) (.call (.inl (by decide))) h₂) (.call (.inr (by decide))) h₃
  exact ⟨k₀, k₃, hb, hr, hv, exactlyOnce_of_quiet hb hr env0⟩

/-- A receiver that waits is left alone until it has its message. -/
structure StaysBlocked (k : Kernel) (e : EnvIx) : Prop where
  held : (k.envs e).envIpcRecving = true →
    (k.status e = .notRunnable ∨ k.status e = .free) ∧ ∀ c, k.curenv c ≠ some e
  /-- When it first runs again, it has been sent what it then finds. -/
  returned : ∀ {later new old c v s}, k.trace = later ++ .ran c e v s :: (new ++ .recv e :: old) →
    (∀ c v s, .ran c e v s ∉ new) → (∀ n ∈ new, ¬n.Resets e) → .sent e v s ∈ new
  /-- No message is written over one that has not been seen. -/
  kept : ∀ {later new old v s v' s'},
    k.trace = later ++ .sent e v' s' :: (new ++ .sent e v s :: old) →
    (∃ c, .ran c e v s ∈ new) ∨ ∃ n ∈ new, n.Resets e
  pending : ∀ {new old v s}, k.trace = new ++ .sent e v s :: old → (∀ c, .ran c e v s ∉ new) →
    (∀ n ∈ new, ¬n.Resets e) → (k.envs e).envIpcValue = v ∧ (k.envs e).envIpcFrom = s

section

variable {quiet : Prop} {k : Kernel} {e : EnvIx}

theorem acts_ran (c : Cpu) (e : EnvIx) (v s : Word) (l : List Note) :
    acts e (.ran c e v s :: l) = .look (v, s) :: acts e l :=
  List.filterMap_cons_some (if_pos rfl)

theorem acts_recv (e : EnvIx) (l : List Note) : acts e (.recv e :: l) = .ask :: acts e l :=
  List.filterMap_cons_some (if_pos rfl)

theorem acts_sent (e : EnvIx) (v s : Word) (l : List Note) :
    acts e (.sent e v s :: l) = .put (v, s) :: acts e l :=
  List.filterMap_cons_some (if_pos rfl)

theorem Exchange.phase_later (h : Exchange quiet k) {later old : List Note}
    (htrace : k.trace = later ++ old) (e : EnvIx) : ∃ p, Lib.phase (acts e old) = some p := by
  obtain ⟨p, hp, -⟩ := h.phase e
  rw [htrace, acts_append] at hp
  exact phase_of_append hp

theorem Exchange.staysBlocked (h : Exchange quiet k) (hd : Dispatched k) (e : EnvIx) :
    StaysBlocked k e := by
  refine ⟨?_, ?_, ?_, ?_⟩
  · intro hr
    have hst : k.status e = .notRunnable ∨ k.status e = .free := by
      by_cases hf : k.status e = .free
      · exact .inr hf
      · exact .inl (h.receiving hr hf).2
    refine ⟨hst, fun c hc => ?_⟩
    rcases hd.current hc with hs | hs <;> rcases hst with hst | hst <;> rw [hst] at hs <;> cases hs
  · intro later new old c v s htrace hran hreset
    obtain ⟨p, hp⟩ := h.phase_later htrace e
    rw [acts_ran, acts_append, acts_recv] at hp
    obtain ⟨q, hq, hs⟩ := phase_cons hp
    have hafter := after_ask hq
      (fun x hx => by obtain ⟨c, hc⟩ := look_mem_acts hx; exact hran c _ _ hc)
      fun hr => by obtain ⟨n, hn, hr⟩ := reset_mem_acts hr; exact hreset n hn hr
    rcases hafter with ⟨-, rfl⟩ | ⟨x, hx, rfl⟩
    · cases hs
    · cases hs
      refine put_mem_acts (e := e) ?_
      rw [hx]
      exact List.mem_singleton_self _
  · intro later new old v s v' s' htrace
    obtain ⟨p, hp⟩ := h.phase_later htrace e
    rw [acts_sent, acts_append, acts_sent] at hp
    obtain ⟨q, hq, hs⟩ := phase_cons hp
    by_contra hno
    obtain ⟨hran, hreset⟩ := not_or.1 hno
    obtain ⟨-, rfl⟩ := after_put hq (fun hx => hran (look_mem_acts hx))
      fun hr => hreset (reset_mem_acts hr)
    cases hs
  · intro new old v s htrace hran hreset
    obtain ⟨p, hp, hok⟩ := h.phase e
    rw [htrace, acts_append, acts_sent] at hp
    obtain ⟨-, rfl⟩ := after_put hp
      (fun hx => by obtain ⟨c, hc⟩ := look_mem_acts hx; exact hran c hc)
      fun hr => by obtain ⟨n, hn, hr⟩ := reset_mem_acts hr; exact hreset n hn hr
    obtain ⟨-, hx, -⟩ := hok
    cases hx
    exact ⟨rfl, rfl⟩

end

theorem Family.blocked {b : Base} {k : Kernel} (h : Family b .runnable none k) :
    ∃ k' k'', step k (call bootcpu 11 0 0 0 0 0) = some k' ∧
      step k' (call bootcpu 13 0 0 0 0 0) = some k'' ∧ Family b .notRunnable none k'' ∧
      (k''.envs env1).envIpcRecving = true := by
  obtain ⟨d₀, hd₀⟩ := h.dir0
  obtain ⟨d₁, hd₁⟩ := h.dir1
  obtain ⟨k₁, k₂, s₁, h₂, s₂⟩ := step_yield h.user h.status0 h.runnable_iff hd₁
  have f₁ := h.same s₁
  have hne : env0 ≠ env1 := by decide
  have hboot := user_curenv f₁.user
  have hcpu : ∀ c, (k₂.cpus c).cpuStatus = (k₁.cpus c).cpuStatus := by
    intro c
    rw [s₂.cpuStatus_eq, dispatch_cpuStatus]
  have hcur : ∀ c, k₂.curenv c = if c = bootcpu then some env1 else k₁.curenv c := by
    intro c
    rw [s₂.curenv_eq, dispatch_curenv]
  have hst : ∀ e, k₂.status e =
      if e = env1 then .running else if e = env0 then .runnable else .free := by
    intro e
    rw [s₂.status_eq, dispatch_status]
    by_cases h1 : e = env1
    · rw [if_pos h1, if_pos h1]
    · rw [if_neg h1, if_neg h1]
      by_cases h0 : e = env0
      · rw [h0, if_pos rfl, if_pos ⟨hboot, f₁.status0⟩]
      · rw [if_neg h0, if_neg (fun hc => h0 (Option.some.inj (hboot.symm.trans hc.1)).symm),
          f₁.others h0 h1]
  have hdirs₂ : k₂.dirs = k₁.dirs := s₂.dirs_eq.trans (dispatch_dirs k₁ bootcpu env1)
  have hu₂ : k₂.user bootcpu = some env1 := by
    rw [Kernel.user, hcpu, hcur, if_pos rfl]
    have := f₁.user
    rw [Kernel.user] at this
    split at this
    · next hs => rw [if_pos hs]
    · cases this
  have hpick : ∀ e, k₂.status e = .runnable ↔ e = env0 := by
    intro e
    rw [hst]
    by_cases h1 : e = env1
    · simp [h1, hne.symm]
    · by_cases h0 : e = env0 <;> simp [h0, h1, hne]
  have hva : ¬((0 : Word) < utop ∧ pgoff 0 ≠ 0) := by decide
  obtain ⟨k₂', k₃, s₂', h₃, s₃⟩ := step_ipcRecv hu₂ (by rw [hst, if_pos rfl]) hva
    hpick (by rw [hdirs₂, s₁.dirs_eq]; exact hd₀)
  refine ⟨k₂, k₃, h₂, h₃, Family.same ?_ s₃, ?_⟩
  · have hstat : ∀ e, (dispatch (ipcBlock k₂' env1 0) bootcpu env0).status e =
        if e = env0 then .running else if e = env1 then .notRunnable else .free := by
      intro e
      rw [dispatch_status]
      by_cases h0 : e = env0
      · rw [if_pos h0, if_pos h0]
      · rw [if_neg h0, if_neg h0, ipcBlock_status, s₂'.status_eq, hst, if_neg h0]
        by_cases h1 : e = env1
        · simp [h1]
        · simp [h1]
    have hfield : ∀ {α : Type} (g : Env → α), (∀ v st, g { v with envStatus := st } = g v) →
        (∀ v tf runs cpu, g { v with envTf := tf, envRuns := runs, envCpunum := cpu } = g v) →
        (∀ v r d f, g { v with envIpcRecving := r, envIpcDstva := d, envIpcFrom := f } = g v) →
        ∀ e, g ((dispatch (ipcBlock k₂' env1 0) bootcpu env0).envs e) = g (k₁.envs e) := by
      intro α g hg hg' hg'' e
      rw [dispatch_field g hg, ipcBlock_field g hg hg'', s₂'.field g hg', s₂.field g hg',
        dispatch_field g hg]
    have hdirs : (dispatch (ipcBlock k₂' env1 0) bootcpu env0).dirs = k₁.dirs := by
      rw [dispatch_dirs, ipcBlock_dirs, s₂'.dirs_eq, hdirs₂]
    have hphys : (dispatch (ipcBlock k₂' env1 0) bootcpu env0).toPhys = k₁.toPhys := by
      rw [(dispatch_rest _ _ _).1]
      change k₂'.toPhys = _
      rw [s₂'.toPhys_eq, s₂.toPhys_eq, (dispatch_rest _ _ _).1]
    have hkern : (dispatch (ipcBlock k₂' env1 0) bootcpu env0).kernPgdir = k₁.kernPgdir := by
      rw [(dispatch_rest _ _ _).2.1]
      change k₂'.kernPgdir = _
      rw [s₂'.kernPgdir_eq, s₂.kernPgdir_eq, (dispatch_rest _ _ _).2.1]
    have hcpus : ∀ c, ((dispatch (ipcBlock k₂' env1 0) bootcpu env0).cpus c).cpuStatus =
        (k₁.cpus c).cpuStatus := by
      intro c
      rw [dispatch_cpuStatus]
      exact (s₂'.cpuStatus_eq c).trans (hcpu c)
    have hcurs : ∀ c, (dispatch (ipcBlock k₂' env1 0) bootcpu env0).curenv c = k₁.curenv c := by
      intro c
      rw [dispatch_curenv]
      by_cases hc : c = bootcpu
      · rw [if_pos hc, hc, hboot]
      · rw [if_neg hc]
        exact (s₂'.curenv_eq c).trans ((hcur c).trans (if_neg hc))
    generalize dispatch (ipcBlock k₂' env1 0) bootcpu env0 = k₄ at *
    refine ⟨?_, ?_, ?_, ?_, ?_, ?_, ?_, ?_, ?_, ?_, ?_, ?_, ?_⟩
    · rw [hkern, f₁.kern_eq]
    · rw [hphys, hdirs]
      exact f₁.spaces
    · exact f₁.counted.congr hphys hdirs
    · rw [Kernel.user, hcpus, hcurs]
      exact f₁.user
    · rw [hstat, if_pos rfl]
    · rw [hstat, if_neg hne.symm, if_pos rfl]
    · intro e h0 h1
      rw [hstat, if_neg h0, if_neg h1]
    · rw [hdirs]
      exact f₁.dir0
    · rw [hdirs]
      exact f₁.dir1
    · rw [hfield Env.envId (fun _ _ => rfl) (fun _ _ _ _ => rfl) (fun _ _ _ _ => rfl), f₁.id1]
    · rw [hfield Env.envParentId (fun _ _ => rfl) (fun _ _ _ _ => rfl) (fun _ _ _ _ => rfl),
        hfield Env.envId (fun _ _ => rfl) (fun _ _ _ _ => rfl) (fun _ _ _ _ => rfl), f₁.parent]
    · rw [hcpus, f₁.started]
    · intro c hc
      rw [hcurs]
      exact f₁.curenv_eq hc
  · rw [s₃.field Env.envIpcRecving (fun _ _ _ _ => rfl), dispatch_field Env.envIpcRecving (fun _ _ => rfl)]
    exact congrArg Env.envIpcRecving (envs_setEnv_self _ _ _)

end Jos.Kern
