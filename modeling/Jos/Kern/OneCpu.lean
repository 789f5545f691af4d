import Jos.Kern.Family

/-! Where an environment runs, over whole runs: on one CPU at a time, and not destroyed under
another CPU's feet. -/

namespace Jos.Kern

open Lib Phys Kernel

/-- No environment is current on two CPUs, or runnable while it is current on one. -/
structure OnOneCpu (k : Kernel) : Prop where
  inj : ∀ {c c' e}, k.curenv c = some e → k.curenv c' = some e → c = c'
  not_runnable : ∀ {c e}, k.curenv c = some e → k.status e ≠ .runnable

theorem Dispatched.onOneCpu {k : Kernel} (h : Dispatched k) : OnOneCpu k := by
  refine ⟨h.inj, fun hc hst => ?_⟩
  rcases h.current hc with hr | hr
  · rw [hst] at hr
    cases hr
  · rw [hst] at hr
    cases hr

theorem Dispatched.run {k₀ k : Kernel} {es : List Event} (hd : Dispatched k₀)
    (h : Run Kern.step Disciplined k₀ es k) : Dispatched k :=
  h.invariant Dispatched (fun hd hg hst => (hd.step hg hst).1) hd

section

variable {b : Base} {st : EnvStatus} {k : Kernel}

theorem Family.disciplined_setRunnable (h : Family b st none k) :
    Disciplined k (call bootcpu 8 envid1 2 0 0 0) := by
  have hno : (callFrame 8 envid1 2 0 0 0).sysno = some .envSetStatus := by
    rw [sysno_callFrame]
    decide
  refine ⟨?_, ?_, ?_⟩
  · intro _ e _ c hc
    rw [h.curenv_eq hc]
    split <;> rintro ⟨⟩
  · rw [hno]
    rintro ⟨⟩
  · rw [hno]
    rintro (⟨⟨⟩⟩ | ⟨⟨⟩⟩)

theorem Family.disciplined_destroy (h : Family b .running (some env1) k) :
    Disciplined k (call bootcpu 3 envid1 0 0 0 0) := by
  have hno : (callFrame 3 envid1 0 0 0 0).sysno = some .envDestroy := by
    rw [sysno_callFrame]
    decide
  refine ⟨?_, ?_, ?_⟩
  · rw [hno]
    rintro ⟨⟩
  · rw [hno]
    rintro ⟨⟩
  · intro _ e he c hc hcur
    rw [h.curenv_eq hc] at hcur
    split at hcur
    · cases hcur
      exact h.status1
    · cases hcur

theorem disciplined_exofork {c : Cpu} (h : Counted k) : Disciplined k (call c 7 0 0 0 0 0) :=
  (Contained.call h (by decide)).disciplined

end

def forkEvents : List Event :=
  [.start bootcpu, call bootcpu 7 0 0 0 0 0, call bootcpu 8 envid1 2 0 0 0, .start cpu1]

theorem exists_family : ∃ b k₀ k, Booted demo (List.replicate 1 idleProg) k₀ ∧
    Run step Disciplined k₀ forkEvents k ∧ Family b .running (some env1) k := by
  obtain ⟨k₀, s, m, l₀, hm, l, hb, hs, hl⟩ := demo_booted (n := 1) (by decide)
  cases l with
  | nil => cases hl
  | cons pp l =>
    obtain ⟨k₁, k₂, h₁, hc₁, h₂, f₂⟩ := hs.family
    obtain ⟨k₃, h₃, f₃⟩ := f₂.setRunnable (by decide)
    obtain ⟨k₄, h₄, f₄⟩ := f₃.startSecond
    have hr : Run step Disciplined k₀ forkEvents k₄ :=
      .snoc (.snoc (.snoc (.single trivial h₁) (disciplined_exofork hc₁) h₂)
        f₂.disciplined_setRunnable h₃) trivial h₄
    exact ⟨hm.base, k₀, k₄, hb, hr, f₄⟩

def freeings (k : Kernel) (e : EnvIx) : Nat :=
  k.trace.countP fun n =>
    match n with
    | .freed _ e' => e' = e
    | _ => false

/-- A step that destroys no environment another CPU runs. -/
structure Deferred (k : Kernel) (ev : Event) (k' : Kernel) : Prop where
  kept : ∀ {c e}, ev.cpu ≠ some c → k.curenv c = some e →
    k'.curenv c = some e ∧ k'.status e ≠ .free ∧ freeings k' e = freeings k e
  dying : ∀ {c e}, ev.cpu ≠ some c → k.curenv c = some e → k.status e = .dying → k'.status e = .dying
  /-- `sys_env_destroy` only marks what another CPU runs. -/
  marked : ∀ {c c' tf inp cur e}, ev = .trap c tf inp → tf.sysno = some .envDestroy →
    k.curenv c = some cur → k.status cur ≠ .dying →
    envid2env k c tf.tfRegs.regEdx true = some e → c' ≠ c → k.curenv c' = some e →
    k'.status e = .dying
  freed : ∀ {c tf inp e}, ev = .trap c tf inp → k.curenv c = some e → k.status e = .dying →
    k'.status e = .free ∧ (∀ c', k'.curenv c' ≠ some e) ∧ freeings k' e = freeings k e + 1

theorem freeings_append {k k' : Kernel} {e : EnvIx} {new : List Note} (h : k'.trace = new ++ k.trace)
    (hnew : ∀ c, .freed c e ∉ new) : freeings k' e = freeings k e := by
  rw [freeings, h, List.countP_append, List.countP_eq_zero.2, Nat.zero_add, freeings]
  intro n hn
  cases n with
  | freed c e' =>
    rintro he
    rw [decide_eq_true_iff.1 he] at hn
    exact hnew c hn
  | alloc => rintro ⟨⟩
  | ran => rintro ⟨⟩
  | recv => rintro ⟨⟩
  | sent => rintro ⟨⟩

section

variable {c c' : Cpu} {k k' : Kernel} {e : EnvIx}

theorem Since.freeings (h : Since c k k') (hc : c' ≠ c) (hcur : k.curenv c' = some e) :
    freeings k' e = freeings k e := by
  obtain ⟨new, htrace, hnew⟩ := h.trace
  exact freeings_append htrace fun c'' hmem => (hnew hmem).2 c' hc hcur

theorem schedYield_status (h : schedYield k c = some k') (hne : k.curenv c ≠ some e)
    (hst : k.status e ≠ .runnable) :
    k'.status e = k.status e ∧ k'.curenv c ≠ some e ∧ freeings k' e = freeings k e := by
  rcases schedYield_cases h with ⟨e', he', hrun⟩ | ⟨-, -, hhalt⟩
  · have hr := envRun_ran hrun
    have hee : e ≠ e' := by
      rintro rfl
      rcases he' with he' | he'
      · exact hst he'
      · exact hne he'.1
    refine ⟨?_, ?_, freeings_append (List.singleton_append ▸ hr.trace_eq) (by simp)⟩
    · rw [hr.status_eq, if_neg hee, if_neg (fun h => hne h.1)]
    · rw [hr.curenv_self]
      exact fun h => hee (Option.some.inj h).symm
  · have hh := schedHalt_halted hhalt
    refine ⟨?_, ?_, by rw [freeings, hh.trace_eq, freeings]⟩
    · rw [status, hh.envs_eq, status]
    · rw [hh.curenv_self]
      rintro ⟨⟩

theorem trapReturn_status (h : trapReturn k c = some k') (hne : k.curenv c ≠ some e)
    (hst : k.status e ≠ .runnable) : k'.status e = k.status e := by
  rcases trapReturn_cases h with ⟨e', he', -, hrun⟩ | hy
  · have hr := envRun_ran hrun
    have hee : e ≠ e' := by
      rintro rfl
      exact hne he'
    rw [hr.status_eq, if_neg hee, if_neg (fun h => hne h.1)]
  · exact (schedYield_status hy hne hst).1

theorem step_trap {tf : Trapframe} {inp : Inputs} (h : step k (.trap c tf inp) = some k') :
    (k.user c ≠ none ∧ tf.tfCs &&& 3 = 3) ∧ trapUser k c tf inp = some k' := by
  simp only [step] at h
  split at h
  · next hu => exact ⟨hu, h⟩
  · cases h

theorem Dispatched.trapDying {tf : Trapframe} {inp : Inputs} (hd : Dispatched k) (hs : Since c k k')
    (hcur : k.curenv c = some e) (hst : k.status e = .dying) (h : trapUser k c tf inp = some k') :
    k'.status e = .free ∧ (∀ c', k'.curenv c' ≠ some e) ∧
      Kern.freeings k' e = Kern.freeings k e + 1 := by
  obtain ⟨k₁, hfree, hy⟩ := trapUser_dying hcur hst h
  have hf := envFree_freed hfree
  have hst₁ : (k₁.setCurenv c none).status e = .free := hf.status_self
  have hcur₁ : (k₁.setCurenv c none).curenv c ≠ some e := by
    rw [curenv_setCurenv, if_pos rfl]
    rintro ⟨⟩
  obtain ⟨hst', hcur', hcount⟩ := schedYield_status hy hcur₁ (by rw [hst₁]; decide)
  refine ⟨hst'.trans hst₁, fun c' => ?_, hcount.trans ?_⟩
  · by_cases hcc : c' = c
    · rw [hcc]
      exact hcur'
    · rw [hs.curenv_eq hcc]
      exact fun hc' => hcc (hd.inj hc' hcur)
  · change Kern.freeings k₁ e = _
    rw [Kern.freeings, hf.trace_eq, List.countP_cons, Kern.freeings]
    simp

theorem marked_of_destroy {tf : Trapframe} {inp : Inputs} {cur : EnvIx}
    (hno : tf.sysno = some .envDestroy) (hcur : k.curenv c = some cur) (hst : k.status cur ≠ .dying)
    (he : envid2env k c tf.tfRegs.regEdx true = some e) (hne : k.curenv c ≠ some e)
    (hrun : k.status e = .running) (h : step k (.trap c tf inp) = some k') :
    k'.status e = .dying := by
  obtain ⟨hu, -⟩ := step_trap h
  have hu' : k.user c = some cur := by
    obtain ⟨cur', hcur'⟩ := Option.ne_none_iff_exists'.1 hu.1
    cases hcur.symm.trans (user_curenv hcur')
    exact hcur'
  have htrap : tf.tfTrapno = tSyscall := by
    by_contra hn
    rw [Trapframe.sysno, if_neg hn] at hno
    cases hno
  rw [Trapframe.sysno, if_pos htrap] at hno
  have s₁ := Same.frame k cur tf
  rw [step_syscall_eq hu' hst hu.2 htrap] at h
  generalize k.setEnv cur { k.envs cur with envTf := tf } = k₁ at h s₁
  have hc : k₁.status e = .running ∧ k₁.curenv c ≠ some e := by
    rw [s₁.status_eq, s₁.curenv_eq]
    exact ⟨hrun, hne⟩
  have hcall : syscall k₁ c cur inp tf.tfRegs.regEax tf.tfRegs.regEdx tf.tfRegs.regEcx
      tf.tfRegs.regEbx tf.tfRegs.regEdi tf.tfRegs.regEsi = some (k₁.setStatus e .dying, .ret 0) := by
    simp only [syscall, hno, sysEnvDestroy, s₁.envid2env_eq, he, envDestroy]
    rw [if_pos hc]
    rfl
  rw [hcall, Option.bind_some] at h
  simp only [callReturn] at h
  generalize htf : { ((k₁.setStatus e .dying).envs cur).envTf with
    tfRegs := { ((k₁.setStatus e .dying).envs cur).envTf.tfRegs with regEax := 0 } } = tf' at h
  have s₂ := Same.frame (k₁.setStatus e .dying) cur tf'
  have hst₂ : (k₁.setStatus e .dying).status e = .dying := by rw [status_setStatus, if_pos rfl]
  rw [trapReturn_status h (e := e), s₂.status_eq, hst₂]
  · exact hc.2
  · rw [s₂.status_eq, hst₂]
    decide

end

theorem Dispatched.deferred {k k' : Kernel} {ev : Event} (hd : Dispatched k) (hg : Disciplined k ev)
    (h : Kern.step k ev = some k') : Deferred k ev k' := by
  obtain ⟨hd', hs⟩ := hd.step hg h
  have hother : ∀ {c}, ev.cpu ≠ some c → ∃ c₀, c ≠ c₀ ∧ Since c₀ k k' := by
    intro c hc
    cases hcpu : ev.cpu with
    | some c₀ => exact ⟨c₀, fun hcc => hc (by rw [hcpu, hcc]), hs c₀ (.inl hcpu)⟩
    | none =>
      obtain ⟨c₀, hc₀⟩ : ∃ c₀, c ≠ c₀ := by
        by_cases h0 : c = bootcpu
        · exact ⟨cpu1, by rw [h0]; decide⟩
        · exact ⟨bootcpu, h0⟩
      exact ⟨c₀, hc₀, hs c₀ (.inr hcpu)⟩
  refine ⟨?_, ?_, ?_, ?_⟩
  · intro c e hc hcur
    obtain ⟨c₀, hcc, hs₀⟩ := hother hc
    have hcur' : k'.curenv c = some e := by rw [hs₀.curenv_eq hcc, hcur]
    exact ⟨hcur', hd'.status_ne_free hcur', hs₀.freeings hcc hcur⟩
  · intro c e hc hcur hst
    obtain ⟨c₀, hcc, hs₀⟩ := hother hc
    exact hs₀.dying hcc hcur hst
  · rintro c c' tf inp cur e rfl hno hcur hst he hcc hcur'
    have hrun := hg.destroy (.inl hno) he c' hcc hcur'
    exact marked_of_destroy hno hcur hst he (fun hc => hcc (hd.inj hcur' hc)) hrun h
  · rintro c tf inp e rfl hcur hst
    exact hd.trapDying (hs c (.inl rfl)) hcur hst (step_trap h).2

theorem Dispatched.dying_until_trap {k k' : Kernel} {es : List Event} {c : Cpu} {e : EnvIx}
    (hd : Dispatched k) (hr : Run Kern.step Disciplined k es k') (hcur : k.curenv c = some e)
    (hst : k.status e = .dying) (hnt : ∀ tf inp, .trap c tf inp ∉ es) :
    k'.curenv c = some e ∧ k'.status e = .dying ∧ freeings k' e = freeings k e := by
  induction hr with
  | nil => exact ⟨hcur, hst, rfl⟩
  | @snoc t u es ev hr hg hstep ih =>
    obtain ⟨hcur', hst', hcount⟩ := ih fun tf inp h => hnt tf inp (by simp [h])
    have hdt := hd.run hr
    by_cases hc : ev.cpu = some c
    · cases ev with
      | start c' =>
        cases hc
        simp only [Kern.step, hcur', reduceCtorEq, and_false, if_false] at hstep
      | trap c' tf inp =>
        cases hc
        exact absurd (by simp) (hnt tf inp)
      | irq c' trapno =>
        cases hc
        have hh : (t.cpus c).cpuStatus ≠ .halted := by
          intro hh
          rw [hdt.asleep hh] at hcur'
          cases hcur'
        simp only [Kern.step, if_neg hh, reduceCtorEq] at hstep
      | store c' va v =>
        simp only [Kern.step] at hstep
        split at hstep
        · obtain ⟨m, -, rfl⟩ := Option.map_eq_some_iff.1 hstep
          exact ⟨hcur', hst', hcount⟩
        · cases hstep
      | device d => cases hc
    · have hdef := hdt.deferred hg hstep
      obtain ⟨hcur'', -, hcount'⟩ := hdef.kept hc hcur'
      exact ⟨hcur'', hdef.dying hc hcur' hst', hcount'.trans hcount⟩

end Jos.Kern
