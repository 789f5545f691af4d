import Jos.Kern.Integrity
import Jos.Kern.Start

/-! Kernel entries that come back: what a system call, the scheduler and the start of a CPU
lead to. -/

namespace Jos.Kern

open Lib Phys Kernel

/-- The same kernel, up to saved frames, run counts, page directory registers and what was
written down. -/
structure Same (k k' : Kernel) : Prop where
  toPhys_eq : k'.toPhys = k.toPhys
  kernPgdir_eq : k'.kernPgdir = k.kernPgdir
  freeList_eq : k'.envFreeList = k.envFreeList
  envs_eq : ∀ e, ∃ tf runs cpu, k'.envs e =
    { k.envs e with envTf := tf, envRuns := runs, envCpunum := cpu }
  curenv_eq : ∀ c, k'.curenv c = k.curenv c
  cpuStatus_eq : ∀ c, (k'.cpus c).cpuStatus = (k.cpus c).cpuStatus

namespace Same

variable {k k' k'' : Kernel}

theorem trans (h : Same k k') (h' : Same k' k'') : Same k k'' := by
  refine ⟨h'.toPhys_eq.trans h.toPhys_eq, h'.kernPgdir_eq.trans h.kernPgdir_eq,
    h'.freeList_eq.trans h.freeList_eq, fun e => ?_, fun c => (h'.curenv_eq c).trans (h.curenv_eq c),
    fun c => (h'.cpuStatus_eq c).trans (h.cpuStatus_eq c)⟩
  obtain ⟨tf, runs, cpu, he⟩ := h.envs_eq e
  obtain ⟨tf', runs', cpu', he'⟩ := h'.envs_eq e
  exact ⟨tf', runs', cpu', by rw [he', he]⟩

theorem frame (k : Kernel) (e : EnvIx) (tf : Trapframe) :
    Same k (k.setEnv e { k.envs e with envTf := tf }) := by
  refine ⟨rfl, rfl, rfl, fun e' => ?_, fun _ => rfl, fun _ => rfl⟩
  by_cases h : e' = e
  · subst h
    exact ⟨tf, (k.envs e').envRuns, (k.envs e').envCpunum, envs_setEnv_self _ _ _⟩
  · rw [envs_setEnv_of_ne _ _ h]
    exact ⟨_, _, _, rfl⟩

theorem field {α : Type} (h : Same k k') (g : Env → α)
    (hg : ∀ v tf runs cpu, g { v with envTf := tf, envRuns := runs, envCpunum := cpu } = g v)
    (e : EnvIx) : g (k'.envs e) = g (k.envs e) := by
  obtain ⟨tf, runs, cpu, he⟩ := h.envs_eq e
  rw [he, hg]

theorem status_eq (h : Same k k') (e : EnvIx) : k'.status e = k.status e :=
  h.field Env.envStatus (fun _ _ _ _ => rfl) e

theorem dirs_eq (h : Same k k') : k'.dirs = k.dirs :=
  funext (h.field Env.envPgdir fun _ _ _ _ => rfl)

theorem spaces {b : Base} {l : List Nat} (h : Same k k') (hs : Spaces b k.toPhys k.dirs ∅ l) :
    Spaces b k'.toPhys k'.dirs ∅ l := by
  rw [h.toPhys_eq, h.dirs_eq]
  exact hs

theorem envid2env_eq (h : Same k k') (c : Cpu) (envid : Word) (checkperm : Bool) :
    envid2env k' c envid checkperm = envid2env k c envid checkperm :=
  envid2env_congr (h.curenv_eq c) (fun e => ⟨h.status_eq e,
    h.field Env.envId (fun _ _ _ _ => rfl) e, h.field Env.envParentId (fun _ _ _ _ => rfl) e⟩) _ _

theorem ipcPage_eq (h : Same k k') (cur : EnvIx) (srcva perm : Word) :
    ipcPage k' cur srcva perm = ipcPage k cur srcva perm := by
  rw [ipcPage, ipcPage, h.toPhys_eq, h.field Env.envPgdir fun _ _ _ _ => rfl]

end Same

section

variable {k k₂ k' : Kernel} {c : Cpu} {e cur : EnvIx} {inp : Inputs} {no a1 a2 a3 a4 a5 r : Word}

theorem envRun_some {d : Nat} (hd : k.dirs e = some d) (c : Cpu) :
    ∃ k', envRun k c e = some k' := by
  obtain ⟨st, runs, cpu, halike⟩ := demote_alike k c e
  rw [envRun]
  refine ⟨_, Option.bind_eq_some_iff.2 ⟨d, ?_, rfl⟩⟩
  rw [envs_setEnv_self]
  change ((demote k c).envs e).envPgdir = some d
  rw [halike]
  exact hd

def dispatch (k : Kernel) (c : Cpu) (e : EnvIx) : Kernel :=
  ((demote k c).setStatus e .running).setCurenv c (some e)

theorem dispatch_status (k : Kernel) (c : Cpu) (e e' : EnvIx) : (dispatch k c e).status e' =
    if e' = e then .running
    else if k.curenv c = some e' ∧ k.status e' = .running then .runnable
    else k.status e' := by
  rw [← demote_status]
  exact status_setStatus (demote k c) e e' .running

theorem dispatch_curenv (k : Kernel) (c c' : Cpu) (e : EnvIx) :
    (dispatch k c e).curenv c' = if c' = c then some e else k.curenv c' := by
  obtain ⟨-, -, -, -, hcpus, -⟩ := demote_rest k c
  have hcur : ((demote k c).setStatus e .running).curenv c' = k.curenv c' :=
    congrArg (fun f => (f c').cpuEnv) hcpus
  rw [dispatch, curenv_setCurenv, hcur]

theorem dispatch_cpuStatus (k : Kernel) (c c' : Cpu) (e : EnvIx) :
    ((dispatch k c e).cpus c').cpuStatus = (k.cpus c').cpuStatus := by
  obtain ⟨-, -, -, -, hcpus, -⟩ := demote_rest k c
  by_cases hcc : c' = c
  · subst hcc
    simp [dispatch, setCurenv, setCpu, setStatus, setEnv, hcpus]
  · simp [dispatch, setCurenv, setCpu, setStatus, setEnv, hcpus, hcc]

theorem setStatus_envs (k : Kernel) (e e' : EnvIx) (st : EnvStatus) :
    (k.setStatus e st).envs e' = { k.envs e' with envStatus := (k.setStatus e st).status e' } := by
  rw [status_setStatus, setStatus]
  by_cases h : e' = e
  · subst h
    rw [envs_setEnv_self, if_pos rfl]
  · rw [envs_setEnv_of_ne _ _ h, if_neg h, status]

theorem demote_envs (k : Kernel) (c : Cpu) (e : EnvIx) :
    (demote k c).envs e = { k.envs e with envStatus := (demote k c).status e } := by
  rw [demote]
  split
  · split
    · exact setStatus_envs k _ e _
    · rfl
  · rfl

theorem dispatch_envs (k : Kernel) (c : Cpu) (e e' : EnvIx) :
    (dispatch k c e).envs e' = { k.envs e' with envStatus := (dispatch k c e).status e' } := by
  have h : (dispatch k c e).envs e' =
      { (demote k c).envs e' with envStatus := (dispatch k c e).status e' } :=
    setStatus_envs (demote k c) e e' .running
  rw [h, demote_envs]

theorem dispatch_field {α : Type} (g : Env → α) (hg : ∀ v st, g { v with envStatus := st } = g v)
    (k : Kernel) (c : Cpu) (e e' : EnvIx) : g ((dispatch k c e).envs e') = g (k.envs e') := by
  rw [dispatch_envs, hg]

theorem dispatch_rest (k : Kernel) (c : Cpu) (e : EnvIx) :
    (dispatch k c e).toPhys = k.toPhys ∧ (dispatch k c e).kernPgdir = k.kernPgdir ∧
      (dispatch k c e).envFreeList = k.envFreeList := by
  obtain ⟨h1, h2, h3, -⟩ := demote_rest k c
  exact ⟨h1, h2, h3⟩

theorem dispatch_dirs (k : Kernel) (c : Cpu) (e : EnvIx) : (dispatch k c e).dirs = k.dirs :=
  funext (dispatch_field Env.envPgdir (fun _ _ => rfl) k c e)

theorem envRun_same (h : envRun k c e = some k') : Same (dispatch k c e) k' := by
  rw [envRun] at h
  obtain ⟨d, hd, h⟩ := Option.bind_eq_some_iff.1 h
  cases h
  refine ⟨rfl, rfl, rfl, ?_, ?_, ?_⟩
  · intro e'
    by_cases he : e' = e
    · subst he
      have hd : (dispatch k c e').envs e' = { (demote k c).envs e' with envStatus := .running } :=
        envs_setEnv_self _ _ _
      refine ⟨((demote k c).envs e').envTf, ((demote k c).envs e').envRuns + 1, c, ?_⟩
      rw [hd]
      exact envs_setEnv_self _ _ _
    · have hd : (dispatch k c e).envs e' = (demote k c).envs e' := envs_setEnv_of_ne _ _ he
      refine ⟨((demote k c).envs e').envTf, ((demote k c).envs e').envRuns,
        ((demote k c).envs e').envCpunum, ?_⟩
      rw [hd]
      exact envs_setEnv_of_ne _ _ he
  · intro c'
    by_cases hcc : c' = c
    · subst hcc
      simp [curenv, note, lcr3, setCpu, setEnv, setCurenv, dispatch]
    · simp [curenv, note, lcr3, setCpu, setEnv, setCurenv, dispatch, setStatus, hcc]
  · intro c'
    by_cases hcc : c' = c
    · subst hcc
      simp [note, lcr3, setCpu, setEnv, setCurenv, dispatch, setStatus]
    · simp [note, lcr3, setCpu, setEnv, setCurenv, dispatch, setStatus, hcc]

theorem dispatch_self (hc : k.curenv c = some e) (hst : k.status e = .running) :
    Same k (dispatch k c e) := by
  have hs : ∀ e', (dispatch k c e).status e' = k.status e' := by
    intro e'
    rw [dispatch_status]
    by_cases he : e' = e
    · rw [if_pos he, he, hst]
    · rw [if_neg he, if_neg]
      rintro ⟨h, -⟩
      rw [hc] at h
      exact he (Option.some.inj h).symm
  obtain ⟨h1, h2, h3⟩ := dispatch_rest k c e
  refine ⟨h1, h2, h3, fun e' => ?_, fun c' => ?_, fun c' => dispatch_cpuStatus k c c' e⟩
  · refine ⟨(k.envs e').envTf, (k.envs e').envRuns, (k.envs e').envCpunum, ?_⟩
    rw [dispatch_envs, hs]
    rfl
  · rw [dispatch_curenv]
    split
    · next h => rw [h, hc]
    · rfl

theorem schedPick_unique (h : ∀ e', k.status e' = .runnable ↔ e' = e) (start : Nat) :
    schedPick k start = some e := by
  cases hp : schedPick k start with
  | none => exact absurd ((h e).2 rfl) (schedPick_eq_none hp e)
  | some e' => rw [(h e').1 (schedPick_eq_some hp)]

theorem schedPick_first {start : Nat} (h : k.status (slot start) = .runnable) :
    schedPick k start = some (slot start) := by
  rw [schedPick, show nenv = 1023 + 1 from rfl, List.range_succ_eq_map, List.map_cons,
    List.find?_cons_of_pos]
  · rfl
  · simpa using h

theorem schedYield_pick {d : Nat} (hp : schedPick k (schedStart k c) = some e)
    (hd : k.dirs e = some d) : ∃ k', schedYield k c = some k' ∧ Same (dispatch k c e) k' := by
  obtain ⟨k', hrun⟩ := envRun_some hd c
  refine ⟨k', ?_, envRun_same hrun⟩
  unfold schedYield
  simp only [hp]
  exact hrun

def callFrame (no a1 a2 a3 a4 a5 : Word) : Trapframe :=
  { Trapframe.zero with
    tfRegs := { PushRegs.zero with
      regEax := no, regEdx := a1, regEcx := a2, regEbx := a3, regEdi := a4, regEsi := a5 }
    tfTrapno := tSyscall, tfCs := gdUT ||| 3 }

def callReturn (c : Cpu) (cur : EnvIx) (inp : Inputs) : Kernel × Ret → Option Kernel
  | (k, .ret code) =>
    let tf := (k.envs cur).envTf
    trapReturn (k.setEnv cur { k.envs cur with
      envTf := { tf with tfRegs := { tf.tfRegs with regEax := code } } }) c
  | (k, .gone) => some k
  | (k, .fault) => pageFaultHandler k c cur inp.ktf inp.cr2 false

theorem step_syscall_eq {tf : Trapframe} (hu : k.user c = some cur) (hst : k.status cur ≠ .dying)
    (hcs : tf.tfCs &&& 3 = 3) (htrap : tf.tfTrapno = tSyscall) :
    step k (.trap c tf inp) =
      (syscall (k.setEnv cur { k.envs cur with envTf := tf }) c cur inp tf.tfRegs.regEax
        tf.tfRegs.regEdx tf.tfRegs.regEcx tf.tfRegs.regEbx tf.tfRegs.regEdi tf.tfRegs.regEsi).bind
        (callReturn c cur inp) := by
  have hne : k.user c ≠ none := by
    rw [hu]
    rintro ⟨⟩
  simp only [step]
  rw [if_pos ⟨hne, hcs⟩, trapUser, user_curenv hu]
  simp only [Option.bind_eq_bind, Option.bind_some, if_neg hst]
  rw [trapDispatch, htrap, if_neg (by decide), if_neg (by decide), if_neg (by decide),
    if_neg (by decide), if_neg (by decide), if_neg (by decide), if_pos rfl]
  simp only [Option.bind_eq_bind, Option.bind_assoc]
  congr 1
  funext x
  obtain ⟨k₂, ret⟩ := x
  cases ret <;> rfl

theorem step_call_eq (hu : k.user c = some cur) (hst : k.status cur ≠ .dying) :
    step k (.trap c (callFrame no a1 a2 a3 a4 a5) inp) =
      (syscall (k.setEnv cur { k.envs cur with envTf := callFrame no a1 a2 a3 a4 a5 }) c cur inp
        no a1 a2 a3 a4 a5).bind (callReturn c cur inp) := by
  have hcs : (callFrame no a1 a2 a3 a4 a5).tfCs &&& 3 = 3 := by
    change (gdUT ||| 3) &&& 3 = (3 : BitVec 16)
    decide
  exact step_syscall_eq hu hst hcs rfl

theorem step_call (hu : k.user c = some cur) (hst : k.status cur = .running)
    (hcall : syscall (k.setEnv cur { k.envs cur with envTf := callFrame no a1 a2 a3 a4 a5 }) c cur
      inp no a1 a2 a3 a4 a5 = some (k₂, .ret r))
    (hcur : k₂.curenv c = some cur) (hst₂ : k₂.status cur = .running) {d : Nat}
    (hd : k₂.dirs cur = some d) :
    ∃ k', step k (.trap c (callFrame no a1 a2 a3 a4 a5) inp) = some k' ∧ Same k₂ k' := by
  rw [step_call_eq hu (by rw [hst]; decide), hcall, Option.bind_some]
  simp only [callReturn]
  generalize htf : { (k₂.envs cur).envTf with
    tfRegs := { (k₂.envs cur).envTf.tfRegs with regEax := r } } = tf
  have hframe := Same.frame k₂ cur tf
  generalize k₂.setEnv cur { k₂.envs cur with envTf := tf } = k₃ at hframe ⊢
  have hst₃ : k₃.status cur = .running := (hframe.status_eq cur).trans hst₂
  obtain ⟨k', hrun⟩ := envRun_some (k := k₃) (e := cur) (by rw [hframe.dirs_eq]; exact hd) c
  refine ⟨k', ?_, hframe.trans (Same.trans ?_ (envRun_same hrun))⟩
  · rw [trapReturn, hframe.curenv_eq, hcur]
    simp only [if_pos hst₃]
    exact hrun
  · exact dispatch_self (by rw [hframe.curenv_eq]; exact hcur) hst₃

theorem step_gone (hu : k.user c = some cur) (hst : k.status cur = .running)
    (hcall : syscall (k.setEnv cur { k.envs cur with envTf := callFrame no a1 a2 a3 a4 a5 }) c cur
      inp no a1 a2 a3 a4 a5 = some (k', .gone)) :
    step k (.trap c (callFrame no a1 a2 a3 a4 a5) inp) = some k' := by
  rw [step_call_eq hu (by rw [hst]; decide), hcall, Option.bind_some, callReturn]

theorem step_start {d : Nat} (hc : (k.cpus c).cpuStatus = .started) (hn : k.curenv c = none)
    (hp : schedPick k 0 = some e) (hd : k.dirs e = some d) :
    ∃ k', step k (.start c) = some k' ∧ Same (dispatch k c e) k' := by
  have hs : schedStart k c = 0 := by rw [schedStart, hn]
  obtain ⟨k', hy, hsame⟩ := schedYield_pick (k := k) (c := c) (by rw [hs]; exact hp) hd
  refine ⟨k', ?_, hsame⟩
  simp only [step]
  rw [if_pos ⟨hc, hn⟩]
  exact hy

@[simp] theorem sysno_callFrame : (callFrame no a1 a2 a3 a4 a5).sysno = Sysno.ofWord no :=
  if_pos rfl

end

def noInputs : Inputs := ⟨0, 0, .zero⟩

def call (c : Cpu) (no a1 a2 a3 a4 a5 : Word) : Event :=
  .trap c (callFrame no a1 a2 a3 a4 a5) noInputs

theorem Contained.start {k : Kernel} {c : Cpu} (h : Counted k) : Contained k (.start c) :=
  ⟨h, trivial, (by rintro _ _ _ ⟨⟩), by rintro _ _ _ ⟨⟩⟩

theorem Contained.call {k : Kernel} {c : Cpu} {no a1 a2 a3 a4 a5 : Word} (h : Counted k)
    (hno : ∀ s ∈ [Sysno.envSetStatus, .ipcTrySend, .envDestroy, .envSetTrapframe, .rxpacket],
      Sysno.ofWord no ≠ some s) : Contained k (call c no a1 a2 a3 a4 a5) := by
  have hs : ∀ s ∈ [Sysno.envSetStatus, .ipcTrySend, .envDestroy, .envSetTrapframe, .rxpacket],
      (callFrame no a1 a2 a3 a4 a5).sysno ≠ some s := by
    intro s hs
    rw [sysno_callFrame]
    exact hno s hs
  refine ⟨h, ⟨?_, ?_, ?_⟩, ?_, ?_⟩
  · exact fun h => absurd h (hs _ (by simp))
  · exact fun h => absurd h (hs _ (by simp))
  · rintro (h | h)
    · exact absurd h (hs _ (by simp))
    · exact absurd h (hs _ (by simp))
  · rintro c tf inp ⟨⟩
    exact fun h => absurd h (hs _ (by simp))
  · rintro c tf inp ⟨⟩
    exact fun h => absurd h (hs _ (by simp))

theorem ipcBlock_status (k : Kernel) (e e' : EnvIx) (dstva : Word) :
    (ipcBlock k e dstva).status e' = if e' = e then .notRunnable else k.status e' := by
  by_cases h : e' = e
  · subst h
    rw [if_pos rfl]
    exact congrArg Env.envStatus (envs_setEnv_self _ _ _)
  · rw [if_neg h]
    exact congrArg Env.envStatus (envs_setEnv_of_ne _ _ h)

theorem ipcBlock_field {α : Type} (g : Env → α) (hg : ∀ v st, g { v with envStatus := st } = g v)
    (hg' : ∀ v r d f, g { v with envIpcRecving := r, envIpcDstva := d, envIpcFrom := f } = g v)
    (k : Kernel) (e : EnvIx) (dstva : Word) (e' : EnvIx) :
    g ((ipcBlock k e dstva).envs e') = g (k.envs e') :=
  envs_setEnv_field g k e ((hg _ .notRunnable).trans (hg' (k.envs e) true dstva 0)) e'

theorem ipcBlock_dirs (k : Kernel) (e : EnvIx) (dstva : Word) : (ipcBlock k e dstva).dirs = k.dirs :=
  dirs_setEnv rfl

theorem Same.phys {k k' : Kernel} (h : Same k k') (m : Phys) :
    Same { k with toPhys := m } { k' with toPhys := m } :=
  ⟨rfl, h.kernPgdir_eq, h.freeList_eq, h.envs_eq, h.curenv_eq, h.cpuStatus_eq⟩

section

variable {k : Kernel} {c : Cpu} {cur : EnvIx} {d pp t j : Nat} {m : Phys} {va srcva perm : Word}

theorem step_ret {k₂ : Kernel} {no a1 a2 a3 a4 a5 r : Word} (hu : k.user c = some cur)
    (hst : k.status cur = .running)
    (hcall : ∀ {k₁}, Same k k₁ → ∃ k₂', syscall k₁ c cur noInputs no a1 a2 a3 a4 a5 =
      some (k₂', .ret r) ∧ Same k₂ k₂')
    (hcur : k₂.curenv c = some cur) (hst₂ : k₂.status cur = .running) (hd : k₂.dirs cur = some d) :
    ∃ k', step k (call c no a1 a2 a3 a4 a5) = some k' ∧ Same k₂ k' := by
  obtain ⟨k₂', hcall, s₂⟩ := hcall (Same.frame k cur (callFrame no a1 a2 a3 a4 a5))
  obtain ⟨k', hstep, s'⟩ := step_call hu hst hcall ((s₂.curenv_eq c).trans hcur)
    ((s₂.status_eq cur).trans hst₂) ((congrFun s₂.dirs_eq cur).trans hd)
  exact ⟨k', hstep, s₂.trans s'⟩

theorem envid2env_zero (hcur : k.curenv c = some cur) (checkperm : Bool) :
    envid2env k c 0 checkperm = some cur := by
  rw [envid2env, if_pos rfl, hcur]

theorem step_pageMap (hu : k.user c = some cur) (hst : k.status cur = .running)
    (hd : k.dirs cur = some d) (hsrc : srcva < utop ∧ pgoff srcva = 0)
    (hdst : va < utop ∧ pgoff va = 0) (hperm : permOk perm) (hW : perm &&& pteW = 0)
    (hlook : pageLookup k.toPhys (some d) srcva = some (some (pp, t, j)))
    (hins : pageInsert k.toPhys (some d) pp va perm = some (m, 0)) :
    ∃ k', step k (call c 5 0 srcva 0 va perm) = some k' ∧ Same { k with toPhys := m } k' := by
  have hno : Sysno.ofWord 5 = some .pageMap := by decide
  refine step_ret (r := 0) hu hst (fun {k₁} s₁ => ⟨_, ?_, s₁.phys m⟩) (user_curenv hu) hst hd
  have hcur : k₁.curenv c = some cur := (s₁.curenv_eq c).trans (user_curenv hu)
  have hd₁ : (k₁.envs cur).envPgdir = some d := (congrFun s₁.dirs_eq cur).trans hd
  simp only [syscall, hno]
  rw [sysPageMap, envid2env_zero hcur]
  simp only
  rw [if_neg (user_pages hsrc hdst), if_neg hperm.accepted, hd₁, s₁.toPhys_eq, hlook]
  simp only [Option.bind_eq_bind, Option.bind_some]
  rw [if_neg (fun h => h.1 hW), hins]
  rfl

theorem step_pageUnmap (hu : k.user c = some cur) (hst : k.status cur = .running)
    (hd : k.dirs cur = some d) (hva : va < utop ∧ pgoff va = 0)
    (hrem : pageRemove k.toPhys (some d) va = some m) :
    ∃ k', step k (call c 6 0 va 0 0 0) = some k' ∧ Same { k with toPhys := m } k' := by
  have hargs : ¬(utop ≤ va ∨ pgoff va ≠ 0) := by
    rintro (h | h)
    · exact BitVec.not_le.2 hva.1 h
    · exact h hva.2
  have hno : Sysno.ofWord 6 = some .pageUnmap := by decide
  refine step_ret (r := 0) hu hst (fun {k₁} s₁ => ⟨_, ?_, s₁.phys m⟩) (user_curenv hu) hst hd
  have hcur : k₁.curenv c = some cur := (s₁.curenv_eq c).trans (user_curenv hu)
  have hd₁ : (k₁.envs cur).envPgdir = some d := (congrFun s₁.dirs_eq cur).trans hd
  simp only [syscall, hno]
  rw [sysPageUnmap, envid2env_zero hcur]
  simp only
  rw [if_neg hargs, hd₁, s₁.toPhys_eq, hrem]
  rfl

end

theorem step_ipcRecv {k : Kernel} {c : Cpu} {cur e : EnvIx} {dstva : Word} {d : Nat}
    (hu : k.user c = some cur) (hst : k.status cur = .running)
    (hva : ¬(dstva < utop ∧ pgoff dstva ≠ 0)) (he : ∀ e', k.status e' = .runnable ↔ e' = e)
    (hd : k.dirs e = some d) :
    ∃ k₁ k', Same k k₁ ∧ step k (call c 13 dstva 0 0 0 0) = some k' ∧
      Same (dispatch (ipcBlock k₁ cur dstva) c e) k' := by
  have s₁ := Same.frame k cur (callFrame 13 dstva 0 0 0 0)
  generalize hk₁ : k.setEnv cur { k.envs cur with envTf := callFrame 13 dstva 0 0 0 0 } = k₁ at s₁
  have hne : e ≠ cur := by
    rintro rfl
    rw [(he e).2 rfl] at hst
    cases hst
  have hpick : ∀ e', (ipcBlock k₁ cur dstva).status e' = .runnable ↔ e' = e := by
    intro e'
    rw [ipcBlock_status, s₁.status_eq]
    split
    · next h => simp [h, hne.symm]
    · exact he e'
  obtain ⟨k', hy, s'⟩ := schedYield_pick (k := ipcBlock k₁ cur dstva) (c := c)
    (schedPick_unique hpick _) (by rw [ipcBlock_dirs, s₁.dirs_eq]; exact hd)
  refine ⟨k₁, k', s₁, step_gone hu hst ?_, s'⟩
  have hno : Sysno.ofWord 13 = some .ipcRecv := by decide
  rw [hk₁]
  simp only [syscall, hno]
  rw [sysIpcRecv, if_neg hva]
  exact Option.bind_eq_some_iff.2 ⟨k', hy, rfl⟩

end Jos.Kern
