import Jos.Kern.Discipline
import Jos.Lib.Mailbox

/-! Messages between environments: `env_ipc_recving`, `env_ipc_from` and the status of an
environment as a mailbox with one slot. -/

namespace Jos.Kern

open Lib Kernel

/-- What a note says about the mailbox of `e`: a pair of value and sender is put in by
`sys_ipc_try_send`, and `e` looks whenever it runs. -/
def Note.act (e : EnvIx) : Note → Option (Act (Word × Word))
  | .alloc e' => if e' = e then some .reset else none
  | .freed _ e' => if e' = e then some .reset else none
  | .ran _ e' value sender => if e' = e then some (.look (value, sender)) else none
  | .recv e' => if e' = e then some .ask else none
  | .sent e' value sender => if e' = e then some (.put (value, sender)) else none

def acts (e : EnvIx) (trace : List Note) : List (Act (Word × Word)) := trace.filterMap (Note.act e)

/-- The phase of the mailbox, read off the fields of `e`.  When `quiet`, nothing holds `e` back
from its message. -/
def PhaseOk (quiet : Prop) (k : Kernel) (e : EnvIx) : Phase (Word × Word) → Prop
  | .idle => k.status e = .free ∨ (k.envs e).envIpcRecving = false
  | .waiting => (k.envs e).envIpcRecving = true ∧ k.status e = .notRunnable
  | .full x => (k.envs e).envIpcRecving = false ∧
      ((k.envs e).envIpcValue, (k.envs e).envIpcFrom) = x ∧
      (k.status e = .runnable ∨ ¬quiet ∧ k.status e = .notRunnable)

/-- Every mailbox is in order; when `quiet`, none was reset with a message in it. -/
structure Exchange (quiet : Prop) (k : Kernel) : Prop where
  phase : ∀ e, ∃ p, phase (acts e k.trace) = some p ∧ PhaseOk quiet k e p
  lossless : quiet → ∀ e, Lossless (acts e k.trace)

/-- A trap that sets no environment running that waits for a message, and meddles with none that
another CPU runs. -/
structure PoliteCall (k : Kernel) (c : Cpu) (tf : Trapframe) : Prop where
  setStatus : tf.sysno = some .envSetStatus → ∀ {e}, envid2env k c tf.tfRegs.regEdx true = some e →
    (∀ c', c' ≠ c → k.curenv c' ≠ some e) ∧
    (tf.tfRegs.regEcx = EnvStatus.runnable.code → (k.envs e).envIpcRecving = false)
  destroy : tf.sysno = some .envDestroy ∨ tf.sysno = some .envSetTrapframe →
    ∀ {e}, envid2env k c tf.tfRegs.regEdx true = some e →
    ∀ c', c' ≠ c → k.curenv c' = some e → k.status e = .running

def Polite (k : Kernel) : Event → Prop
  | .trap c tf _ => PoliteCall k c tf
  | _ => True

/-- A trap other than the calls that set the status of an environment or may destroy another
one than the caller. -/
structure QuietCall (tf : Trapframe) : Prop where
  setStatus : tf.sysno ≠ some .envSetStatus
  destroy : tf.sysno ≠ some .envDestroy
  setTrapframe : tf.sysno ≠ some .envSetTrapframe

def Quiet (_ : Kernel) : Event → Prop
  | .trap _ tf _ => QuietCall tf
  | _ => True

section

variable {quiet : Prop} {c : Cpu} {k k' : Kernel} {e cur : EnvIx} {tf : Trapframe}
  {p : Phase (Word × Word)}

theorem PhaseOk.congr (h : PhaseOk quiet k e p) (hs : k'.status e = k.status e)
    (hr : (k'.envs e).envIpcRecving = (k.envs e).envIpcRecving)
    (hv : (k'.envs e).envIpcValue = (k.envs e).envIpcValue)
    (hf : (k'.envs e).envIpcFrom = (k.envs e).envIpcFrom) : PhaseOk quiet k' e p := by
  cases p with
  | idle =>
    rw [PhaseOk, hs, hr]
    exact h
  | waiting =>
    rw [PhaseOk, hs, hr]
    exact h
  | full x =>
    rw [PhaseOk, hs, hr, hv, hf]
    exact h

theorem PhaseOk.congr_env (h : PhaseOk quiet k e p) (henv : k'.envs e = k.envs e) :
    PhaseOk quiet k' e p :=
  h.congr (congrArg Env.envStatus henv) (congrArg Env.envIpcRecving henv)
    (congrArg Env.envIpcValue henv) (congrArg Env.envIpcFrom henv)

namespace Exchange

theorem congr (h : Exchange quiet k) (ht : k'.trace = k.trace) (hs : ∀ e, k'.status e = k.status e)
    (hr : ∀ e, (k'.envs e).envIpcRecving = (k.envs e).envIpcRecving)
    (hv : ∀ e, (k'.envs e).envIpcValue = (k.envs e).envIpcValue)
    (hf : ∀ e, (k'.envs e).envIpcFrom = (k.envs e).envIpcFrom) : Exchange quiet k' := by
  refine ⟨fun e => ?_, ?_⟩
  · obtain ⟨p, hp, hok⟩ := h.phase e
    exact ⟨p, by rw [ht, hp], hok.congr (hs e) (hr e) (hv e) (hf e)⟩
  · rw [ht]
    exact h.lossless

theorem setEnv (h : Exchange quiet k) {v : Env} (hs : v.envStatus = (k.envs e).envStatus)
    (hr : v.envIpcRecving = (k.envs e).envIpcRecving) (hv : v.envIpcValue = (k.envs e).envIpcValue)
    (hf : v.envIpcFrom = (k.envs e).envIpcFrom) : Exchange quiet (k.setEnv e v) :=
  h.congr rfl (envs_setEnv_field Env.envStatus k e hs) (envs_setEnv_field Env.envIpcRecving k e hr)
    (envs_setEnv_field Env.envIpcValue k e hv) (envs_setEnv_field Env.envIpcFrom k e hf)

theorem running (h : Exchange quiet k) (hst : k.status e = .running) :
    Lib.phase (acts e k.trace) = some .idle ∧ (k.envs e).envIpcRecving = false := by
  obtain ⟨p, hp, hok⟩ := h.phase e
  cases p with
  | idle =>
    rw [PhaseOk, hst] at hok
    exact ⟨hp, hok.resolve_left (by decide)⟩
  | waiting =>
    rw [PhaseOk, hst] at hok
    cases hok.2
  | full x =>
    rw [PhaseOk, hst] at hok
    rcases hok.2.2 with h | ⟨-, h⟩ <;> cases h

theorem receiving (h : Exchange quiet k) (hr : (k.envs e).envIpcRecving = true)
    (hst : k.status e ≠ .free) :
    Lib.phase (acts e k.trace) = some .waiting ∧ k.status e = .notRunnable := by
  obtain ⟨p, hp, hok⟩ := h.phase e
  cases p with
  | idle =>
    rw [PhaseOk, hr] at hok
    rcases hok with h | h
    · exact absurd h hst
    · cases h
  | waiting => exact ⟨hp, hok.2⟩
  | full x =>
    rw [PhaseOk, hr] at hok
    cases hok.1

theorem note (h : Exchange quiet k) {n : Note} {a : Act (Word × Word)} {p q : Phase (Word × Word)}
    (ht : k'.trace = n :: k.trace) (hn : n.act e = some a) (hother : ∀ {e'}, e' ≠ e → n.act e' = none)
    (hq : Lib.phase (acts e k.trace) = some q) (hp : q.next a = some p) (hok : PhaseOk quiet k' e p)
    (hsame : ∀ {e' p}, e' ≠ e → PhaseOk quiet k e' p → PhaseOk quiet k' e' p)
    (hl : quiet → Lossless (acts e k.trace) → Lossless (a :: acts e k.trace)) :
    Exchange quiet k' := by
  have hself : acts e k'.trace = a :: acts e k.trace := by
    rw [acts, ht, List.filterMap_cons, hn, acts]
  have helse : ∀ {e'}, e' ≠ e → acts e' k'.trace = acts e' k.trace := by
    intro e' hee
    rw [acts, ht, List.filterMap_cons, hother hee, acts]
  refine ⟨fun e' => ?_, fun hquiet e' => ?_⟩
  · by_cases hee : e' = e
    · subst hee
      refine ⟨p, ?_, hok⟩
      rw [hself, Lib.phase, hq, Option.bind_some, hp]
    · obtain ⟨p', hp', hok'⟩ := h.phase e'
      exact ⟨p', by rw [helse hee, hp'], hsame hee hok'⟩
  · by_cases hee : e' = e
    · subst hee
      rw [hself]
      exact hl hquiet (h.lossless hquiet e')
    · rw [helse hee]
      exact h.lossless hquiet e'

theorem update (h : Exchange quiet k) {v : Env}
    (hok : ∀ {p}, PhaseOk quiet k e p → PhaseOk quiet (k.setEnv e v) e p) :
    Exchange quiet (k.setEnv e v) := by
  refine ⟨fun e' => ?_, h.lossless⟩
  obtain ⟨p, hp, hok'⟩ := h.phase e'
  by_cases hee : e' = e
  · subst hee
    exact ⟨p, hp, hok hok'⟩
  · exact ⟨p, hp, hok'.congr_env (envs_setEnv_of_ne k v hee)⟩

theorem phys (h : Exchange quiet k) (m : Phys) : Exchange quiet { k with toPhys := m } :=
  h.congr rfl (fun _ => rfl) (fun _ => rfl) (fun _ => rfl) fun _ => rfl

theorem setCurenv (h : Exchange quiet k) (v : Option EnvIx) : Exchange quiet (k.setCurenv c v) :=
  h.congr rfl (fun _ => rfl) (fun _ => rfl) (fun _ => rfl) fun _ => rfl

theorem frame (h : Exchange quiet k) (tf' : Trapframe) :
    Exchange quiet (k.setEnv e { k.envs e with envTf := tf' }) :=
  h.setEnv rfl rfl rfl rfl

theorem setStatus (h : Exchange quiet k) (hquiet : ¬quiet) (hnf : k.status e ≠ .free)
    {st : EnvStatus} (hst : st = .runnable ∨ st = .notRunnable)
    (hrun : st = .runnable → (k.envs e).envIpcRecving = false) :
    Exchange quiet (k.setStatus e st) := by
  apply h.update
  intro p hok
  rw [PhaseOk.eq_def]
  simp only [status, envs_setEnv_self]
  cases p with
  | idle => exact .inr (hok.resolve_left hnf)
  | waiting =>
    refine ⟨hok.1, hst.resolve_left fun hr => ?_⟩
    have := hrun hr
    rw [hok.1] at this
    cases this
  | full x => exact ⟨hok.1, hok.2.1, hst.imp_right fun hr => ⟨hquiet, hr⟩⟩

theorem mark (h : Exchange quiet k) (hst : k.status e = .running) :
    Exchange quiet (k.setStatus e .dying) := by
  have hrun := h.running hst
  apply h.update
  intro p hok
  cases p with
  | idle => exact .inr (by rw [envs_setEnv_self]; exact hrun.2)
  | waiting =>
    rw [PhaseOk, hst] at hok
    cases hok.2
  | full x =>
    rw [PhaseOk, hst] at hok
    rcases hok.2.2 with h | ⟨-, h⟩ <;> cases h

theorem allocated (h : Exchange quiet k) {parentId : Word} (ha : Allocated k parentId e k')
    (hst : k.status e = .free) {tf' : Trapframe} :
    Exchange quiet (k'.setEnv e { k'.envs e with envStatus := .notRunnable, envTf := tf' }) := by
  obtain ⟨q, hq, hok⟩ := h.phase e
  refine h.note (n := .alloc e) (p := .idle) ha.trace_eq (if_pos rfl) (fun hee => if_neg hee.symm)
    hq (by cases q <;> rfl) (.inr ?_) ?_ ?_
  · obtain ⟨d, henv⟩ := ha.envs_self
    rw [envs_setEnv_self, henv]
  · intro e' p hee hp
    have henv : (k'.setEnv e { k'.envs e with envStatus := .notRunnable, envTf := tf' }).envs e' =
        k.envs e' := by rw [envs_setEnv_of_ne k' _ hee, ha.envs_eq hee]
    exact hp.congr_env henv
  · intro _ hl
    refine ⟨hl, fun x hx => ?_⟩
    rw [hq] at hx
    cases hx
    rw [PhaseOk, hst] at hok
    rcases hok.2.2 with h | ⟨-, h⟩ <;> cases h

theorem freed (h : Exchange quiet k) (hf : Freed k c e k')
    (hl : quiet → k.status e = .running ∨ k.status e = .dying) : Exchange quiet k' := by
  obtain ⟨q, hq, hok⟩ := h.phase e
  refine h.note (n := .freed c e) (p := .idle) hf.trace_eq (if_pos rfl) (fun hee => if_neg hee.symm)
    hq (by cases q <;> rfl) (.inl ?_) ?_ ?_
  · rw [status, hf.envs_self]
  · intro e' p hee hp
    exact hp.congr_env (hf.envs_eq hee)
  · intro hquiet hl'
    refine ⟨hl', fun x hx => ?_⟩
    rw [hq] at hx
    cases hx
    rcases hok.2.2 with h | ⟨hn, -⟩
    · rcases hl hquiet with h' | h' <;> rw [h] at h' <;> cases h'
    · exact hn hquiet

theorem deliver (h : Exchange quiet k) (hr : (k.envs e).envIpcRecving = true)
    (hst : k.status e ≠ .free) (value : Word) : Exchange quiet (ipcDeliver k cur e value) := by
  obtain ⟨hq, -⟩ := h.receiving hr hst
  refine h.note (n := .sent e value (k.envs cur).envId) rfl (if_pos rfl) (fun hee => if_neg hee.symm)
    hq rfl ?_ ?_ (fun _ => id)
  · simp only [PhaseOk, ipcDeliver, Kernel.note, status, envs_setEnv_self, true_and, true_or]
  · intro e' p hee hp
    have henv : (ipcDeliver k cur e value).envs e' = k.envs e' := envs_setEnv_of_ne k _ hee
    exact hp.congr_env henv

theorem send (h : Exchange quiet k) {envid value srcva perm r : Word}
    (hs : SendStep k c cur envid value srcva perm k' r)
    (hcur : ∀ e, k.curenv c = some e → k.status e ≠ .free) : Exchange quiet k' := by
  cases hs with
  | refused => exact h
  | plain he hr => exact h.deliver hr (envid2env_status he hcur) value
  | dropped he hr => exact h.deliver hr (envid2env_status he hcur) value
  | noMemory => exact h.phys _
  | @mapped e _ m _ he hr =>
    have hset : Exchange quiet (Kernel.setEnv { k with toPhys := m } e
        { k.envs e with envIpcPerm := perm }) := (h.phys m).setEnv rfl rfl rfl rfl
    apply hset.deliver
    · rw [envs_setEnv_self]
      exact hr
    · rw [status, envs_setEnv_self]
      exact envid2env_status he hcur

theorem block (h : Exchange quiet k) (hst : k.status cur = .running) (dstva : Word) :
    Exchange quiet (ipcBlock k cur dstva) := by
  obtain ⟨hq, -⟩ := h.running hst
  refine h.note (n := .recv cur) rfl (if_pos rfl) (fun hee => if_neg hee.symm) hq rfl ?_ ?_
    (fun _ => id)
  · simp only [PhaseOk, ipcBlock, Kernel.note, status, envs_setEnv_self, and_self]
  · intro e' p hee hp
    have henv : (ipcBlock k cur dstva).envs e' = k.envs e' := envs_setEnv_of_ne k _ hee
    exact hp.congr_env henv

theorem ran (h : Exchange quiet k) (he : k.status e = .runnable ∨ k.status e = .running)
    (hr : Ran k c e k') : Exchange quiet k' := by
  have hfields : ∀ e', (k'.envs e').envIpcRecving = (k.envs e').envIpcRecving ∧
      (k'.envs e').envIpcValue = (k.envs e').envIpcValue ∧
      (k'.envs e').envIpcFrom = (k.envs e').envIpcFrom := by
    intro e'
    obtain ⟨st, runs, cpu, heq⟩ := hr.alike e'
    rw [heq]
    exact ⟨rfl, rfl, rfl⟩
  obtain ⟨q, hq, hok⟩ := h.phase e
  have hnext : q.next (.look ((k.envs e).envIpcValue, (k.envs e).envIpcFrom)) = some .idle ∧
      (k.envs e).envIpcRecving = false := by
    cases q with
    | idle =>
      refine ⟨rfl, hok.resolve_left ?_⟩
      rcases he with he | he <;> rw [he] <;> decide
    | waiting => rcases he with he | he <;> rw [PhaseOk, he] at hok <;> cases hok.2
    | full x => exact ⟨if_pos hok.2.1, hok.1⟩
  refine h.note (n := .ran c e _ _) hr.trace_eq (if_pos rfl) (fun hee => if_neg hee.symm) hq hnext.1
    (.inr ?_) ?_ (fun _ => id)
  · rw [(hfields e).1]
    exact hnext.2
  · intro e' p hee hp
    have hst := hr.status_eq e'
    rw [if_neg hee] at hst
    split at hst
    · next hdem =>
      cases p with
      | idle =>
        have := (h.running hdem.2).2
        exact .inr (by rw [(hfields e').1]; exact this)
      | waiting =>
        rw [PhaseOk, hdem.2] at hp
        cases hp.2
      | full x =>
        rw [PhaseOk, hdem.2] at hp
        rcases hp.2.2 with h | ⟨-, h⟩ <;> cases h
    · exact hp.congr hst (hfields e').1 (hfields e').2.1 (hfields e').2.2

theorem halted (h : Exchange quiet k) (hh : Halted k c k') : Exchange quiet k' := by
  have henv : ∀ e, k'.envs e = k.envs e := fun e => by rw [hh.envs_eq]
  exact h.congr hh.trace_eq (fun e => congrArg Env.envStatus (henv e))
    (fun e => congrArg Env.envIpcRecving (henv e)) (fun e => congrArg Env.envIpcValue (henv e))
    (fun e => congrArg Env.envIpcFrom (henv e))

theorem schedYield (h : Exchange quiet k) (hy : schedYield k c = some k') : Exchange quiet k' := by
  rcases schedYield_cases hy with ⟨e, he, hrun⟩ | ⟨-, -, hhalt⟩
  · exact h.ran (he.imp_right And.right) (envRun_ran hrun)
  · exact h.halted (schedHalt_halted hhalt)

end Exchange

theorem PoliteCall.frame (h : PoliteCall k c tf) (tf' : Trapframe) :
    PoliteCall (k.setEnv e { k.envs e with envTf := tf' }) c tf := by
  refine ⟨?_, ?_⟩
  · intro hno e' he'
    rw [envid2env_frame] at he'
    rw [recving_frame]
    exact h.setStatus hno he'
  · intro hno e' he' c' hc' hcur
    rw [envid2env_frame] at he'
    rw [status_frame]
    exact h.destroy hno he' c' hc' hcur

theorem QuietCall.polite (h : QuietCall tf) : PoliteCall k c tf := by
  refine ⟨fun hno => absurd hno h.setStatus, ?_⟩
  rintro (hno | hno)
  · exact absurd hno h.destroy
  · exact absurd hno h.setTrapframe

theorem PoliteCall.disciplined (h : PoliteCall k c tf) (hx : Exchange quiet k) (hi : Inside c k) :
    DisciplinedCall k c tf := by
  refine ⟨fun hno e he => (h.setStatus hno he).1, ?_, h.destroy⟩
  intro hno e he hr c' hcc hc'
  have hnf := envid2env_status he fun e he => (hi.self he).2
  have hst := (hx.receiving hr hnf).2
  rcases hi.other hcc hc' with hs | hs <;> rw [hst] at hs <;> cases hs

theorem exchangeRules (quiet : Prop) (k₀ : Kernel) (c : Cpu) (cur : EnvIx) (tf : Trapframe) :
    Rules c cur tf
      (fun k => (Inside c k ∧ Since c k₀ k ∧ k.curenv c = some cur ∧ DisciplinedCall k c tf) ∧
        Exchange quiet k ∧ k.status cur = .running ∧ PoliteCall k c tf ∧ (quiet → QuietCall tf))
      (fun k => (Inside c k ∧ Since c k₀ k ∧ k.curenv c = some cur) ∧
        Exchange quiet k ∧ k.status cur = .running)
      (fun k => (Inside c k ∧ Since c k₀ k) ∧ Exchange quiet k)
      (fun k => (Dispatched k ∧ Since c k₀ k) ∧ Exchange quiet k) := by
  have D := dispatchRules k₀ c cur tf
  exact {
    weaken := fun ⟨hd, hx, hst, _⟩ => ⟨D.weaken hd, hx, hst⟩
    forget := fun ⟨hd, hx, _⟩ => ⟨D.forget hd, hx⟩
    current := fun ⟨hd, _⟩ => D.current hd
    frame := by
      rintro k e tf' ⟨hd, hx, hst⟩ -
      refine ⟨⟨hd.1.frame tf', hd.2.1.frame tf', hd.2.2⟩, hx.frame tf', ?_⟩
      rw [← hst]
      exact envs_setEnv_field Env.envStatus k e (by rfl) cur
    result := fun tf' ⟨hd, hx⟩ => ⟨D.result tf' hd, hx.frame tf'⟩
    tick := fun ticks ⟨hd, hx, _⟩ => ⟨D.tick ticks hd,
      hx.congr rfl (fun _ => rfl) (fun _ => rfl) (fun _ => rfl) fun _ => rfl⟩
    device := fun d ⟨hd, hx, hst⟩ => ⟨D.device d hd,
      hx.congr rfl (fun _ => rfl) (fun _ => rfl) (fun _ => rfl) fun _ => rfl, hst⟩
    upcall := fun func ⟨hd, hx, _⟩ hno he =>
      ⟨D.upcall func hd hno he, hx.setEnv rfl rfl rfl rfl⟩
    fork := by
      rintro k k' r ⟨hd, hx, -⟩ hno h
      refine ⟨D.fork hd hno h, ?_⟩
      rcases sysExofork_cases h with (rfl | ⟨m, -, rfl⟩) | ⟨e, k₁, tf', ha, -, rfl⟩
      · exact hx
      · exact hx.phys m
      · obtain ⟨l, hchain, hfree⟩ := hd.1.list
        rw [ha.head] at hchain
        cases hchain with
        | cons hchain => exact hx.allocated ha (hfree e List.mem_cons_self)
    setStatus := by
      rintro k e st ⟨hd, hx, -, hp, hq⟩ hno he hst hcode
      refine ⟨D.setStatus st hd hno he hst hcode, ?_⟩
      apply hx.setStatus
      · exact fun quiet => (hq quiet).setStatus hno
      · exact envid2env_status he fun e he => (hd.1.self he).2
      · exact hst
      · exact fun hr => (hp.setStatus hno he).2 (hcode.1 hr)
    pageAlloc := by
      rintro k k' r ⟨hd, hx, -⟩ hno h
      refine ⟨D.pageAlloc hd hno h, ?_⟩
      obtain ⟨-, m, rfl⟩ := sysPageAlloc_ret h
      exact hx.phys m
    pageMap := by
      rintro k k' r ⟨hd, hx, -⟩ hno h
      refine ⟨D.pageMap hd hno h, ?_⟩
      obtain ⟨-, m, rfl⟩ := sysPageMap_ret h
      exact hx.phys m
    pageUnmap := by
      rintro k k' r ⟨hd, hx, -⟩ hno h
      refine ⟨D.pageUnmap hd hno h, ?_⟩
      obtain ⟨-, m, rfl⟩ := sysPageUnmap_ret h
      exact hx.phys m
    trySend := by
      rintro k k' r ⟨hd, hx, -⟩ hno h
      refine ⟨D.trySend hd hno h, ?_⟩
      exact hx.send (sysIpcTrySend_step h) fun e he => (hd.1.self he).2
    recv := by
      rintro k ⟨hd, hx, hst, -⟩ hno hva
      exact ⟨D.recv hd hno hva, hx.block hst _⟩
    mark := by
      rintro k e ⟨hd, hx, hst, -⟩ hno he hrun hne
      refine ⟨D.mark hd hno he hrun hne, hx.mark hrun, ?_⟩
      have hce : cur ≠ e := by
        rintro rfl
        exact hne hd.2.2.1
      rw [status_setStatus, if_neg hce, hst]
    free := by
      rintro k k' e ⟨hd, hx, hst, -, hq⟩ hno he hrun hne h
      have hf := envFree_freed h
      refine ⟨D.free hd hno he hrun hne h, hx.freed hf ?_, ?_⟩
      · intro quiet
        rcases hno with hno | hno
        · exact absurd hno (hq quiet).destroy
        · exact absurd hno (hq quiet).setTrapframe
      · have hce : cur ≠ e := by
          rintro rfl
          exact hne hd.2.2.1
        rw [status, hf.envs_eq hce]
        exact hst
    exit := by
      rintro k k' ⟨hd, hx, hst⟩ h
      refine ⟨D.exit hd h, ?_⟩
      exact (hx.freed (envFree_freed h) fun _ => .inl hst).setCurenv none
    receive := fun bs ⟨hd, hx, hst, _⟩ hno hc =>
      ⟨D.receive bs hd hno hc, hx.phys _, hst⟩
    push := fun esp bs ⟨hd, hx, hst⟩ hf hc =>
      ⟨D.push esp bs hd hf hc, hx.phys _, hst⟩
    run := fun ⟨hd, hx⟩ he h =>
      ⟨D.run hd he h, hx.ran (he.imp_right And.right) (envRun_ran h)⟩
    resume := fun ⟨hd, hx, hst⟩ h =>
      ⟨D.resume hd h, hx.ran (.inr hst) (envRun_ran h)⟩
    halt := fun ⟨hd, hx⟩ hn hcur h =>
      ⟨D.halt hd hn hcur h, hx.halted (schedHalt_halted h)⟩ }

theorem Exchange.trapUser (hx : Exchange quiet k) (hd : Dispatched k) {inp : Inputs}
    (hawake : (k.cpus c).cpuStatus ≠ .halted) (hp : PoliteCall k c tf) (hq : quiet → QuietCall tf)
    (h : trapUser k c tf inp = some k') : Dispatched k' ∧ Exchange quiet k' := by
  cases hcur : k.curenv c with
  | none => simp [Kern.trapUser, hcur] at h
  | some cur =>
    have hi : k.status cur ≠ .dying → Inside c k := by
      refine fun hdy => hd.inside hawake fun e he => ?_
      rw [hcur] at he
      cases he
      exact hdy
    by_cases hdy : k.status cur = .dying
    · obtain ⟨k₁, hfree, hy⟩ := trapUser_dying hcur hdy h
      have hf := envFree_freed hfree
      have hne : ∀ c', c' ≠ c → k.curenv c' ≠ some cur :=
        fun c' hcc hc' => hcc (hd.inj hc' hcur)
      have hi := (hd.around hawake).exit hcur (hd.status_ne_free hcur) hf
      have hs := ((Since.refl c k).freed hf hne).setCurenv none
      exact ⟨(hi.schedYield hs hy).1, ((hx.freed hf fun _ => .inr hdy).setCurenv none).schedYield hy⟩
    · have hi := hi hdy
      have hst : (k.setEnv cur { k.envs cur with envTf := tf }).status cur = .running := by
        rw [status, envs_setEnv_self]
        exact (hd.current hcur).resolve_right hdy
      obtain ⟨⟨hd', -⟩, hx'⟩ := (exchangeRules quiet k c cur tf).trapUser hcur hdy
        ⟨⟨hi.frame tf, (Since.refl c k).frame tf, hcur, (hp.disciplined hx hi).frame tf⟩,
          hx.frame tf, hst, hp.frame tf, hq⟩ h
      exact ⟨hd', hx'⟩

theorem Exchange.trapHalted (hx : Exchange quiet k) {trapno : Word}
    (h : trapHalted k c trapno = some k') : Exchange quiet k' := by
  have hx₁ : Exchange quiet (k.setCpu c { k.cpus c with cpuStatus := .started }) :=
    hx.congr rfl (fun _ => rfl) (fun _ => rfl) (fun _ => rfl) fun _ => rfl
  simp only [Kern.trapHalted] at h
  generalize k.setCpu c { k.cpus c with cpuStatus := .started } = k₁ at hx₁ h
  split at h
  · obtain ⟨k₂, htick, h⟩ := Option.bind_eq_some_iff.1 h
    simp only [timeTick] at htick
    split at htick
    · cases htick
    · cases htick
      have hx₂ : Exchange quiet { k₁ with ticks := k₁.ticks + 1 } :=
        hx₁.congr rfl (fun _ => rfl) (fun _ => rfl) (fun _ => rfl) fun _ => rfl
      exact hx₂.schedYield h
  · split at h
    · rcases trapReturn_cases h with ⟨e, -, hst, hrun⟩ | hy
      · exact hx₁.ran (.inr hst) (envRun_ran hrun)
      · exact hx₁.schedYield hy
    · cases h

theorem Exchange.step {ev : Event} (hx : Exchange quiet k) (hd : Dispatched k) (hp : Polite k ev)
    (hq : quiet → Quiet k ev) (h : Kern.step k ev = some k') : Dispatched k' ∧ Exchange quiet k' := by
  cases ev with
  | start c =>
    have hd' := (hd.step (show Disciplined k (.start c) from trivial) h).1
    simp only [Kern.step] at h
    split at h
    · exact ⟨hd', hx.schedYield h⟩
    · cases h
  | trap c tf inp =>
    simp only [Kern.step] at h
    split at h
    · next hc =>
      refine hx.trapUser hd ?_ hp hq h
      intro hh
      rw [user, hh, if_neg (by decide)] at hc
      exact hc.1 rfl
    · cases h
  | irq c trapno =>
    have hd' := (hd.step (show Disciplined k (.irq c trapno) from trivial) h).1
    simp only [Kern.step] at h
    split at h
    · exact ⟨hd', hx.trapHalted h⟩
    · cases h
  | store c va b =>
    have hd' := (hd.step (show Disciplined k (.store c va b) from trivial) h).1
    simp only [Kern.step] at h
    split at h
    · obtain ⟨m, -, rfl⟩ := Option.map_eq_some_iff.1 h
      exact ⟨hd', hx.phys m⟩
    · cases h
  | device d =>
    have hd' := (hd.step (show Disciplined k (.device d) from trivial) h).1
    cases h
    exact ⟨hd', hx.congr rfl (fun _ => rfl) (fun _ => rfl) (fun _ => rfl) fun _ => rfl⟩

end

end Jos.Kern
