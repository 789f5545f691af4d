import Jos.Kern.Exec

/-! A machine with two CPUs and 16 megabytes of memory, started with programs that consist of
a stack only. -/

namespace Jos.Kern

open Lib Phys Kernel

def noE1000 : E1000 where
  tdt := 0
  txqueue := fun _ => ⟨0, 0, txdStatDD⟩
  txbuffer := fun _ _ => 0
  rdt := 127
  rxqueue := fun _ => ⟨0, 0⟩
  rxbuffer := fun _ _ => 0

def demo : Machine where
  npages := 4096
  npagesBasemem := 160
  kernEnd := 0xF0180000
  bootstack := 0x110000
  percpuKstacks := 0x120000
  mmio := [(0xFEE00000, 4096), (0xFEBC0000, 0x20000)]
  cpus := 2
  memory := fun _ _ => 0
  e1000 := noE1000
  npages_le := by decide
  basemem_le := by decide
  kernEnd_ge := by decide
  bootstack_aligned := by decide
  percpuKstacks_aligned := by decide
  mmio_le := by simp

def idleProg : Image × EnvType := (⟨0x800020, []⟩, .user)

theorem demo_mmioPages : demo.mmioPages = 36 := by decide

theorem demo_reserved {p : Nat} (h : 680 ≤ p) : reserved 160 96 424 p = false := by
  have h7 : pgnum mpentryPaddr = 7 := by decide
  rw [reserved, decide_eq_false_iff_not]
  omega

theorem demo_memInitPages : ∃ m : Phys, m.npages = 4096 ∧ m.ppLink = (fun _ => none) ∧
    memInitPages demo = some (pageInit 160 0xF01A8000 m, 0x180000, 0x181000, 0x189000) := by
  have h₁ : bootAlloc demo.npages (roundUp demo.kernEnd pgsize) pgsize =
      some (0xF0180000, 0xF0181000) := by decide
  have h₂ : bootAlloc demo.npages 0xF0181000 (BitVec.ofNat 32 (demo.npages * 8)) =
      some (0xF0181000, 0xF0189000) := by decide
  have h₃ : bootAlloc demo.npages 0xF0189000 (BitVec.ofNat 32 (124 * nenv)) =
      some (0xF0189000, 0xF01A8000) := by decide
  have h₄ : bootAlloc demo.npages 0xF01A8000 0 = some (0xF01A8000, 0xF01A8000) := by decide
  have hp : paddr 0xF0180000 = some 0x180000 := by decide
  have hpages : paddr 0xF0181000 = some 0x181000 := by decide
  have henvs : paddr 0xF0189000 = some 0x189000 := by decide
  refine ⟨((⟨demo.npages, demo.memory, fun _ => 0, fun _ => none, none⟩ : Phys).clear
    (pgnum 0x180000)).store (pgnum 0x180000) (pdx uvpt) (0x180000 ||| pteU ||| pteP), rfl, rfl, ?_⟩
  simp only [memInitPages, Option.bind_eq_bind, Option.bind_eq_some_iff, Prod.exists]
  exact ⟨_, _, h₁, _, _, h₂, _, _, h₃, _, hp, _, _, h₄, _, hpages, _, henvs, rfl⟩

theorem demo_pages : ∃ m d pages envs l, memInitPages demo = some (m, d, pages, envs) ∧
    Chain m.ppLink m.pageFreeList l ∧ 3416 ≤ l.length := by
  obtain ⟨m, hn, hlink, hinit⟩ := demo_memInitPages
  have hio : pgnum (extphysmem - iophysmem) = 96 := by decide
  have hnext : pgnum (0xF01A8000 - kernbase) = 424 := by decide
  have hready := pageInit_ready 160 0xF01A8000 hlink
  rw [hio, hnext, hn] at hready
  refine ⟨_, _, _, _, _, hinit, hready.chain, ?_⟩
  have h : ∀ p, 680 ≤ p → reserved 160 96 424 p = false := fun p hp => demo_reserved hp
  have := le_length_freed h 4096
  omega

theorem demo_booted {n : Nat} (hn : n ≤ 2) :
    ∃ (k : Kernel) (s : Setup) (m : Phys) (l₀ : List Nat) (hm : Mapped demo s m l₀) (l : List Nat),
      Booted demo (List.replicate n idleProg) k ∧ Starting demo hm.base k n l ∧ 2000 ≤ l.length := by
  obtain ⟨m₁, d, pages, envs, l₁, hinit, hc, hlen⟩ := demo_pages
  have hprogs : ∀ prog ∈ List.replicate n idleProg,
      prog.1.entry ≠ 0 ∧ prog.1.segments = [] := by
    intro prog hp
    rw [List.eq_of_mem_replicate hp]
    exact ⟨by decide, rfl⟩
  obtain ⟨k, s, m, l₀, hm, l, hboot, hs, hl⟩ := exists_booted hinit hc
    (by rw [demo_mmioPages]; decide) (by rw [List.length_replicate, nenv]; omega)
    (by rw [List.length_replicate]; omega) hprogs
  rw [List.length_replicate] at hs hl
  exact ⟨k, s, m, l₀, hm, l, hboot, hs, by omega⟩

def env0 : EnvIx := ⟨0, by decide⟩
def env1 : EnvIx := ⟨1, by decide⟩
def envid0 : Word := 0x1000
def envid1 : Word := 0x1001

def cpu1 : Cpu := ⟨1, by decide⟩

theorem Starting.dirs_some {M : Machine} {b : Base} {k : Kernel} {n : Nat} {l : List Nat}
    (h : Starting M b k n l) {e : EnvIx} (he : e.val < n) : ∃ d, k.dirs e = some d :=
  Option.ne_none_iff_exists'.1 fun hn => absurd ((h.dirs_none_iff e).1 hn) (Nat.not_le.2 he)

theorem Starting.start {M : Machine} {b : Base} {k : Kernel} {n : Nat} {l : List Nat}
    (h : Starting M b k n l) (hn : 0 < n) (hM : 0 < M.cpus) :
    ∃ k', step k (.start bootcpu) = some k' ∧ Same (dispatch k bootcpu env0) k' := by
  obtain ⟨d, hd⟩ := h.dirs_some (e := env0) hn
  refine step_start ?_ (h.curenv_none bootcpu) ?_ hd
  · rw [h.cpuStatus_eq]
    exact if_pos hM
  · have hp : schedPick k 0 = some (slot 0) := by
      apply schedPick_first
      rw [h.status_eq]
      exact if_pos hn
    exact hp

structure Waiting (b : Base) (dstva : Word) (k : Kernel) (l : List Nat) : Prop where
  kern_eq : k.kernPgdir = b.kern
  spaces : Spaces b k.toPhys k.dirs ∅ l
  counted : Counted k
  started : (k.cpus bootcpu).cpuStatus = .started
  curenv_eq : k.curenv bootcpu = some env1
  others : ∀ {c}, c ≠ bootcpu → k.curenv c = none
  status0 : k.status env0 = .notRunnable
  status1 : k.status env1 = .running
  id0 : (k.envs env0).envId = envid0
  recving : (k.envs env0).envIpcRecving = true
  dstva_eq : (k.envs env0).envIpcDstva = dstva
  sender : (k.envs env0).envIpcFrom = 0
  perm : (k.envs env0).envIpcPerm = 0
  dir0 : ∃ d, k.dirs env0 = some d
  dir1 : ∃ d, k.dirs env1 = some d
  stack : HasStack k.toPhys k.dirs env1

theorem Starting.waiting {b : Base} {k₀ : Kernel} {l : List Nat} (h : Starting demo b k₀ 2 l)
    (dstva : Word) (hva : ¬(dstva < utop ∧ pgoff dstva ≠ 0)) :
    ∃ k₁ k₂, step k₀ (.start bootcpu) = some k₁ ∧ Counted k₁ ∧
      step k₁ (call bootcpu 13 dstva 0 0 0 0) = some k₂ ∧ Waiting b dstva k₂ l := by
  obtain ⟨k₁, h₁, s₁⟩ := h.start (by decide) (by decide)
  obtain ⟨d₀, hd₀⟩ := h.dirs_some (e := env0) (by decide)
  obtain ⟨d₁, hd₁⟩ := h.dirs_some (e := env1) (by decide)
  have hdirs₁ : k₁.dirs = k₀.dirs := s₁.dirs_eq.trans (dispatch_dirs k₀ bootcpu env0)
  have hcur₁ : k₁.curenv bootcpu = some env0 := by
    rw [s₁.curenv_eq, dispatch_curenv, if_pos rfl]
  have hcpu₁ : (k₁.cpus bootcpu).cpuStatus = .started := by
    rw [s₁.cpuStatus_eq, dispatch_cpuStatus, h.cpuStatus_eq]
    rfl
  have hstat₁ : ∀ e, k₁.status e = if e = env0 then .running else k₀.status e := by
    intro e
    rw [s₁.status_eq, dispatch_status, h.curenv_none]
    simp
  have hrun₁ : ∀ e, k₁.status e = .runnable ↔ e = env1 := by
    intro e
    rw [hstat₁, h.status_eq]
    simp only [Fin.ext_iff, env0, env1]
    split_ifs <;> simp <;> omega
  have hu₁ : k₁.user bootcpu = some env0 := by rw [user, if_pos hcpu₁, hcur₁]
  obtain ⟨k₁', k₂, s₁', h₂, s₂⟩ := step_ipcRecv hu₁ (by rw [hstat₁, if_pos rfl]) hva hrun₁
    (by rw [hdirs₁]; exact hd₁)
  have hself : (ipcBlock k₁' env0 dstva).envs env0 = { k₁'.envs env0 with
      envIpcRecving := true, envIpcDstva := dstva, envStatus := .notRunnable, envIpcFrom := 0 } := by
    simp [ipcBlock, note, setEnv]
  -- a field that neither the scheduler nor `sys_ipc_recv` touches
  have hkept : ∀ {α : Type} (g : Env → α),
      (∀ v tf runs cpu, g { v with envTf := tf, envRuns := runs, envCpunum := cpu } = g v) →
      (∀ v st, g { v with envStatus := st } = g v) → g (k₁'.envs env0) = g (k₀.envs env0) := by
    intro α g hg hg'
    rw [s₁'.field g hg, s₁.field g hg, dispatch_field g hg']
  have hafter : ∀ {α : Type} (g : Env → α),
      (∀ v tf runs cpu, g { v with envTf := tf, envRuns := runs, envCpunum := cpu } = g v) →
      (∀ v st, g { v with envStatus := st } = g v) →
      g (k₂.envs env0) = g { k₁'.envs env0 with
        envIpcRecving := true, envIpcDstva := dstva, envStatus := .notRunnable, envIpcFrom := 0 } := by
    intro α g hg hg'
    rw [s₂.field g hg, dispatch_field g hg', hself]
  obtain ⟨⟨tf, ty, d, link, hv⟩, -⟩ := h.created (e := env0) (by decide)
  have hdirs₂ : k₂.dirs = k₀.dirs := by
    rw [s₂.dirs_eq, dispatch_dirs, ipcBlock_dirs, s₁'.dirs_eq, hdirs₁]
  have hphys₁ : k₁.toPhys = k₀.toPhys := s₁.toPhys_eq.trans (dispatch_rest k₀ bootcpu env0).1
  have hphys₂ : k₂.toPhys = k₀.toPhys := by
    rw [s₂.toPhys_eq, (dispatch_rest _ _ _).1]
    change k₁'.toPhys = _
    rw [s₁'.toPhys_eq, hphys₁]
  refine ⟨k₁, k₂, h₁, h.counted.congr hphys₁ hdirs₁, h₂, ?_, ?_, h.counted.congr hphys₂ hdirs₂,
    ?_, ?_, ?_, ?_, ?_, ?_, ?_, ?_, ?_, ?_, ?_, ?_, ?_⟩
  · rw [s₂.kernPgdir_eq, (dispatch_rest _ _ _).2.1]
    change k₁'.kernPgdir = _
    rw [s₁'.kernPgdir_eq, s₁.kernPgdir_eq, (dispatch_rest _ _ _).2.1, h.kern_eq]
  · rw [hphys₂, hdirs₂]
    exact h.spaces
  · rw [s₂.cpuStatus_eq, dispatch_cpuStatus]
    exact (s₁'.cpuStatus_eq bootcpu).trans hcpu₁
  · rw [s₂.curenv_eq, dispatch_curenv, if_pos rfl]
  · intro c hc
    rw [s₂.curenv_eq, dispatch_curenv, if_neg hc]
    change k₁'.curenv c = none
    rw [s₁'.curenv_eq, s₁.curenv_eq, dispatch_curenv, if_neg hc, h.curenv_none]
  · rw [s₂.status_eq, dispatch_status, ipcBlock_status, if_neg (by decide), if_neg, if_pos rfl]
    rintro ⟨-, hst⟩
    rw [if_pos rfl] at hst
    cases hst
  · rw [s₂.status_eq, dispatch_status, if_pos rfl]
  · rw [hafter Env.envId (fun _ _ _ _ => rfl) (fun _ _ => rfl)]
    change (k₁'.envs env0).envId = _
    rw [hkept Env.envId (fun _ _ _ _ => rfl) (fun _ _ => rfl), hv]
    change envgen 0 env0 = envid0
    decide
  · rw [hafter Env.envIpcRecving (fun _ _ _ _ => rfl) (fun _ _ => rfl)]
  · rw [hafter Env.envIpcDstva (fun _ _ _ _ => rfl) (fun _ _ => rfl)]
  · rw [hafter Env.envIpcFrom (fun _ _ _ _ => rfl) (fun _ _ => rfl)]
  · rw [hafter Env.envIpcPerm (fun _ _ _ _ => rfl) (fun _ _ => rfl)]
    change (k₁'.envs env0).envIpcPerm = _
    rw [hkept Env.envIpcPerm (fun _ _ _ _ => rfl) (fun _ _ => rfl), hv]
    rfl
  · exact ⟨d₀, by rw [hdirs₂]; exact hd₀⟩
  · exact ⟨d₁, by rw [hdirs₂]; exact hd₁⟩
  · rw [hphys₂, hdirs₂]
    exact (h.created (e := env1) (by decide)).2

namespace Waiting

variable {b : Base} {dstva value : Word} {k k' : Kernel} {l : List Nat}

theorem same (h : Waiting b dstva k l) (s : Same k k') : Waiting b dstva k' l where
  kern_eq := s.kernPgdir_eq.trans h.kern_eq
  spaces := s.spaces h.spaces
  counted := h.counted.congr s.toPhys_eq s.dirs_eq
  started := (s.cpuStatus_eq _).trans h.started
  curenv_eq := (s.curenv_eq _).trans h.curenv_eq
  others := fun hc => (s.curenv_eq _).trans (h.others hc)
  status0 := (s.status_eq _).trans h.status0
  status1 := (s.status_eq _).trans h.status1
  id0 := (s.field Env.envId (fun _ _ _ _ => rfl) _).trans h.id0
  recving := (s.field Env.envIpcRecving (fun _ _ _ _ => rfl) _).trans h.recving
  dstva_eq := (s.field Env.envIpcDstva (fun _ _ _ _ => rfl) _).trans h.dstva_eq
  sender := (s.field Env.envIpcFrom (fun _ _ _ _ => rfl) _).trans h.sender
  perm := (s.field Env.envIpcPerm (fun _ _ _ _ => rfl) _).trans h.perm
  dir0 := by rw [s.dirs_eq]; exact h.dir0
  dir1 := by rw [s.dirs_eq]; exact h.dir1
  stack := by rw [s.toPhys_eq, s.dirs_eq]; exact h.stack

theorem user_eq (h : Waiting b dstva k l) : k.user bootcpu = some env1 := by
  rw [user, if_pos h.started, h.curenv_eq]

theorem receiver (h : Waiting b dstva k l) : envid2env k bootcpu envid0 false = some env0 := by
  have hx : envx envid0 = env0 := by decide
  have hf : ¬(k.status env0 = .free ∨ (k.envs env0).envId ≠ envid0) := by
    rw [h.status0, h.id0]
    decide
  rw [envid2env, if_neg (by decide)]
  simp only [hx]
  rw [if_neg hf, if_neg (by simp)]

theorem contained (h : Waiting b dstva k l) (hva : dstva < utop) {srcva perm a5 : Word} :
    Contained k (call bootcpu 12 envid0 value srcva perm a5) := by
  have hno : (callFrame 12 envid0 value srcva perm a5).sysno = some .ipcTrySend := by
    rw [sysno_callFrame]
    decide
  refine ⟨h.counted, ⟨?_, ?_, ?_⟩, ?_, ?_⟩
  · rw [hno]
    rintro ⟨⟩
  · intro _ e he _ c hc
    rw [h.others hc]
    rintro ⟨⟩
  · rw [hno]
    rintro (⟨⟨⟩⟩ | ⟨⟨⟩⟩)
  · rintro c tf inp ⟨⟩ _ e he _ _
    have he : some env0 = some e := h.receiver.symm.trans he
    cases he
    rwa [h.dstva_eq]
  · rintro c tf inp ⟨⟩
    rw [hno]
    rintro ⟨⟩

theorem page (h : Waiting b dstva k l) :
    ∃ pp, pp ∈ b.pool ∧ (∀ r : Ref, r.Structural → target k.toPhys k.dirs r ≠ some pp) ∧
      pp ∉ l ∧ target k.toPhys k.dirs (.pte env1 (dirIx stackVa stackVa_lt) (tabIx stackVa)) = some pp ∧
      ipcPage k env1 stackVa (pteU ||| pteP) = some (.ok (some pp)) := by
  obtain ⟨pp, -, htgt⟩ := h.stack
  obtain ⟨d, hd⟩ := h.dir1
  obtain ⟨hpool, hs⟩ := h.spaces.data_page htgt
  obtain ⟨t, -, hlook⟩ := h.spaces.shape.pageLookup_some hd stackVa_lt htgt hpool
  have hd' : (k.envs env1).envPgdir = some d := hd
  refine ⟨pp, hpool, hs, h.spaces.free.balanced.notMem_free htgt, htgt, ?_⟩
  rw [ipcPage, if_neg (by decide), if_neg (by decide), if_neg (by decide), if_neg (by decide), hd',
    hlook]
  have hw : (pteU ||| pteP) &&& pteW = 0 := by decide
  simp [hw]

theorem trySend (h : Waiting b dstva k l) (value : Word) {pp : Nat} {m : Phys}
    (hpage : ipcPage k env1 stackVa (pteU ||| pteP) = some (.ok (some pp)))
    (hins : (dstva ≠ 0 ∧ pageInsert k.toPhys (k.dirs env0) pp dstva (pteU ||| pteP) = some (m, 0)) ∨
      (dstva = 0 ∧ m = k.toPhys)) :
    sysIpcTrySend k bootcpu env1 envid0 value stackVa (pteU ||| pteP) =
      some (ipcDeliver ({ k with toPhys := m }.setEnv env0 { k.envs env0 with
        envIpcPerm := if dstva = 0 then 0 else pteU ||| pteP }) env1 env0 value, .ret 0) := by
  have hready : ¬((k.envs env0).envIpcRecving ≠ true ∨ (k.envs env0).envIpcFrom ≠ 0) := by
    rw [h.recving, h.sender]
    decide
  rw [sysIpcTrySend, h.receiver]
  simp only [if_neg hready, hpage, Option.bind_eq_bind, Option.bind_some]
  rcases hins with ⟨hne, hins⟩ | ⟨rfl, rfl⟩
  · have hne₁ : (k.envs env0).envIpcDstva ≠ 0 := by rwa [h.dstva_eq]
    have hins₁ : pageInsert k.toPhys (k.envs env0).envPgdir pp (k.envs env0).envIpcDstva
        (pteU ||| pteP) = some (m, 0) := by
      rw [h.dstva_eq]
      exact hins
    rw [if_pos hne₁, hins₁]
    simp only [Option.bind_some, slt_zero, Bool.false_eq_true, if_false]
    rw [if_neg hne]
    rfl
  · have hself : { k.envs env0 with envIpcPerm := if (0 : Word) = 0 then 0 else pteU ||| pteP } =
        k.envs env0 := by
      have := h.perm
      rw [if_pos rfl, ← this]
    have hk : { k with toPhys := k.toPhys }.setEnv env0 (k.envs env0) = k := by
      simp [setEnv]
    rw [if_neg (by rw [h.dstva_eq]; decide), hself, hk]
    rfl

theorem send (h : Waiting b dstva k l) (value : Word) {pp : Nat} {m : Phys}
    (hpage : ipcPage k env1 stackVa (pteU ||| pteP) = some (.ok (some pp)))
    (hins : (dstva ≠ 0 ∧ pageInsert k.toPhys (k.dirs env0) pp dstva (pteU ||| pteP) = some (m, 0)) ∨
      (dstva = 0 ∧ m = k.toPhys)) :
    ∃ k', step k (call bootcpu 12 envid0 value stackVa (pteU ||| pteP) 0) = some k' ∧
      k'.toPhys = m ∧ k'.dirs = k.dirs ∧ k'.kernPgdir = k.kernPgdir ∧
      (k'.envs env0).envIpcPerm = (if dstva = 0 then 0 else pteU ||| pteP) ∧
      (k'.envs env0).envIpcValue = value ∧ k'.status env0 = .runnable := by
  have s₁ := Same.frame k env1 (callFrame 12 envid0 value stackVa (pteU ||| pteP) 0)
  generalize hk₁ : k.setEnv env1 { k.envs env1 with
    envTf := callFrame 12 envid0 value stackVa (pteU ||| pteP) 0 } = k₁ at s₁
  have w := h.same s₁
  have hins₁ : (dstva ≠ 0 ∧
      pageInsert k₁.toPhys (k₁.dirs env0) pp dstva (pteU ||| pteP) = some (m, 0)) ∨
      (dstva = 0 ∧ m = k₁.toPhys) := by
    rw [s₁.toPhys_eq, s₁.dirs_eq]
    exact hins
  -- the state when the message itself is written
  have hcall := w.trySend value (by rw [s₁.ipcPage_eq]; exact hpage) hins₁
  set v : Env := { k₁.envs env0 with envIpcPerm := if dstva = 0 then 0 else pteU ||| pteP } with hv
  set k₂ := ipcDeliver ({ k₁ with toPhys := m }.setEnv env0 v) env1 env0 value with hk₂
  have hself : ∃ tf, k₂.envs env0 = { v with
      envIpcFrom := ((({ k₁ with toPhys := m } : Kernel).setEnv env0 v).envs env1).envId
      envIpcRecving := false, envIpcValue := value, envStatus := .runnable, envTf := tf } := by
    refine ⟨{ v.envTf with tfRegs := { v.envTf.tfRegs with regEax := 0 } }, ?_⟩
    simp [hk₂, ipcDeliver, note, setEnv]
  have hother : k₂.envs env1 = k₁.envs env1 := by
    have : env1 ≠ env0 := by decide
    simp [hk₂, ipcDeliver, note, setEnv, this]
  obtain ⟨tf, hself⟩ := hself
  have hdirs : k₂.dirs = k.dirs := by
    rw [← s₁.dirs_eq]
    funext e
    by_cases he : e = env0
    · rw [he, dirs, hself, dirs, hv]
    · simp [dirs, hk₂, ipcDeliver, note, setEnv, he]
  obtain ⟨d, hd⟩ := h.dir1
  have hno : Sysno.ofWord 12 = some .ipcTrySend := by decide
  have hcall' : syscall k₁ bootcpu env1 noInputs 12 envid0 value stackVa (pteU ||| pteP) 0 =
      some (k₂, .ret 0) := by
    simp only [syscall, hno]
    exact hcall
  have hcur₂ : k₂.curenv bootcpu = some env1 := w.curenv_eq
  rw [← hk₁] at hcall'
  obtain ⟨k', hstep, s'⟩ := step_call h.user_eq h.status1 hcall' hcur₂ (by rw [status, hother]; exact w.status1) (by rw [hdirs]; exact hd)
  refine ⟨k', hstep, s'.toPhys_eq, s'.dirs_eq.trans hdirs, ?_, ?_, ?_, ?_⟩
  · exact s'.kernPgdir_eq.trans s₁.kernPgdir_eq
  · rw [s'.field Env.envIpcPerm fun _ _ _ _ => rfl, hself]
  · rw [s'.field Env.envIpcValue fun _ _ _ _ => rfl, hself]
  · rw [s'.status_eq, status, hself]

end Waiting

end Jos.Kern
