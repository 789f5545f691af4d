import Jos.Kern.MemInit
import Jos.Kern.LoadIcode
import Jos.Kern.Dispatch

/-! The state in which `i386_init` hands over to the scheduler. -/

namespace Jos.Kern

open Lib Phys Kernel

def Mapped.base {M : Machine} {s : Setup} {m : Phys} {l : List Nat} (h : Mapped M s m l) : Base where
  npages := s.npages
  pool := {p | p ∈ l}
  kern := s.kern
  mem := m.mem
  npages_le := by
    rw [h.npages_eq]
    exact M.npages_le
  pool_lt := fun hp => s.lt (h.map.sub hp)
  kern_lt := s.kern_lt
  kern_notMem := fun hp => s.kern_notMem (h.map.sub hp)
  pde := by
    intro i h1 h2 h3
    rcases h.map.pde ⟨h1, h2, h3⟩ with h0 | ⟨t, ht, htl, hw⟩
    · exact .inl h0
    · exact .inr ⟨t, s.lt ht, htl, hw⟩
  uvpt := h.map.uvpt
  pte_user := fun h1 h2 ht hj => (h.map.pte ⟨h1, by omega, by omega⟩ ht hj).user h2
  pte_kern := fun h1 h2 ht hj => (h.map.pte ⟨by omega, h2, by omega⟩ ht hj).kernel (by omega)

theorem target_no_dirs (m : Phys) (r : Ref) : target m (fun _ => none) r = none := by
  cases r with
  | dir e => rfl
  | pde e i => rfl
  | pte e i j => rw [target, entry_of_dir_none rfl, present_zero]

theorem Mapped.spaces {M : Machine} {s : Setup} {m : Phys} {l : List Nat} (h : Mapped M s m l) :
    Spaces h.base m (fun _ => none) ∅ l := by
  have htgt := target_no_dirs m
  refine ⟨⟨h.map.npages_eq, fun _ => rfl, ?_, ?_, ?_, ?_, ?_, ?_⟩, ⟨h.map.chain, ?_, ?_⟩⟩
  · intro r r' p _ hr
    rw [htgt] at hr
    cases hr
  · rintro e d ⟨⟩
  · rintro e d i ⟨⟩
  · rintro e d ⟨⟩
  · rintro e d ⟨⟩
  · exact fun e i j => .inl (entry_of_dir_none rfl i j)
  · have hz : ∀ p, refCount (target m fun _ => none) p = 0 := by
      intro p
      refine refCount_eq_zero_iff.2 ?_
      intro r
      rw [htgt]
      rintro ⟨⟩
    refine ⟨?_, ?_, ?_, ?_⟩
    · intro r p hr
      rw [htgt] at hr
      cases hr
    · intro p hp
      rw [hz, h.map.ref_free hp]
      rfl
    · intro p
      rw [hz]
      exact ⟨fun hp => ⟨hp, rfl, Set.notMem_empty p⟩, fun hp => hp.1⟩
    · exact fun hp => absurd hp (Set.notMem_empty _)
  · exact fun _ hp => h.map.link_none hp

def Created (e : EnvIx) (v : Env) : Prop :=
  ∃ tf ty d link, v = { envZero with
    envId := envgen 0 e, envStatus := .runnable, envTf := tf, envType := ty, envPgdir := some d,
    envLink := link }

def Unused (v : Env) : Prop := ∃ link, v = { envZero with envLink := link }

structure Starting (M : Machine) (b : Base) (k : Kernel) (n : Nat) (l : List Nat) : Prop where
  kern_eq : k.kernPgdir = b.kern
  spaces : Spaces b k.toPhys k.dirs ∅ l
  unshared : Unshared (target k.toPhys k.dirs)
  list : Chain (fun e => (k.envs e).envLink) k.envFreeList ((List.finRange nenv).drop n)
  created : ∀ {e : EnvIx}, e.val < n → Created e (k.envs e) ∧ HasStack k.toPhys k.dirs e
  unused : ∀ {e : EnvIx}, n ≤ e.val → Unused (k.envs e)
  curenv_none : ∀ c, k.curenv c = none
  cpuStatus_eq : ∀ c : Cpu, (k.cpus c).cpuStatus = if c.val < M.cpus then .started else .unused
  trace : ∀ note ∈ k.trace, ∃ e, note = .alloc e

theorem mem_drop_finRange {n : Nat} {e : EnvIx} :
    e ∈ (List.finRange nenv).drop n ↔ n ≤ e.val := by
  rw [List.mem_drop_iff_getElem]
  constructor
  · rintro ⟨j, hj, rfl⟩
    simp
  · intro h
    refine ⟨e.val - n, ?_, ?_⟩
    · rw [List.length_finRange]
      have := e.isLt
      omega
    · ext
      simp
      omega

section

variable {M : Machine} {b : Base} {k k' : Kernel} {n : Nat} {l : List Nat}

namespace Starting

theorem status_eq (h : Starting M b k n l) (e : EnvIx) :
    k.status e = if e.val < n then .runnable else .free := by
  split
  · next hn =>
    obtain ⟨⟨tf, ty, d, link, hv⟩, -⟩ := h.created hn
    rw [status, hv]
  · next hn =>
    obtain ⟨link, hv⟩ := h.unused (Nat.not_lt.1 hn)
    rw [status, hv]
    rfl

theorem dirs_none_iff (h : Starting M b k n l) (e : EnvIx) : k.dirs e = none ↔ n ≤ e.val := by
  rcases Nat.lt_or_ge e.val n with hn | hn
  · obtain ⟨⟨tf, ty, d, link, hv⟩, -⟩ := h.created hn
    rw [dirs, hv]
    simp only [reduceCtorEq, false_iff]
    omega
  · obtain ⟨link, hv⟩ := h.unused hn
    rw [dirs, hv]
    exact ⟨fun _ => hn, fun _ => rfl⟩

theorem sound (h : Starting M b k n l) : Sound b k := by
  refine ⟨h.kern_eq, ⟨l, h.spaces⟩, ⟨_, h.list, ?_⟩, ?_⟩
  · intro e
    rw [mem_drop_finRange, h.dirs_none_iff]
  · intro e hst
    rw [h.dirs_none_iff]
    rw [h.status_eq] at hst
    split at hst
    · cases hst
    · omega

theorem counted (h : Starting M b k n l) : Counted k := fun p =>
  (h.unshared.refCount_le p).trans (by decide)

theorem dispatched (h : Starting M b k n l) : Dispatched k := by
  have hcur : ∀ {c e}, k.curenv c ≠ some e := by
    intro c e
    rw [h.curenv_none]
    rintro ⟨⟩
  refine ⟨fun he => absurd he hcur, fun he => absurd he hcur, ?_, fun he => absurd he hcur, ?_,
    fun _ => h.curenv_none _⟩
  · intro e hst
    rw [h.status_eq] at hst
    split at hst <;> rcases hst with hst | hst <;> cases hst
  · refine ⟨_, h.list, fun e he => ?_⟩
    rw [h.status_eq, if_neg (Nat.not_lt.2 (mem_drop_finRange.1 he))]

end Starting

theorem envInit_foldr (k : Kernel) :
    envInit k = (List.finRange nenv).foldr (fun e k => envInitStep k e) k :=
  List.foldl_reverse

theorem envInitSteps {k : Kernel} (hk : k.envs = fun _ => envZero) (hf : k.envFreeList = none)
    {es : List EnvIx} (hes : es.Nodup) :
    let k' := es.foldr (fun e k => envInitStep k e) k
    (k'.toPhys = k.toPhys ∧ k'.kernPgdir = k.kernPgdir ∧ k'.cpus = k.cpus ∧ k'.trace = k.trace) ∧
      Chain (fun e => (k'.envs e).envLink) k'.envFreeList es ∧ ∀ e, Unused (k'.envs e) := by
  induction es with
  | nil =>
    refine ⟨⟨rfl, rfl, rfl, rfl⟩, ?_, fun e => ⟨none, ?_⟩⟩
    · rw [List.foldr_nil, hf]
      exact .nil
    · rw [List.foldr_nil, hk]
      rfl
  | cons e es ih =>
    obtain ⟨he, hes⟩ := List.nodup_cons.1 hes
    obtain ⟨hrest, hchain, hunused⟩ := ih hes
    rw [List.foldr_cons]
    generalize es.foldr (fun e k => envInitStep k e) k = k₁ at *
    refine ⟨hrest, ?_, ?_⟩
    · have hlink : (fun e' => ((envInitStep k₁ e).envs e').envLink) =
          Function.update (fun e' => (k₁.envs e').envLink) e k₁.envFreeList := by
        funext e'
        rw [envInitStep]
        by_cases hee : e' = e
        · subst hee
          simp [setEnv]
        · simp [setEnv, hee]
      rw [hlink]
      exact hchain.push he
    · intro e'
      rw [envInitStep]
      by_cases hee : e' = e
      · subst hee
        obtain ⟨link, hv⟩ := hunused e'
        refine ⟨k₁.envFreeList, ?_⟩
        change (k₁.setEnv e' _).envs e' = _
        rw [envs_setEnv_self, hv]
        rfl
      · obtain ⟨link, hv⟩ := hunused e'
        refine ⟨link, ?_⟩
        change (k₁.setEnv e _).envs e' = _
        rw [envs_setEnv_of_ne _ _ hee, hv]

theorem kernStart_spec (M : Machine) (m : Phys) (kern : Nat) :
    (kernStart M m kern).toPhys = m ∧ (kernStart M m kern).kernPgdir = kern ∧
      (kernStart M m kern).cpus =
        (fun c : Cpu => ⟨if c.val < M.cpus then .started else .unused, none, kern⟩) ∧
      (kernStart M m kern).trace = [] ∧
      Chain (fun e => ((kernStart M m kern).envs e).envLink) (kernStart M m kern).envFreeList
        (List.finRange nenv) ∧
      ∀ e, Unused ((kernStart M m kern).envs e) := by
  simp only [kernStart, envInit_foldr]
  generalize hes : List.finRange nenv = es
  have hnd : es.Nodup := hes ▸ List.nodup_finRange nenv
  obtain ⟨⟨h1, h2, h3, h4⟩, hchain, hunused⟩ := envInitSteps
    (k := { toPhys := m, kernPgdir := kern, envs := fun _ => envZero, envFreeList := none,
            cpus := fun c : Cpu => ⟨if c.val < M.cpus then .started else .unused, none, kern⟩,
            ticks := 0, e1000 := M.e1000, trace := [] }) rfl rfl hnd
  exact ⟨h1, h2, h3, h4, hchain, hunused⟩

theorem Mapped.starting {s : Setup} {m : Phys} (h : Mapped M s m l) :
    Starting M h.base (kernStart M m s.kern) 0 l := by
  obtain ⟨h1, h2, h3, h4, hchain, hunused⟩ := kernStart_spec M m s.kern
  generalize kernStart M m s.kern = k at *
  have hdirs : k.dirs = fun _ => none := by
    funext e
    obtain ⟨link, hv⟩ := hunused e
    rw [dirs, hv]
    rfl
  refine ⟨h2, ?_, ?_, ?_, fun hn => absurd hn (Nat.not_lt_zero _), fun _ => hunused _, ?_, ?_, ?_⟩
  · rw [h1, hdirs]
    exact h.spaces
  · rw [h1, hdirs]
    intro r r' p hr
    rw [target_no_dirs] at hr
    cases hr
  · rw [List.drop_zero]
    exact hchain
  · intro c
    rw [curenv, h3]
  · intro c
    rw [h3]
  · intro note hn
    rw [h4] at hn
    cases hn

namespace Starting

theorem head (h : Starting M b k n l) (hn : n < nenv) :
    k.envFreeList = some ⟨n, hn⟩ ∧
      Chain (fun e => (k.envs e).envLink) (k.envs ⟨n, hn⟩).envLink ((List.finRange nenv).drop (n + 1)) := by
  have hl := h.list
  have hcons : (List.finRange nenv).drop n = ⟨n, hn⟩ :: (List.finRange nenv).drop (n + 1) := by
    rw [List.drop_eq_getElem_cons (by rwa [List.length_finRange]), List.getElem_finRange]
    rfl
  rw [hcons] at hl
  generalize (List.finRange nenv).drop (n + 1) = es at hl
  have hhead : k.envFreeList = some ⟨n, hn⟩ := hl.head_eq
  rw [hhead] at hl
  cases hl with
  | cons hl => exact ⟨hhead, hl⟩

theorem envAlloc {pp : Nat} (h : Starting M b k n (pp :: l)) (hn : n < nenv) :
    ∃ k₁, envAlloc k 0 = some (k₁, .ok ⟨n, hn⟩) ∧ Allocated k 0 ⟨n, hn⟩ k₁ ∧
      k₁.dirs = Function.update k.dirs ⟨n, hn⟩ (some pp) ∧ Spaces b k₁.toPhys k₁.dirs ∅ l ∧
      Unshared (target k₁.toPhys k₁.dirs) ∧
      entry k₁.toPhys k₁.dirs = entry k.toPhys k.dirs := by
  have hnone : k.dirs ⟨n, hn⟩ = none := (h.dirs_none_iff _).2 (Nat.le_refl n)
  obtain ⟨m', hvm, hsp, htgt, hent⟩ := h.spaces.envSetupVm_cons hnone
  obtain ⟨k₁, hk₁⟩ : ∃ k₁, Kern.envAlloc k 0 = some (k₁, .ok ⟨n, hn⟩) := by
    rw [Kern.envAlloc, (h.head hn).1]
    simp only [h.kern_eq, hvm, Option.bind_eq_bind, Option.bind_some]
    exact ⟨_, rfl⟩
  rcases envAlloc_cases hk₁ with ⟨_, he, -⟩ | ⟨e, he, ha⟩
  · cases he
  · cases he
    obtain ⟨d, hvm', hd⟩ := ha.vm
    rw [h.kern_eq, hvm] at hvm'
    obtain ⟨rfl, hpp⟩ := Prod.mk.inj (Option.some.inj hvm')
    cases hpp
    have hdirs : k₁.dirs = Function.update k.dirs ⟨n, hn⟩ (some pp) := by
      funext e'
      by_cases hee : e' = ⟨n, hn⟩
      · rw [hee, hd, Function.update_self]
      · rw [Function.update_of_ne hee, dirs, ha.envs_eq hee, dirs]
    refine ⟨k₁, hk₁, ha, hdirs, by rwa [hdirs], ?_, by rw [hdirs, hent]⟩
    rw [hdirs, htgt]
    exact h.unshared.update (h.spaces.free.target_ne List.mem_cons_self)

theorem load {pp : Nat} (h : Starting M b k n (pp :: l)) (hn : n < nenv) {k₁ : Kernel}
    (ha : Allocated k 0 ⟨n, hn⟩ k₁)
    (hent : entry k₁.toPhys k₁.dirs = entry k.toPhys k.dirs) {m : Phys} {l' : List Nat}
    (hg : Grown b k₁.dirs ⟨n, hn⟩ k₁.toPhys m l') (hs : HasStack m k₁.dirs ⟨n, hn⟩)
    (tf : Trapframe) (ty : EnvType) :
    Starting M b
      ({ k₁.lcr3 bootcpu pp with toPhys := m }.setEnv ⟨n, hn⟩
        { k₁.envs ⟨n, hn⟩ with envTf := tf, envType := ty }) (n + 1) l' := by
  set k' := { k₁.lcr3 bootcpu pp with toPhys := m }.setEnv ⟨n, hn⟩
    { k₁.envs ⟨n, hn⟩ with envTf := tf, envType := ty } with hk'
  have hdirs' : k'.dirs = k₁.dirs := dirs_setEnv (k := { k₁.lcr3 bootcpu pp with toPhys := m }) rfl
  have hself : k'.envs ⟨n, hn⟩ = { k₁.envs ⟨n, hn⟩ with envTf := tf, envType := ty } :=
    envs_setEnv_self _ _ _
  have hother : ∀ {e}, e ≠ ⟨n, hn⟩ → k'.envs e = k.envs e := fun {e} he =>
    (envs_setEnv_of_ne _ _ he).trans (ha.envs_eq he)
  obtain ⟨d, hv⟩ := ha.envs_self
  have hlink : (fun e => (k'.envs e).envLink) = fun e => (k.envs e).envLink := by
    funext e
    by_cases he : e = ⟨n, hn⟩
    · rw [he, hself, hv]
    · rw [hother he]
  refine ⟨ha.kernPgdir_eq.trans h.kern_eq, ?_, ?_, ?_, ?_, ?_, ?_, ?_, ?_⟩
  · rw [hdirs']
    exact hg.spaces
  · rw [hdirs']
    exact hg.unshared
  · rw [hlink]
    change Chain _ k₁.envFreeList _
    rw [ha.freeList_eq]
    exact (h.head hn).2
  · intro e he
    rw [hdirs']
    by_cases hee : e = ⟨n, hn⟩
    · subst hee
      obtain ⟨link, hu⟩ := h.unused (e := ⟨n, hn⟩) (Nat.le_refl n)
      refine ⟨⟨tf, ty, d, link, ?_⟩, hs⟩
      rw [hself, hv, hu]
      rfl
    · have hlt : e.val < n := by
        have : e.val ≠ n := fun hc => hee (Fin.ext hc)
        omega
      obtain ⟨hc, hst⟩ := h.created hlt
      rw [hother hee]
      refine ⟨hc, hst.congr ?_⟩
      change entry m k₁.dirs e = _
      rw [hg.entry_eq hee, hent]
  · intro e he
    have hee : e ≠ ⟨n, hn⟩ := by
      rintro rfl
      exact absurd he (Nat.not_le.2 (Nat.lt_succ_self n))
    rw [hother hee]
    exact h.unused (Nat.le_of_succ_le he)
  · intro c
    have hc := h.curenv_none c
    by_cases hcc : c = bootcpu
    · subst hcc
      simpa [hk', setEnv, curenv, lcr3, setCpu, ha.cpus_eq] using hc
    · simpa [hk', setEnv, curenv, lcr3, setCpu, ha.cpus_eq, hcc] using hc
  · intro c
    have hc := h.cpuStatus_eq c
    by_cases hcc : c = bootcpu
    · subst hcc
      simpa [hk', setEnv, lcr3, setCpu, ha.cpus_eq] using hc
    · simpa [hk', setEnv, lcr3, setCpu, ha.cpus_eq, hcc] using hc
  · intro note hm
    have ht : k'.trace = .alloc ⟨n, hn⟩ :: k.trace := ha.trace_eq
    rw [ht] at hm
    rcases List.mem_cons.1 hm with rfl | hm
    · exact ⟨_, rfl⟩
    · exact h.trace note hm

theorem envAlloc_fails (h : Starting M b k n l) (hf : l = [] ∨ nenv ≤ n) :
    ∃ k₁ r, Kern.envAlloc k 0 = some (k₁, .error r) := by
  rcases Nat.lt_or_ge n nenv with hn | hn
  · obtain rfl := hf.resolve_right (Nat.not_le.2 hn)
    refine ⟨{ k with toPhys := k.toPhys }, -eNoMem, ?_⟩
    rw [Kern.envAlloc, (h.head hn).1]
    simp only [h.kern_eq, h.spaces.envSetupVm_nil, Option.bind_eq_bind, Option.bind_some]
    rfl
  · have hnil : (List.finRange nenv).drop n = [] :=
      List.drop_eq_nil_of_le (by rwa [List.length_finRange])
    have hl := h.list.head_eq
    rw [hnil] at hl
    refine ⟨k, -eNoFreeEnv, ?_⟩
    rw [Kern.envAlloc, hl]
    rfl

theorem envCreate (h : Starting M b k n l) {prog : Image × EnvType}
    (hst : envCreate k prog = some k') : ∃ l', Starting M b k' (n + 1) l' := by
  rw [Kern.envCreate] at hst
  by_cases hf : l = [] ∨ nenv ≤ n
  · obtain ⟨k₁, r, hr⟩ := h.envAlloc_fails hf
    rw [hr] at hst
    cases hst
  · obtain ⟨hl, hn⟩ := not_or.1 hf
    obtain ⟨pp, l, rfl⟩ := List.exists_cons_of_ne_nil hl
    obtain ⟨k₁, heq, ha, hdirs, hsp, hu, hent⟩ := h.envAlloc (Nat.not_le.1 hn)
    rw [heq] at hst
    have hd : k₁.dirs ⟨n, Nat.not_le.1 hn⟩ = some pp := by rw [hdirs, Function.update_self]
    have hd' : (k₁.envs ⟨n, Nat.not_le.1 hn⟩).envPgdir = some pp := hd
    simp only [Option.bind_eq_bind, Option.bind_some, hd'] at hst
    obtain ⟨m, hm, hst⟩ := Option.bind_eq_some_iff.1 hst
    cases hst
    obtain ⟨l', hg, hs⟩ := hsp.loadIcode hu hd hm
    exact ⟨l', h.load _ ha hent hg hs _ _⟩

theorem envCreate_some (h : Starting M b k n l) {prog : Image × EnvType} (hn : n < nenv)
    (hl : 3 ≤ l.length) (he : prog.1.entry ≠ 0) (hs : prog.1.segments = []) :
    ∃ k' l', Kern.envCreate k prog = some k' ∧ Starting M b k' (n + 1) l' ∧
      l.length ≤ l'.length + 3 := by
  cases l with
  | nil => cases hl
  | cons pp l =>
    obtain ⟨k₁, heq, ha, hdirs, hsp, hu, hent⟩ := h.envAlloc hn
    have hd : k₁.dirs ⟨n, hn⟩ = some pp := by rw [hdirs, Function.update_self]
    have hd' : (k₁.envs ⟨n, hn⟩).envPgdir = some pp := hd
    obtain ⟨m, l', hm, hg, hlen, hst⟩ := hsp.loadIcode_some hu hd he hs
      (Nat.le_of_succ_le_succ hl)
    refine ⟨_, l', ?_, h.load hn ha hent hg hst (createTf (k₁.envs ⟨n, hn⟩).envTf prog) prog.2, ?_⟩
    · rw [Kern.envCreate, heq]
      refine Option.bind_eq_some_iff.2 ⟨_, rfl, ?_⟩
      exact Option.bind_eq_some_iff.2 ⟨pp, hd', Option.bind_eq_some_iff.2 ⟨m, hm, rfl⟩⟩
    · rw [List.length_cons]
      omega

theorem envCreates (h : Starting M b k n l) {progs : List (Image × EnvType)}
    (hst : progs.foldlM Kern.envCreate k = some k') :
    ∃ l', Starting M b k' (n + progs.length) l' := by
  induction progs generalizing k n l with
  | nil =>
    cases hst
    exact ⟨l, h⟩
  | cons prog progs ih =>
    rw [List.foldlM_cons] at hst
    obtain ⟨k₁, h₁, hst⟩ := Option.bind_eq_some_iff.1 hst
    obtain ⟨l₁, s₁⟩ := h.envCreate h₁
    rw [List.length_cons, Nat.add_comm progs.length, ← Nat.add_assoc]
    exact ih s₁ hst

theorem envCreates_some (h : Starting M b k n l) {progs : List (Image × EnvType)}
    (hn : n + progs.length ≤ nenv) (hl : 3 * progs.length ≤ l.length)
    (hp : ∀ prog ∈ progs, prog.1.entry ≠ 0 ∧ prog.1.segments = []) :
    ∃ k' l', progs.foldlM Kern.envCreate k = some k' ∧ Starting M b k' (n + progs.length) l' ∧
      l.length ≤ l'.length + 3 * progs.length := by
  induction progs generalizing k n l with
  | nil => exact ⟨k, l, rfl, h, Nat.le_add_right _ _⟩
  | cons prog progs ih =>
    rw [List.length_cons] at hn hl
    obtain ⟨he, hs⟩ := hp prog List.mem_cons_self
    obtain ⟨k₁, l₁, h₁, s₁, hlen⟩ := h.envCreate_some (by omega) (by omega) he hs
    obtain ⟨k₂, l₂, h₂, s₂, hlen₂⟩ := ih s₁ (by omega) (by omega)
      fun prog hm => hp prog (List.mem_cons_of_mem _ hm)
    rw [List.length_cons, Nat.add_comm progs.length, ← Nat.add_assoc]
    refine ⟨k₂, l₂, ?_, s₂, by omega⟩
    rw [List.foldlM_cons, h₁]
    exact h₂

end Starting

theorem Booted.starting {progs : List (Image × EnvType)} (h : Booted M progs k) :
    ∃ (s : Setup) (m : Phys) (l₀ : List Nat) (hm : Mapped M s m l₀) (l : List Nat),
      Starting M hm.base k progs.length l ∧
      ∃ m₁ d l₁, memInitPages M = some (m₁, d) ∧ Chain m₁.ppLink m₁.pageFreeList l₁ ∧
        s.pages.Perm l₁ := by
  obtain ⟨order, m₁, ⟨d, pages, envs⟩, hinit, ⟨l₁, hc, hperm⟩, hst⟩ := h
  rw [i386Init] at hst
  obtain ⟨k₀, h₀, hst⟩ := Option.bind_eq_some_iff.1 hst
  obtain ⟨s, m, l₀, hm, horder, hk₀⟩ := kernInit_mapped hinit hc hperm h₀
  have hs := hm.starting
  rw [← hk₀] at hs
  obtain ⟨l, hl⟩ := hs.envCreates hst
  rw [Nat.zero_add] at hl
  exact ⟨s, m, l₀, hm, l, hl, m₁, _, l₁, hinit, hc, by rw [horder]; exact hperm⟩

theorem exists_booted {m₁ : Phys} {d pages envs : Word} {l₁ : List Nat}
    (hinit : memInitPages M = some (m₁, d, pages, envs))
    (hc : Chain m₁.ppLink m₁.pageFreeList l₁) (hM : M.mmioPages < 1024)
    {progs : List (Image × EnvType)} (hn : progs.length ≤ nenv)
    (hl : 1024 + 3 * progs.length ≤ l₁.length)
    (hp : ∀ prog ∈ progs, prog.1.entry ≠ 0 ∧ prog.1.segments = []) :
    ∃ (k : Kernel) (s : Setup) (m : Phys) (l₀ : List Nat) (hm : Mapped M s m l₀) (l : List Nat),
      Booted M progs k ∧ Starting M hm.base k progs.length l ∧
      l₁.length ≤ l.length + 1024 + 3 * progs.length := by
  obtain ⟨k₀, h₀⟩ := kernInit_some hinit hc (List.Perm.refl l₁) (by omega) hM
  obtain ⟨s, m, l₀, hm, horder, hk₀⟩ := kernInit_mapped hinit hc (List.Perm.refl l₁) h₀
  have htaken := hm.taken_le
  rw [horder] at htaken
  have hs := hm.starting
  rw [← hk₀] at hs
  obtain ⟨k, l, hk, hs, hlen⟩ := hs.envCreates_some (by rwa [Nat.zero_add]) (by omega) hp
  rw [Nat.zero_add] at hs
  refine ⟨k, s, m, l₀, hm, l, ⟨l₁, m₁, _, hinit, ⟨l₁, hc, List.Perm.refl l₁⟩, ?_⟩, hs, by omega⟩
  rw [i386Init]
  exact Option.bind_eq_some_iff.2 ⟨_, h₀, hk⟩

end

end Jos.Kern
