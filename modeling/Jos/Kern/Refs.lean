import Jos.Kern.Share

/-! Reference counts and the free list along runs of the calls that move pages. -/

namespace Jos.Kern

open Lib Phys Kernel

def dirRefs (k : Kernel) (p : Nat) : Finset EnvIx :=
  Finset.univ.filter fun e => k.status e ≠ .free ∧ (k.envs e).envPgdir = some p

/-- The present directory entries below `UTOP` of live environments with page `p` as table. -/
def pdeRefs (k : Kernel) (p : Nat) : Finset (EnvIx × Pdx) :=
  Finset.univ.filter fun r => k.status r.1 ≠ .free ∧
    ((k.envs r.1).envPgdir.bind fun d => present (k.mem d r.2)) = some p

def pteRefs (k : Kernel) (p : Nat) : Finset (EnvIx × Pdx × Ptx) :=
  Finset.univ.filter fun r => k.status r.1 ≠ .free ∧
    ((k.envs r.1).envPgdir.bind fun d => (present (k.mem d r.2.1)).bind fun t =>
      present (k.mem t r.2.2)) = some p

def refs (k : Kernel) (p : Nat) : Nat :=
  (pteRefs k p).card + (pdeRefs k p).card + (dirRefs k p).card

def Ref.equiv : Ref ≃ EnvIx ⊕ (EnvIx × Pdx) ⊕ (EnvIx × Pdx × Ptx) where
  toFun
    | .dir e => .inl e
    | .pde e i => .inr (.inl (e, i))
    | .pte e i j => .inr (.inr (e, i, j))
  invFun
    | .inl e => .dir e
    | .inr (.inl r) => .pde r.1 r.2
    | .inr (.inr r) => .pte r.1 r.2.1 r.2.2
  left_inv := by
    intro r
    cases r <;> rfl
  right_inv := by
    rintro (e | r | r) <;> rfl

theorem refCount_split (f : Ref → Option Nat) (p : Nat) : refCount f p =
    (Finset.univ.filter fun r : EnvIx × Pdx × Ptx => f (.pte r.1 r.2.1 r.2.2) = some p).card +
    (Finset.univ.filter fun r : EnvIx × Pdx => f (.pde r.1 r.2) = some p).card +
    (Finset.univ.filter fun e => f (.dir e) = some p).card := by
  have hsum := Fintype.sum_equiv Ref.equiv (fun r => if f r = some p then 1 else 0)
    (fun r => if f (Ref.equiv.symm r) = some p then 1 else 0) fun r => by
      rw [Equiv.symm_apply_apply]
  rw [refCount, Finset.card_filter, Finset.card_filter, Finset.card_filter, Finset.card_filter,
    hsum, Fintype.sum_sum_type, Fintype.sum_sum_type, add_comm, add_comm (Finset.sum _ _)]
  rfl

theorem target_pte (m : Phys) (ds : Dirs) (e : EnvIx) (i : Pdx) (j : Ptx) :
    target m ds (.pte e i j) =
      (ds e).bind fun d => (present (m.mem d i)).bind fun t => present (m.mem t j) := by
  rw [target, entry, table]
  cases ds e with
  | none => exact present_zero
  | some d =>
    simp only [Option.bind_some]
    cases present (m.mem d i) with
    | none => exact present_zero
    | some t => rfl

theorem refCount_target {k : Kernel} (h : ∀ {e}, k.status e = .free → k.dirs e = none) (p : Nat) :
    refCount (target k.toPhys k.dirs) p = refs k p := by
  have hlive : ∀ {α : Type} {e : EnvIx} {g : Nat → Option α} {a : α},
      (k.dirs e).bind g = some a ↔ k.status e ≠ .free ∧ ((k.envs e).envPgdir.bind g) = some a := by
    intro α e g a
    refine ⟨fun hs => ⟨fun hf => ?_, hs⟩, fun hs => hs.2⟩
    rw [h hf] at hs
    cases hs
  have hpte : (Finset.univ.filter fun r : EnvIx × Pdx × Ptx =>
      target k.toPhys k.dirs (.pte r.1 r.2.1 r.2.2) = some p) = pteRefs k p :=
    Finset.filter_congr fun r _ => by rw [target_pte, hlive]
  have hpde : (Finset.univ.filter fun r : EnvIx × Pdx =>
      target k.toPhys k.dirs (.pde r.1 r.2) = some p) = pdeRefs k p :=
    Finset.filter_congr fun r _ => by rw [target, table, hlive]
  have hdir : (Finset.univ.filter fun e => target k.toPhys k.dirs (.dir e) = some p) = dirRefs k p := by
    refine Finset.filter_congr fun e _ => ?_
    have := hlive (e := e) (g := some) (a := p)
    rwa [Option.bind_fun_some, Option.bind_fun_some] at this
  rw [refCount_split, hpte, hpde, hdir, refs]

/-- The calls that move pages, and whatever else a run of them needs: scheduling, interrupts,
and calls that leave memory and messages alone. -/
def PageStep (k : Kernel) : Event → Prop
  | .trap c tf _ => ¬tf.MayFault ∧ tf.sysno ≠ some .ipcTrySend ∧ tf.sysno ≠ some .ipcRecv ∧
    (tf.sysno = some .envSetStatus →
      ∀ {e}, envid2env k c tf.tfRegs.regEdx true = some e → k.dirs e ≠ none)
  | .store _ _ _ => False
  | _ => True

theorem Sound.pageStep {b : Base} {k k' : Kernel} {ev : Event} (h : Sound b k) (hc : Counted k)
    (hg : PageStep k ev) (hst : Kern.step k ev = some k') : Sound b k' := by
  refine h.step_of hc ?_ ?_ hst
  · rintro c tf inp cur rfl hu hdy htrap
    obtain ⟨hf, hsend, -, -⟩ := hg
    have H := soundRules b (currentRules c cur tf) (fun _ hno => absurd hno hsend)
      (fun hno => absurd (.inr (.inr (.inr (.inr hno)))) hf) fun _ hmf => absurd hmf hf
    exact (H.trapUser (user_curenv hu) hdy
      ⟨user_curenv hu, h.frame tf, hc.congr rfl (dirs_setEnv rfl)⟩ htrap).2
  · rintro c va v cur m rfl
    exact absurd hg id

theorem Sound.pageRun {b : Base} {k₀ k : Kernel} {es : List Event} (h : Sound b k₀)
    (hr : Run Kern.step (fun k ev => Counted k ∧ PageStep k ev) k₀ es k) : Sound b k :=
  hr.invariant (Sound b) (fun h hg hst => h.pageStep hg.1 hg.2 hst) h

theorem pageStep_call {k : Kernel} {c : Cpu} {no a1 a2 a3 a4 a5 : Word}
    (h : ∀ s ∈ [Sysno.cputs, .envSetTrapframe, .txpacket, .rxpacket, .ipcTrySend, .ipcRecv,
      .envSetStatus], Sysno.ofWord no ≠ some s) : PageStep k (call c no a1 a2 a3 a4 a5) := by
  have hs : ∀ s ∈ [Sysno.cputs, .envSetTrapframe, .txpacket, .rxpacket, .ipcTrySend, .ipcRecv,
      .envSetStatus], (callFrame no a1 a2 a3 a4 a5).sysno ≠ some s := by
    intro s hs
    rw [sysno_callFrame]
    exact h s hs
  refine ⟨?_, hs _ (by simp), hs _ (by simp), fun hc => absurd hc (hs _ (by simp))⟩
  rintro (hc | hc | hc | hc | hc)
  · exact absurd hc (by decide : tSyscall ≠ tPgflt)
  · exact hs _ (by simp) hc
  · exact hs _ (by simp) hc
  · exact hs _ (by simp) hc
  · exact hs _ (by simp) hc

def KernTable (k : Kernel) (p : Nat) : Prop :=
  ∃ i, i < 1024 ∧ present (k.mem k.kernPgdir i) = some p

theorem Starting.mem_pool {M : Machine} {s : Setup} {m : Phys} {l₀ l : List Nat} {k : Kernel}
    {n p : Nat} {hm : Mapped M s m l₀} (h : Starting M hm.base k n l) (hp : p ∈ s.pages)
    (hk : ¬KernTable k p) : p ∈ hm.base.pool := by
  by_contra hn
  obtain ⟨-, i, hi, ht⟩ := hm.map.taken hp hn
  refine hk ⟨i, hi.lt, ?_⟩
  rw [h.kern_eq, h.spaces.shape.frame hm.base.kern_notMem]
  exact ht

/-- The counter of page `p` is exact, and the page is free when it has come down to zero. -/
structure Exact (k : Kernel) (l : List Nat) (p : Nat) : Prop where
  ref_eq : (k.ppRef p).toNat = refs k p
  free_iff : p ∈ l ↔ refs k p = 0

theorem Sound.exact {b : Base} {k : Kernel} (h : Sound b k) (hc : Counted k) :
    ∃ l, Chain k.ppLink k.pageFreeList l ∧ l.Nodup ∧ ∀ p ∈ b.pool, Exact k l p := by
  obtain ⟨l, hsp⟩ := h.spaces
  refine ⟨l, hsp.free.chain, hsp.free.chain.nodup, fun p hp => ⟨?_, ?_⟩⟩
  · rw [hsp.free.balanced.toNat_ref hp (Nat.lt_succ_of_le (hc p)), refCount_target h.free]
  · rw [hsp.free.balanced.mem_free, refCount_target h.free]
    exact ⟨fun hl => hl.2.1, fun hz => ⟨hp, hz, Set.notMem_empty p⟩⟩

/-- Along runs that never refer to a page more than 65535 times, counters and free list are
exact for every page `page_init` freed, but for the tables of `kern_pgdir`. -/
theorem exact_of_counted {M : Machine} {progs : List (Image × EnvType)} {k₀ k : Kernel}
    {es : List Event} {m₁ : Phys} {d : Word × Word × Word} {l₁ : List Nat}
    (hb : Booted M progs k₀) (hinit : memInitPages M = some (m₁, d))
    (hl₁ : Chain m₁.ppLink m₁.pageFreeList l₁)
    (hr : Run step (fun k ev => Counted k ∧ PageStep k ev) k₀ es k) (hc : Counted k) :
    ∃ l, Chain k.ppLink k.pageFreeList l ∧ l.Nodup ∧
      ∀ p ∈ l₁, ¬KernTable k₀ p → Exact k l p := by
  obtain ⟨s, m, l₀, hm, l, hs, m₁', d', l₁', hinit', hl₁', hperm⟩ := hb.starting
  rw [hinit] at hinit'
  cases hinit'
  cases hl₁.unique hl₁'
  obtain ⟨l', hl', hnd, hex⟩ := (hs.sound.pageRun hr).exact hc
  exact ⟨l', hl', hnd, fun p hp hk => hex p (hs.mem_pool (hperm.mem_iff.2 hp) hk)⟩

theorem Copies.counted {b : Base} {pp n : Nat} {k : Kernel} {l : List Nat}
    (h : Copies b pp n k.toPhys k.dirs l) (hn : n < 65535) : Counted k := by
  intro p
  by_cases hp : p = pp
  · rw [hp, h.count]
    exact hn
  · exact (h.few p hp).trans (by decide)

theorem demo_one_copy : ∃ k₀ k, Booted demo (List.replicate 1 idleProg) k₀ ∧
    Run step (fun k ev => Counted k ∧ PageStep k ev) k₀ [.start bootcpu, mapCopy 0] k ∧
    Counted k := by
  obtain ⟨k₀, s, m, l₀, hm, l, hb, hs, hl⟩ := demo_booted (n := 1) (by decide)
  obtain ⟨k₁, h₁, ha, hphys, hdirs⟩ := hs.alone (by decide)
  obtain ⟨pp, hc₀⟩ := Copies.start hs.spaces hs.unshared (hs.created (by decide)).2 (by omega)
  rw [← hphys, ← hdirs] at hc₀
  obtain ⟨k, l', h₂, -, hc⟩ := hc₀.step ha (by decide)
  refine ⟨k₀, k, hb, .snoc (.single ⟨hs.counted, trivial⟩ h₁) ?_ h₂, hc.counted (by decide)⟩
  exact ⟨hc₀.counted (by decide), pageStep_call (by decide)⟩

theorem exact_of_one_copy : ∃ k₀ k m₁ d l₁, Booted demo (List.replicate 1 idleProg) k₀ ∧
    memInitPages demo = some (m₁, d) ∧ Chain m₁.ppLink m₁.pageFreeList l₁ ∧
    Run step (fun k ev => Counted k ∧ PageStep k ev) k₀ [.start bootcpu, mapCopy 0] k ∧ Counted k ∧
    ∃ l, Chain k.ppLink k.pageFreeList l ∧ l.Nodup ∧ ∀ p ∈ l₁, ¬KernTable k₀ p → Exact k l p := by
  obtain ⟨k₀, k, hb, hr, hc⟩ := demo_one_copy
  obtain ⟨-, -, -, -, -, -, m₁, d, l₁, hinit, hl₁, -⟩ := hb.starting
  exact ⟨k₀, k, m₁, d, l₁, hb, hinit, hl₁, hr, hc, exact_of_counted hb hinit hl₁ hr hc⟩

/-- The table for devices is a page that `page_init` freed, and `pp_ref` counts it, though no
environment refers to it. -/
theorem exact_fails_for_kernel_table : ∃ k₀ m₁ d l₁ p, Booted demo [] k₀ ∧
    memInitPages demo = some (m₁, d) ∧ Chain m₁.ppLink m₁.pageFreeList l₁ ∧ Counted k₀ ∧
    p ∈ l₁ ∧ ∀ l, ¬Exact k₀ l p := by
  obtain ⟨k, -, -, -, -, -, hb, -⟩ := demo_booted (n := 0) (by decide)
  obtain ⟨order, m₁, ⟨d, pages, envs⟩, hinit, ⟨l₁, hl₁, hperm⟩, hst⟩ := id hb
  rw [i386Init] at hst
  obtain ⟨k₀, h₀, hst⟩ := Option.bind_eq_some_iff.1 hst
  cases hst
  obtain ⟨s, m, l₀, hm, horder, hk⟩ := kernInit_mapped hinit hl₁ hperm h₀
  have hs := hm.starting
  rw [← hk] at hs
  have hphys : k.toPhys = m := by
    rw [hk]
    exact (kernStart_spec demo m s.kern).1
  obtain ⟨t, ht⟩ : ∃ t, present (m.mem s.kern 958) = some t := by
    by_contra hn
    exact hm.devices (hm.map.pde_eq_zero ⟨by decide, by decide, by decide⟩
      (Option.eq_none_iff_forall_ne_some.2 fun t ht => hn ⟨t, ht⟩))
  obtain ⟨htp, htl, -⟩ := hm.map.table_mem ⟨by decide, by decide, by decide⟩ ht
  refine ⟨k, m₁, _, l₁, t, hb, hinit, hl₁, hs.counted, ?_, fun l hex => ?_⟩
  · rw [horder] at htp
    exact hperm.mem_iff.1 htp
  · have href := (hm.map.taken htp htl).1
    have hex := hex.ref_eq
    rw [← refCount_target hs.sound.free, hphys, href] at hex
    have hz : refCount (target m k.dirs) t = 0 := by
      refine refCount_eq_zero_iff.2 fun r hr => ?_
      rw [← hphys] at hr
      exact htl (hs.spaces.free.balanced.target_mem hr)
    rw [hz] at hex
    exact absurd hex (by decide)

/-- No live environment has page `p` as its directory, as one of its page tables below `UTOP`
or mapped by one of them. -/
structure Unreferenced (k : Kernel) (p : Nat) : Prop where
  dir : ∀ {e}, k.status e ≠ .free → (k.envs e).envPgdir ≠ some p
  pde : ∀ {e d} {i : Pdx}, k.status e ≠ .free → (k.envs e).envPgdir = some d →
    present (k.mem d i) ≠ some p
  pte : ∀ {e d t} {i : Pdx} {j : Ptx}, k.status e ≠ .free → (k.envs e).envPgdir = some d →
    present (k.mem d i) = some t → present (k.mem t j) ≠ some p

theorem refCount_eq_zero {k : Kernel} {p : Nat} (h : refCount (target k.toPhys k.dirs) p = 0) :
    Unreferenced k p := by
  have hz := refCount_eq_zero_iff.1 h
  refine ⟨fun _ => hz (.dir _), fun {e d i} _ hd => ?_, fun {e d t i j} _ hd ht => ?_⟩
  · have := hz (.pde e i)
    rwa [target, table, dirs, hd, Option.bind_some] at this
  · have := hz (.pte e i j)
    rwa [target_pte, dirs, hd, Option.bind_some, ht, Option.bind_some] at this

/-- As long as no page has more references than `pp_ref` can count, no free page is in use. -/
theorem free_unreferenced_of_counted {M : Machine} {progs : List (Image × EnvType)} {k₀ k : Kernel}
    {es : List Event} (hb : Booted M progs k₀)
    (hr : Run step (fun k ev => Counted k ∧ PageStep k ev) k₀ es k) :
    ∃ l, Chain k.ppLink k.pageFreeList l ∧ ∀ p ∈ l, Unreferenced k p := by
  obtain ⟨s, m, l₀, hm, l, hs, -⟩ := hb.starting
  have h := hs.sound.pageRun hr
  obtain ⟨l', hsp⟩ := h.spaces
  exact ⟨l', hsp.free.chain, fun p hp => refCount_eq_zero (hsp.free.balanced.mem_free.1 hp).2.1⟩

theorem free_unreferenced_of_one_copy : ∃ k₀ k, Booted demo (List.replicate 1 idleProg) k₀ ∧
    Run step (fun k ev => Counted k ∧ PageStep k ev) k₀ [.start bootcpu, mapCopy 0] k ∧
    ∃ l, Chain k.ppLink k.pageFreeList l ∧ ∀ p ∈ l, Unreferenced k p := by
  obtain ⟨k₀, k, hb, hr, -⟩ := demo_one_copy
  exact ⟨k₀, k, hb, hr, free_unreferenced_of_counted hb hr⟩

/-- A page mapped 65537 times is free as soon as one of the mappings goes. -/
theorem free_unreferenced_fails : ∃ k₀ k, Booted demo (List.replicate 1 idleProg) k₀ ∧
    Run step PageStep k₀ ([.start bootcpu] ++ (List.range 65536).map mapCopy ++
      [call bootcpu 6 0 (copyVa 0) 0 0 0]) k ∧
    ∃ l p, Chain k.ppLink k.pageFreeList l ∧ p ∈ l ∧ ¬Unreferenced k p := by
  obtain ⟨k₀, s, m, l₀, hm, l, hb, hs, hl⟩ := demo_booted (n := 1) (by decide)
  obtain ⟨k₁, h₁, ha, hphys, hdirs⟩ := hs.alone (by decide)
  obtain ⟨pp, hc₀⟩ := Copies.start hs.spaces hs.unshared (hs.created (by decide)).2 (by omega)
  rw [← hphys, ← hdirs] at hc₀
  obtain ⟨k₂, l', hr, ha₂, hc⟩ := hc₀.run ha (G := PageStep) (fun _ _ => pageStep_call (by decide))
    (Nat.le_refl 65536)
  obtain ⟨d, hd⟩ := ha₂.dir
  obtain ⟨m', hrem, hchain, hstack⟩ := hc.unmap hd
  obtain ⟨k, h₃, s₃⟩ := step_pageUnmap ha₂.user ha₂.running hd
    ⟨copyVa_lt (by decide), pgoff_copyVa (by decide)⟩ hrem
  refine ⟨k₀, k, hb, ?_, pp :: l', pp, ?_, List.mem_cons_self, fun hu => ?_⟩
  · exact .snoc (.append (.single trivial h₁) hr) (pageStep_call (by decide)) h₃
  · rw [s₃.toPhys_eq]
    exact hchain
  · have hlive : k.status env0 ≠ .free := by
      rw [s₃.status_eq]
      change k₂.status env0 ≠ .free
      rw [ha₂.running]
      decide
    have hphys₃ : k.toPhys = m' := s₃.toPhys_eq
    have hd₃ : k.dirs env0 = some d := (congrFun s₃.dirs_eq env0).trans hd
    rw [stackRef, target_pte, hd, Option.bind_some, ← hphys₃] at hstack
    obtain ⟨t, ht, hp⟩ := Option.bind_eq_some_iff.1 hstack
    exact hu.pte hlive hd₃ ht hp

end Jos.Kern
