import Jos.Kern.Demo

/-! The part of every address space that belongs to the kernel. -/

namespace Jos.Kern

open Lib Phys Kernel

/-- The entries that translate `va` in directory `d`: that of the directory, and that of the
table if there is one. -/
def entries (mem : Nat → Nat → Word) (d : Nat) (va : Word) : Word × Option Word :=
  (mem d (pdx va), (present (mem d (pdx va))).map fun t => mem t (ptx va))

/-- From `UTOP` on `k` has the entries that `k₀` has in `kern_pgdir`, in `kern_pgdir` itself
and, but for the one that makes up `UVPT`, in each live environment. -/
structure KernelMapped (k₀ k : Kernel) : Prop where
  kern : ∀ va, utop ≤ va → entries k.mem k.kernPgdir va = entries k₀.mem k₀.kernPgdir va
  env : ∀ {e d}, k.status e ≠ .free → k.dirs e = some d → ∀ va, utop ≤ va → pdx va ≠ pdx uvpt →
    entries k.mem d va = entries k₀.mem k₀.kernPgdir va

theorem le_pdx {va : Word} (h : utop ≤ va) : 955 ≤ pdx va := by
  have := BitVec.le_def.1 h
  rw [toNat_utop] at this
  rw [pdx_eq]
  omega

section

variable {b : Base} {k k₀ : Kernel} {va : Word}

theorem Sound.entries_eq (h : Sound b k) {d : Nat} (hva : utop ≤ va)
    (hd : k.mem d (pdx va) = b.mem b.kern (pdx va)) :
    entries k.mem d va = entries b.mem b.kern va := by
  obtain ⟨l, hsp⟩ := h.spaces
  rw [entries, entries, hd, Prod.mk.injEq]
  refine ⟨rfl, ?_⟩
  cases ht : present (b.mem b.kern (pdx va)) with
  | none => rfl
  | some t =>
    have htp : t ∉ b.pool := by
      by_cases hu : pdx va = 957
      · rw [hu, b.uvpt] at ht
        cases ht
        exact b.kern_notMem
      · rcases b.pde (le_pdx hva) (pdx_lt va) hu with h0 | ⟨t', hlt, htp, hw⟩
        · rw [h0, present_zero] at ht
          cases ht
        · rw [hw, present_pdeWord (by have := b.npages_le; omega)] at ht
          cases ht
          exact htp
    rw [Option.map_some, Option.map_some, hsp.shape.frame htp]

theorem Sound.entries_kern (h : Sound b k) (hva : utop ≤ va) :
    entries k.mem k.kernPgdir va = entries b.mem b.kern va := by
  obtain ⟨l, hsp⟩ := h.spaces
  rw [h.kern_eq]
  exact h.entries_eq hva (by rw [hsp.shape.frame b.kern_notMem])

theorem Sound.kernelMapped (h₀ : Sound b k₀) (h : Sound b k) : KernelMapped k₀ k := by
  refine ⟨fun va hva => ?_, fun _ hd va hva hu => ?_⟩
  · rw [h.entries_kern hva, h₀.entries_kern hva]
  · obtain ⟨l, hsp⟩ := h.spaces
    rw [pdx_uvpt] at hu
    rw [h₀.entries_kern hva]
    exact h.entries_eq hva (hsp.shape.kern hd (le_pdx hva) (pdx_lt va) hu)

end

theorem Contained.run {b : Base} {k₀ k : Kernel} {es : List Event} (hs : Sound b k₀)
    (hd : Dispatched k₀) (h : Run step Contained k₀ es k) : Sound b k ∧ Dispatched k :=
  h.invariant (fun k => Sound b k ∧ Dispatched k)
    (fun ⟨hs, hd⟩ hg hst => ⟨hs.step hd hg hst, (hd.step hg.disciplined hst).1⟩) ⟨hs, hd⟩

/-- Runs of contained steps leave the kernel's part of every address space as start-up made it. -/
theorem kernel_mapped_of_contained {M : Machine} {progs : List (Image × EnvType)} {k₀ k : Kernel}
    {es : List Event} (hb : Booted M progs k₀) (hr : Run step Contained k₀ es k) :
    KernelMapped k₀ k := by
  obtain ⟨s, m, l₀, hm, l, hs, -⟩ := hb.starting
  exact hs.sound.kernelMapped (Contained.run hs.sound hs.dispatched hr).1

theorem kernel_mapped_of_transfer : ∃ k₀ k, Booted demo (List.replicate 2 idleProg) k₀ ∧
    Run step Contained k₀ [.start bootcpu, call bootcpu 13 0x400000 0 0 0 0,
      call bootcpu 12 envid0 0 stackVa (pteU ||| pteP) 0] k ∧ KernelMapped k₀ k := by
  obtain ⟨k₀, s, m, l₀, hm, l, hb, hs, hl⟩ := demo_booted (n := 2) (by decide)
  obtain ⟨k₁, k₂, h₁, hc₁, h₂, w⟩ := hs.waiting 0x400000 (by decide)
  obtain ⟨pp, -, -, -, htgt, hpage⟩ := w.page
  obtain ⟨d, hd⟩ := w.dir0
  obtain ⟨m', hins⟩ : ∃ m', pageInsert k₂.toPhys (k₂.dirs env0) pp 0x400000 (pteU ||| pteP) =
      some (m', 0) := by
    have hva : (0x400000 : Word) < utop := by decide
    have hperm : permOk (pteU ||| pteP) := ⟨by decide, by decide, by decide⟩
    rw [hd]
    rcases w.spaces.share hd hva htgt hperm w.counted with ⟨rfl, -⟩ | ⟨m', l', heq, -⟩
    · simp at hl
    · exact ⟨m', heq⟩
  obtain ⟨k₃, h₃, -⟩ := w.send 0 hpage (.inl ⟨by decide, hins⟩)
  have hr : Run step Contained k₀ [.start bootcpu, call bootcpu 13 0x400000 0 0 0 0,
      call bootcpu 12 envid0 0 stackVa (pteU ||| pteP) 0] k₃ :=
    .snoc (.snoc (.single (.start hs.counted) h₁) (.call hc₁ (by decide)) h₂)
      (w.contained (by decide)) h₃
  exact ⟨k₀, k₃, hb, hr, kernel_mapped_of_contained hb hr⟩

theorem Shape.pageInsert_kernel {b : Base} {m : Phys} {ds : Dirs} {e : EnvIx} {d t : Nat}
    {va : Word} (h : Shape b m ds) (pp : Nat) (perm : Word) (hd : ds e = some d) (hva : 955 ≤ pdx va)
    (hu : pdx va ≠ 957) (ht : t < b.npages) (htp : t ∉ b.pool)
    (hpde : b.mem b.kern (pdx va) = pdeWord t) (hpte : b.mem t (ptx va) = 0) :
    pageInsert m (some d) pp va perm = some
      ((m.setRef pp (m.ppRef pp + 1)).store t (ptx va) (page2pa pp ||| perm ||| pteP), 0) := by
  have hlt : t < 2 ^ 20 := by
    have := b.npages_le
    omega
  have hw : m.mem d (pdx va) = pdeWord t := by rw [h.kern hd hva (pdx_lt va) hu, hpde]
  have hp : m.mem d (pdx va) &&& pteP ≠ 0 := by
    rw [hw]
    exact (present_eq_some_iff.1 (present_pdeWord hlt)).1
  have hk : m.kaddr (pteAddr (m.mem d (pdx va))) = some t := by
    rw [hw, kaddr, pgnum_pteAddr, pgnum_pdeWord hlt, if_neg (by rw [h.npages_eq]; omega)]
  have hz : m.mem t (ptx va) &&& pteP = 0 := by
    rw [h.frame htp, hpte]
    decide
  have hz' : ¬((m.setRef pp (m.ppRef pp + 1)).mem t (ptx va) &&& pteP ≠ 0) := fun hn => hn hz
  have hwalk : pgdirWalk m (some d) va true = some (m, some (t, ptx va)) := by
    rw [pgdirWalk]
    simp only [Option.bind_eq_bind, Option.bind_some]
    rw [if_neg hp, hk]
    rfl
  rw [Kern.pageInsert, hwalk]
  simp only [Option.bind_eq_bind, Option.bind_some]
  rw [if_neg hz']
  rfl

/-- An address in the window for devices that start-up leaves empty on the demo machine. -/
def spareVa : Word := 0xEF840000

theorem Mapped.spare {s : Setup} {m : Phys} {l : List Nat} (h : Mapped demo s m l) :
    ∃ t, t < h.base.npages ∧ t ∉ h.base.pool ∧ t ≠ h.base.kern ∧
      h.base.mem h.base.kern (pdx spareVa) = pdeWord t ∧ h.base.mem t (ptx spareVa) = 0 := by
  have hi : KernSlot 958 := ⟨by decide, by decide, by decide⟩
  have hd : pdx spareVa = 958 := by decide
  have hj : ptx spareVa = 64 := by decide
  rcases h.map.pde hi with h0 | ⟨t, hts, htl, hw⟩
  · exact absurd h0 h.devices
  · have hp : present (m.mem s.kern 958) = some t := by rw [hw, present_pdeWord (s.lt_twoPow hts)]
    refine ⟨t, s.lt hts, htl, ?_, ?_, ?_⟩
    · rintro rfl
      exact s.kern_notMem hts
    · rw [hd]
      exact hw
    · rw [hj]
      refine (h.map.pte hi hp (by decide)).window rfl ?_
      rw [h.mmio_eq, demo_mmioPages]
      decide

/-- An environment asks for its page at an address of the kernel, another one sends it one, and
every address space has it there. -/
theorem kernel_mapped_fails : ∃ k₀ k, Booted demo (List.replicate 2 idleProg) k₀ ∧
    Run step (fun _ _ => True) k₀ [.start bootcpu, call bootcpu 13 spareVa 0 0 0 0,
      call bootcpu 12 envid0 0 stackVa (pteU ||| pteP) 0] k ∧ ¬ KernelMapped k₀ k := by
  obtain ⟨k₀, s, m, l₀, hm, l, hb, hs, -⟩ := demo_booted (n := 2) (by decide)
  obtain ⟨k₁, k₂, h₁, -, h₂, w⟩ := hs.waiting spareVa (by decide)
  obtain ⟨pp, -, -, -, -, hpage⟩ := w.page
  obtain ⟨t, hlt, htp, hne, hpde, hpte⟩ := hm.spare
  obtain ⟨d, hd⟩ := w.dir0
  have hins := w.spaces.shape.pageInsert_kernel pp (pteU ||| pteP) hd (by decide) (by decide) hlt htp
    hpde hpte
  rw [← hd] at hins
  obtain ⟨k₃, h₃, hphys, -, hkern, -⟩ := w.send 0 hpage (.inl ⟨by decide, hins⟩)
  refine ⟨k₀, k₃, hb, .snoc (.snoc (.single trivial h₁) trivial h₂) trivial h₃, fun hk => ?_⟩
  have hpde₃ : k₃.mem hm.base.kern (pdx spareVa) = pdeWord t := by
    rw [hphys, mem_store_of_ne _ _ _ hne.symm]
    change k₂.mem hm.base.kern (pdx spareVa) = _
    rw [w.spaces.shape.frame hm.base.kern_notMem, hpde]
  have hpte₃ : k₃.mem t (ptx spareVa) = page2pa pp ||| (pteU ||| pteP) ||| pteP := by
    rw [hphys, mem_store_self, if_pos rfl]
  have hnp : t < 2 ^ 20 := by
    have := hm.base.npages_le
    omega
  have heq := congrArg Prod.snd (hk.kern spareVa (by decide))
  rw [hs.sound.entries_kern (by decide), hkern, w.kern_eq] at heq
  simp only [entries, hpde₃, hpde, present_pdeWord hnp, Option.map_some, hpte₃, hpte,
    Option.some.injEq] at heq
  have hbits : (page2pa pp ||| (pteU ||| pteP) ||| pteP) &&& pteP = (pteU ||| pteP ||| pteP) &&& pteP :=
    entry_and (by decide)
  rw [heq] at hbits
  exact absurd hbits (by decide)

end Jos.Kern
