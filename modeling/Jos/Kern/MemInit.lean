import Jos.Kern.BootPages

/-! `mem_init`: the regions it maps above `UTOP`. -/

namespace Jos.Kern

open Lib Phys

theorem bootWord_and {pa : Word} (hpa : pgoff pa = 0) (i : Nat) (perm : Word) {f : Word}
    (hf : f.toNat < 4096) :
    ((pa + BitVec.ofNat 32 i * pgsize) ||| perm ||| pteP) &&& f = (perm ||| pteP) &&& f := by
  rw [eq_page2pa ((pgoff_add_page pa i).trans hpa), BitVec.or_assoc, page2pa_or_and hf]

theorem toNat_kstack {i : Nat} (hi : i < ncpu) : (kstack i).toNat = 0xF0000000 - i * 65536 - 32768 := by
  have h8 : i < 8 := hi
  rw [kstack, BitVec.toNat_sub, BitVec.toNat_sub, BitVec.toNat_mul, BitVec.toNat_ofNat,
    show kstacktop.toNat = 0xF0000000 from rfl, show kstksize.toNat = 32768 from rfl,
    show (kstkgap + kstksize).toNat = 65536 from rfl]
  omega

namespace BootMap

variable {s : Setup} {m : Phys} {l : List Nat} {va size pa perm : Word}

theorem Maps.user (hpa : pgoff pa = 0) (hge : 955 * 4194304 ≤ va.toNat)
    (hle : va.toNat + size.toNat ≤ 957 * 4194304) (hW : (perm ||| pteP) &&& pteW = 0)
    (hP : (perm ||| pteP) &&& pteP ≠ 0) : Maps s va size pa perm := by
  intro i hi
  rw [BitVec.toNat_udiv, toNat_pgsize] at hi
  have hn : (va + BitVec.ofNat 32 i * pgsize).toNat = va.toNat + i * 4096 :=
    toNat_add_page (by omega)
  have hd : 955 ≤ pdx (va + BitVec.ofNat 32 i * pgsize) ∧
      pdx (va + BitVec.ofNat 32 i * pgsize) < 957 := by
    rw [pdx_eq, hn]
    omega
  refine ⟨⟨hd.1, by omega, by omega⟩, fun _ => ⟨?_, .inr ?_⟩, fun h => by omega, fun h => by omega⟩
  · rw [bootWord_and hpa i perm (by decide), hW]
  · rw [bootWord_and hpa i perm (by decide)]
    exact hP

theorem Maps.kernel (hpa : pgoff pa = 0) (hge : 958 * 4194304 ≤ va.toNat)
    (hle : va.toNat + size.toNat ≤ 2 ^ 32)
    (hmmio : 959 * 4194304 ≤ va.toNat ∨
      va.toNat + size.toNat ≤ 958 * 4194304 + min s.mmio 1024 * 4096)
    (hU : (perm ||| pteP) &&& pteU = 0) : Maps s va size pa perm := by
  intro i hi
  rw [BitVec.toNat_udiv, toNat_pgsize] at hi
  have hn : (va + BitVec.ofNat 32 i * pgsize).toNat = va.toNat + i * 4096 :=
    toNat_add_page (by omega)
  have hd : 958 ≤ pdx (va + BitVec.ofNat 32 i * pgsize) := by
    rw [pdx_eq, hn]
    omega
  refine ⟨⟨by omega, pdx_lt _, by omega⟩, fun h => by omega, fun _ => ?_, fun h hj => ?_⟩
  · rw [bootWord_and hpa i perm (by decide), hU]
  · rw [pdx_eq, hn] at h
    rw [ptx_eq, hn] at hj
    omega

structure Window (s : Setup) (base : Word) (n : Nat) : Prop where
  ge : 958 * 4194304 ≤ base.toNat
  le : base.toNat ≤ 959 * 4194304
  room : base.toNat + n * 4096 ≤ 958 * 4194304 + s.mmio * 4096
  aligned : base.toNat % 4096 = 0

theorem pages_roundUp (a : Word) :
    (roundUp a pgsize).toNat / 4096 * 4096 = (roundUp a pgsize).toNat := by
  rw [toNat_roundUp]
  omega

theorem Window.next {base : Word} {r : Word × Word} {n : Nat}
    (hw : Window s base ((roundUp r.2 pgsize).toNat / 4096 + n)) (hr : r.2.toNat ≤ 0x400000)
    (hlim : roundUp r.2 pgsize + base < mmiolim) :
    Window s (base + roundUp r.2 pgsize) n ∧
      Maps s base (roundUp r.2 pgsize) (roundDown r.1 pgsize) (ptePCD ||| ptePWT ||| pteW) := by
  have hlim' := BitVec.lt_def.1 hlim
  rw [BitVec.toNat_add, show mmiolim.toNat = 959 * 4194304 from rfl] at hlim'
  have hsz : (roundUp r.2 pgsize).toNat ≤ 0x400000 := by
    rw [toNat_roundUp]
    omega
  have hp := pages_roundUp r.2
  obtain ⟨hge, hle, hroom, hal⟩ := hw
  have hadd : (base + roundUp r.2 pgsize).toNat = base.toNat + (roundUp r.2 pgsize).toNat := by
    rw [BitVec.toNat_add]
    omega
  refine ⟨⟨?_, ?_, ?_, ?_⟩, Maps.kernel ?_ hge ?_ (.inr ?_) (by decide)⟩
  · omega
  · omega
  · omega
  · omega
  · rw [pgoff_eq, toNat_roundDown]
    omega
  · omega
  · omega

theorem mmioMapRegion (h : BootMap s m l) {base base' : Word} {r : Word × Word} {n : Nat}
    {m' : Phys} (hw : Window s base ((roundUp r.2 pgsize).toNat / 4096 + n))
    (hr : r.2.toNat ≤ 0x400000) (hst : Kern.mmioMapRegion s.kern (m, base) r = some (m', base')) :
    Window s base' n ∧ ∃ l', Fill s m l m' l' := by
  rw [Kern.mmioMapRegion] at hst
  split at hst
  · cases hst
  · next hlim =>
    obtain ⟨m₁, hm₁, hst⟩ := Option.bind_eq_some_iff.1 hst
    obtain ⟨rfl, rfl⟩ := Prod.mk.inj (Option.some.inj hst)
    obtain ⟨hw', hmaps⟩ := hw.next hr (BitVec.not_le.1 hlim)
    exact ⟨hw', h.bootMapRegion hmaps hm₁⟩

theorem mmioMapRegion_some (h : BootMap s m l) (hl : slots m s.kern ≤ l.length) {base : Word}
    {r : Word × Word} {n : Nat} (hw : Window s base ((roundUp r.2 pgsize).toNat / 4096 + n))
    (hr : r.2.toNat ≤ 0x400000) (hs : s.mmio < 1024) :
    ∃ m' base', Kern.mmioMapRegion s.kern (m, base) r = some (m', base') ∧
      (0 < r.2.toNat → m'.mem s.kern (pdx base) ≠ 0) := by
  have hp := pages_roundUp r.2
  have hlim : roundUp r.2 pgsize + base < mmiolim := by
    have := hw.room
    rw [BitVec.lt_def, BitVec.toNat_add, show mmiolim.toNat = 959 * 4194304 from rfl]
    omega
  obtain ⟨m', l', hm', -, hne⟩ := h.bootMapRegion_some hl (hw.next hr hlim).2
  refine ⟨m', base + roundUp r.2 pgsize, ?_, fun hpos => hne ?_⟩
  · rw [Kern.mmioMapRegion, if_neg (BitVec.not_le.2 hlim)]
    simp only [Option.bind_eq_bind, hm', Option.bind_some]
    rfl
  · rw [BitVec.toNat_udiv, toNat_pgsize, toNat_roundUp]
    omega

theorem clearPte (h : BootMap s m l) (hi : KernSlot (pdx va)) :
    (m.mem s.kern (pdx va) = 0 ∧ clearPte s.kern m va = none) ∨
    (m.mem s.kern (pdx va) ≠ 0 ∧ ∃ m', clearPte s.kern m va = some m' ∧ Fill s m l m' l) := by
  cases ht : present (m.mem s.kern (pdx va)) with
  | none =>
    have h0 := h.pde_eq_zero hi ht
    have hwalk : pgdirWalk m (some s.kern) va false = some (m, none) := by
      rw [pgdirWalk, Option.bind_eq_bind, Option.bind_some, h0, if_pos (by decide)]
      rfl
    refine .inl ⟨h0, ?_⟩
    rw [Kern.clearPte, hwalk]
    rfl
  | some t =>
    refine .inr ⟨?_, _, ?_, h.store hi ht (.zero s.mmio _ (ptx va))⟩
    · intro h0
      rw [h0, present_zero] at ht
      cases ht
    · rw [Kern.clearPte, h.pgdirWalk_some hi ht false]
      rfl

theorem clearPte_keeps (h : BootMap s m l) {vas : List Word} (hvas : ∀ va ∈ vas, KernSlot (pdx va))
    {m' : Phys} (hm : vas.foldlM (Kern.clearPte s.kern) m = some m') : Fill s m l m' l := by
  refine foldlM_keeps (P := fun m' => Fill s m l m' l) ?_ hm h.fill
  intro va m₁ m₂ hva hf hst
  rcases hf.map.clearPte (hvas va hva) with ⟨-, hn⟩ | ⟨-, m₃, hst', hf'⟩
  · rw [hn] at hst
    cases hst
  · rw [hst'] at hst
    cases hst
    exact hf.trans hf'

theorem clearPte_some (h : BootMap s m l) {vas : List Word} {i : Nat} (hi : KernSlot i)
    (hvas : ∀ va ∈ vas, pdx va = i) (hne : m.mem s.kern i ≠ 0) :
    ∃ m', vas.foldlM (Kern.clearPte s.kern) m = some m' := by
  induction vas generalizing m with
  | nil => exact ⟨m, rfl⟩
  | cons va vas ih =>
    have hva : pdx va = i := hvas va List.mem_cons_self
    have hi' : KernSlot (pdx va) := by rwa [hva]
    rcases h.clearPte hi' with ⟨h0, -⟩ | ⟨-, m₁, hm₁, hf⟩
    · rw [hva] at h0
      exact absurd h0 hne
    · rw [List.foldlM_cons, hm₁]
      refine ih hf.map (fun va h => hvas va (List.mem_cons_of_mem _ h)) ?_
      rw [hf.kept hne]
      exact hne

theorem pdx_checkPage (va : Word) (h : va ∈ [mmiobase, mmiobase + pgsize, mmiobase + 2 * pgsize]) :
    pdx va = 958 := by
  simp only [List.mem_cons, List.not_mem_nil, or_false] at h
  rcases h with rfl | rfl | rfl <;> decide

theorem checkPage (h : BootMap s m l) {n : Nat} (hw : Window s mmiobase (3 + n)) {m' : Phys}
    {base : Word} (hst : checkPage s.kern m = some (m', base)) :
    Window s base n ∧ m'.mem s.kern 958 ≠ 0 ∧ ∃ l', Fill s m l m' l' := by
  simp only [Kern.checkPage, Option.bind_eq_bind, Option.bind_eq_some_iff, Prod.exists] at hst
  obtain ⟨m₁, b₁, h₁, m₂, b₂, h₂, m₃, h₃, hst⟩ := hst
  obtain ⟨rfl, rfl⟩ := Prod.mk.inj (Option.some.inj hst)
  have e₁ : (roundUp (4097 : Word) pgsize).toNat / 4096 = 2 := by decide
  have e₂ : (roundUp (4096 : Word) pgsize).toNat / 4096 = 1 := by decide
  obtain ⟨w₁, l₁, f₁⟩ := h.mmioMapRegion (r := (0, 4097)) (n := 1 + n)
    (by rw [e₁, ← Nat.add_assoc]; exact hw) (by decide) h₁
  obtain ⟨w₂, l₂, f₂⟩ := f₁.map.mmioMapRegion (r := (0, 4096)) (n := n)
    (by rw [e₂]; exact w₁) (by decide) h₂
  have hslot : KernSlot 958 := ⟨by decide, by decide, by decide⟩
  have f₃ := f₂.map.clearPte_keeps (fun va hva => by rwa [pdx_checkPage va hva]) h₃
  rw [List.foldlM_cons] at h₃
  obtain ⟨_, h₄, -⟩ := Option.bind_eq_some_iff.1 h₃
  have hne : m₂.mem s.kern 958 ≠ 0 := by
    have hd := pdx_checkPage mmiobase List.mem_cons_self
    rw [← hd] at hslot ⊢
    rcases f₂.map.clearPte hslot with ⟨-, hn⟩ | ⟨hne, -⟩
    · rw [hn] at h₄
      cases h₄
    · exact hne
  refine ⟨w₂, ?_, l₂, f₁.trans (f₂.trans f₃)⟩
  rw [f₃.kept hne]
  exact hne

theorem maps_kstack (M : Machine) {i : Nat} (hi : i < ncpu) :
    Maps s (kstack i) kstksize (M.percpuKstacks + BitVec.ofNat 32 i * kstksize) pteW := by
  have hva := toNat_kstack hi
  have h8 : i < 8 := hi
  have hsz : kstksize.toNat = 32768 := rfl
  refine Maps.kernel ?_ (by omega) (by omega) (.inl (by omega)) (by decide)
  have h := M.percpuKstacks_aligned
  rw [pgoff_eq] at h ⊢
  rw [BitVec.toNat_add, BitVec.toNat_mul, hsz]
  omega

theorem memInitMp (h : BootMap s m l) {M : Machine} {m' : Phys}
    (hst : memInitMp M s.kern m = some m') : ∃ l', Fill s m l m' l' := by
  refine foldlM_keeps (P := fun m' => ∃ l', Fill s m l m' l') ?_ hst ⟨l, h.fill⟩
  rintro i m₁ m₂ hi ⟨l₁, f₁⟩ hst
  obtain ⟨l₂, f₂⟩ := f₁.map.bootMapRegion (maps_kstack M (List.mem_range.1 hi)) hst
  exact ⟨l₂, f₁.trans f₂⟩

theorem memInitMp_some (h : BootMap s m l) (hl : slots m s.kern ≤ l.length) (M : Machine) :
    ∃ m' l', Kern.memInitMp M s.kern m = some m' ∧ Fill s m l m' l' := by
  obtain ⟨m', hm', l', hf⟩ := foldlM_range (fun m i =>
      Kern.bootMapRegion m s.kern (kstack i) kstksize
        (M.percpuKstacks + BitVec.ofNat 32 i * kstksize) pteW)
    (fun _ m' => ∃ l', Fill s m l m' l') (n := ncpu) ⟨l, h.fill⟩ (by
    rintro i m₁ hi ⟨l₁, f₁⟩
    obtain ⟨m₂, l₂, h₂, f₂, -⟩ := f₁.map.bootMapRegion_some (f₁.enough hl)
      (maps_kstack M hi)
    exact ⟨m₂, h₂, l₂, f₁.trans f₂⟩)
  exact ⟨m', l', hm', hf⟩

section

variable {M : Machine} {pages envs : Word} (hp : pgoff pages = 0) (he : pgoff envs = 0)

include hp in
theorem maps_pages : Maps s upages ptsize pages pteU :=
  .user hp (by decide) (by decide) (by decide) (by decide)

include he in
theorem maps_envs : Maps s uenvs ptsize envs pteU :=
  .user he (by decide) (by decide) (by decide) (by decide)

theorem maps_bootstack : Maps s (kstacktop - kstksize) kstksize M.bootstack pteW :=
  .kernel M.bootstack_aligned (by decide) (by decide) (.inl (by decide)) (by decide)

theorem maps_kernbase : Maps s kernbase (0xFFFFFFFF - kernbase) 0 pteW :=
  .kernel (by decide) (by decide) (by decide) (.inl (by decide)) (by decide)

include hp he

theorem mapRegions (h : BootMap s m l) {m' : Phys}
    (hst : mapRegions M s.kern pages envs m = some m') : ∃ l', Fill s m l m' l' := by
  simp only [Kern.mapRegions, Option.bind_eq_bind, Option.bind_eq_some_iff] at hst
  obtain ⟨m₁, h₁, m₂, h₂, m₃, h₃, m₄, h₄, h₅⟩ := hst
  obtain ⟨l₁, f₁⟩ := h.bootMapRegion (maps_pages hp) h₁
  obtain ⟨l₂, f₂⟩ := f₁.map.bootMapRegion (maps_envs he) h₂
  obtain ⟨l₃, f₃⟩ := f₂.map.bootMapRegion maps_bootstack h₃
  obtain ⟨l₄, f₄⟩ := f₃.map.bootMapRegion maps_kernbase h₄
  obtain ⟨l₅, f₅⟩ := f₄.map.memInitMp h₅
  exact ⟨l₅, f₁.trans (f₂.trans (f₃.trans (f₄.trans f₅)))⟩

theorem mapRegions_some (h : BootMap s m l) (hl : slots m s.kern ≤ l.length) :
    ∃ m', Kern.mapRegions M s.kern pages envs m = some m' := by
  obtain ⟨m₁, l₁, h₁, f₁, -⟩ := h.bootMapRegion_some hl (maps_pages hp)
  obtain ⟨m₂, l₂, h₂, f₂, -⟩ := f₁.map.bootMapRegion_some (f₁.enough hl) (maps_envs he)
  obtain ⟨m₃, l₃, h₃, f₃, -⟩ :=
    f₂.map.bootMapRegion_some (f₂.enough (f₁.enough hl)) (maps_bootstack (M := M))
  obtain ⟨m₄, l₄, h₄, f₄, -⟩ :=
    f₃.map.bootMapRegion_some (f₃.enough (f₂.enough (f₁.enough hl))) maps_kernbase
  obtain ⟨m₅, l₅, h₅, -⟩ :=
    f₄.map.memInitMp_some (f₄.enough (f₃.enough (f₂.enough (f₁.enough hl)))) M
  refine ⟨m₅, ?_⟩
  simp only [Kern.mapRegions, Option.bind_eq_bind, Option.bind_eq_some_iff]
  exact ⟨m₁, h₁, m₂, h₂, m₃, h₃, m₄, h₄, h₅⟩

end

theorem checkPage_some (h : BootMap s m l) (hl : slots m s.kern ≤ l.length) {n : Nat}
    (hw : Window s mmiobase (3 + n)) (hs : s.mmio < 1024) :
    ∃ m' base, Kern.checkPage s.kern m = some (m', base) := by
  have e₁ : (roundUp (4097 : Word) pgsize).toNat / 4096 = 2 := by decide
  have e₂ : (roundUp (4096 : Word) pgsize).toNat / 4096 = 1 := by decide
  have w₀ : Window s mmiobase ((roundUp (0, (4097 : Word)).2 pgsize).toNat / 4096 + (1 + n)) := by
    rw [e₁, ← Nat.add_assoc]
    exact hw
  obtain ⟨m₁, b₁, h₁, hne⟩ := h.mmioMapRegion_some (r := (0, 4097)) hl w₀ (by decide) hs
  obtain ⟨w₁, l₁, f₁⟩ := h.mmioMapRegion (r := (0, 4097)) w₀ (by decide) h₁
  rw [← e₂] at w₁
  obtain ⟨m₂, b₂, h₂, -⟩ := f₁.map.mmioMapRegion_some (r := (0, 4096)) (f₁.enough hl) w₁ (by decide) hs
  obtain ⟨-, l₂, f₂⟩ := f₁.map.mmioMapRegion (r := (0, 4096)) w₁ (by decide) h₂
  have hslot : KernSlot 958 := ⟨by decide, by decide, by decide⟩
  have hne' : m₁.mem s.kern 958 ≠ 0 := by
    rw [← pdx_checkPage mmiobase List.mem_cons_self]
    exact hne (by decide)
  obtain ⟨m₃, h₃⟩ := f₂.map.clearPte_some hslot pdx_checkPage (by rw [f₂.kept hne']; exact hne')
  refine ⟨m₃, b₂, ?_⟩
  simp only [Kern.checkPage, Option.bind_eq_bind, h₁, h₂, h₃, Option.bind_some]
  rfl

theorem mmioMapRegions (h : BootMap s m l) {rs : List (Word × Word)} {base base' : Word}
    (hw : Window s base (rs.map fun r => (roundUp r.2 pgsize).toNat / 4096).sum)
    (hr : ∀ r ∈ rs, r.2.toNat ≤ 0x400000) {m' : Phys}
    (hst : rs.foldlM (Kern.mmioMapRegion s.kern) (m, base) = some (m', base')) :
    ∃ l', Fill s m l m' l' := by
  induction rs generalizing m l base with
  | nil =>
    obtain ⟨rfl, rfl⟩ := Prod.mk.inj (Option.some.inj hst)
    exact ⟨l, h.fill⟩
  | cons r rs ih =>
    rw [List.foldlM_cons] at hst
    obtain ⟨⟨m₁, b₁⟩, h₁, hst⟩ := Option.bind_eq_some_iff.1 hst
    rw [List.map_cons, List.sum_cons] at hw
    obtain ⟨w₁, l₁, f₁⟩ := h.mmioMapRegion hw (hr r List.mem_cons_self) h₁
    obtain ⟨l₂, f₂⟩ := ih f₁.map w₁ (fun r hm => hr r (List.mem_cons_of_mem _ hm)) hst
    exact ⟨l₂, f₁.trans f₂⟩

theorem mmioMapRegions_some (h : BootMap s m l) (hl : slots m s.kern ≤ l.length)
    {rs : List (Word × Word)} {base : Word}
    (hw : Window s base (rs.map fun r => (roundUp r.2 pgsize).toNat / 4096).sum)
    (hr : ∀ r ∈ rs, r.2.toNat ≤ 0x400000) (hs : s.mmio < 1024) :
    ∃ m' base', rs.foldlM (Kern.mmioMapRegion s.kern) (m, base) = some (m', base') := by
  induction rs generalizing m l base with
  | nil => exact ⟨m, base, rfl⟩
  | cons r rs ih =>
    rw [List.map_cons, List.sum_cons] at hw
    obtain ⟨m₁, b₁, h₁, -⟩ := h.mmioMapRegion_some hl hw (hr r List.mem_cons_self) hs
    obtain ⟨w₁, l₁, f₁⟩ := h.mmioMapRegion hw (hr r List.mem_cons_self) h₁
    rw [List.foldlM_cons, h₁]
    exact ih f₁.map (f₁.enough hl) w₁ fun r hm => hr r (List.mem_cons_of_mem _ hm)

end BootMap

/-- Start-up has mapped everything above `UTOP` and left the pages `l`. -/
structure Mapped (M : Machine) (s : Setup) (m : Phys) (l : List Nat) : Prop where
  npages_eq : s.npages = M.npages
  mmio_eq : s.mmio = M.mmioPages
  map : BootMap s m l
  devices : m.mem s.kern 958 ≠ 0
  taken_le : s.pages.length ≤ l.length + 1024

theorem Window.start {M : Machine} {s : Setup} (h : s.mmio = M.mmioPages) :
    BootMap.Window s mmiobase
      (3 + (M.mmio.map fun r => (roundUp r.2 pgsize).toNat / 4096).sum) := by
  have hb : mmiobase.toNat = 958 * 4194304 := by decide
  refine ⟨hb.ge, ?_, ?_, ?_⟩ <;> rw [hb]
  · decide
  · rw [h, Machine.mmioPages]

theorem slots_le (m : Phys) (kern : Nat) : slots m kern ≤ 1024 := by
  have h := Finset.card_filter_le (Finset.range 1024) fun i => m.mem kern i = 0
  rwa [Finset.card_range] at h

section

variable {M : Machine} {m₀ : Phys} {d pages envs : Word} {l order : List Nat}
  (hpages : memInitPages M = some (m₀, d, pages, envs))
  (hc : Chain m₀.ppLink m₀.pageFreeList l) (hperm : order.Perm l)

include hpages hc hperm

theorem kernInit_mapped {k : Kernel} (h : kernInit M order = some k) :
    ∃ s m l', Mapped M s m l' ∧ s.pages = order ∧ k = kernStart M m s.kern := by
  obtain ⟨next, hinit⟩ := memInitPages_eq_some hpages
  rw [hc.unique hinit.chain] at hperm
  have hmap := hinit.bootMap hperm
  have hslots := slots_le (relink m₀ order) (hinit.setup hperm).kern
  simp only [kernInit, memInit, hpages, Option.bind_eq_bind, Option.bind_some,
    Option.bind_eq_some_iff, Prod.exists] at h
  obtain ⟨m₃, d₃, b₃, ⟨m₁, b₁, h₁, m₂, h₂, h₃⟩, m₄, b₄, h₄, h₅⟩ := h
  obtain ⟨rfl, h₃'⟩ := Prod.mk.inj (Option.some.inj h₃)
  obtain ⟨rfl, rfl⟩ := Prod.mk.inj h₃'
  obtain ⟨w₁, hne, l₁, f₁⟩ := hmap.checkPage (Window.start rfl) h₁
  obtain ⟨l₂, f₂⟩ := f₁.map.mapRegions hinit.pages_aligned hinit.envs_aligned h₂
  obtain ⟨l₃, f₃⟩ := f₂.map.mmioMapRegions w₁ M.mmio_le h₄
  have hf := f₁.trans (f₂.trans f₃)
  have hkept := (f₂.trans f₃).kept hne
  refine ⟨hinit.setup hperm, m₄, l₃, ⟨rfl, rfl, hf.map, by rw [hkept]; exact hne, ?_⟩, rfl,
    (Option.some.inj h₅).symm⟩
  have := hf.spent
  change order.length ≤ _
  omega

theorem kernInit_some (hl : 1024 ≤ l.length) (hM : M.mmioPages < 1024) :
    ∃ k, kernInit M order = some k := by
  obtain ⟨next, hinit⟩ := memInitPages_eq_some hpages
  rw [hperm.length_eq.symm] at hl
  rw [hc.unique hinit.chain] at hperm
  have hmap := hinit.bootMap hperm
  have hslots := (slots_le (relink m₀ order) (hinit.setup hperm).kern).trans hl
  obtain ⟨m₁, b₁, h₁⟩ := hmap.checkPage_some hslots (Window.start rfl) hM
  obtain ⟨w₁, -, l₁, f₁⟩ := hmap.checkPage (Window.start rfl) h₁
  obtain ⟨m₂, h₂⟩ := f₁.map.mapRegions_some (M := M) hinit.pages_aligned hinit.envs_aligned
    (f₁.enough hslots)
  obtain ⟨l₂, f₂⟩ := f₁.map.mapRegions hinit.pages_aligned hinit.envs_aligned h₂
  obtain ⟨m₃, b₃, h₃⟩ := f₂.map.mmioMapRegions_some (f₂.enough (f₁.enough hslots)) w₁ M.mmio_le hM
  refine ⟨kernStart M m₃ (pgnum d), ?_⟩
  simp only [kernInit, memInit, hpages, Option.bind_eq_bind, Option.bind_some,
    Option.bind_eq_some_iff, Prod.exists]
  exact ⟨m₂, pgnum d, b₁, ⟨m₁, b₁, h₁, m₂, h₂, rfl⟩, m₃, b₃, h₃, rfl⟩

end

end Jos.Kern
