import Jos.Kern.Spaces

/-! What page tables look like in memory.  A `Base` is what start-up leaves behind: the
pages it hands to environments, and the rest of memory, which holds `kern_pgdir` and its
tables and never changes again. -/

namespace Jos.Kern

open Lib Phys

def pdeWord (t : Nat) : Word := page2pa t ||| pteP ||| pteW ||| pteU

theorem pdeWord_eq (t : Nat) : pdeWord t = page2pa t ||| 7 := by
  rw [pdeWord, BitVec.or_assoc, BitVec.or_assoc]; rfl

theorem present_pdeWord {t : Nat} (h : t < 2 ^ 20) : present (pdeWord t) = some t := by
  rw [pdeWord_eq]
  exact present_page2pa_or h (by decide) (by decide)

theorem pgnum_pdeWord {t : Nat} (h : t < 2 ^ 20) : pgnum (pdeWord t) = t :=
  (present_eq_some_iff.1 (present_pdeWord h)).2

theorem pdeWord_and {t : Nat} {f : Word} (hf : f.toNat < 4096) : pdeWord t &&& f = 7 &&& f := by
  rw [pdeWord_eq, page2pa_or_and hf]

structure Base where
  npages : Nat
  pool : Set Nat
  kern : Nat
  mem : Nat → Nat → Word
  npages_le : npages ≤ 65535
  pool_lt : ∀ {p}, p ∈ pool → p < npages
  kern_lt : kern < npages
  kern_notMem : kern ∉ pool
  /-- The directory entries for `UENVS`, `UPAGES` and above `ULIM`. -/
  pde : ∀ {i}, 955 ≤ i → i < 1024 → i ≠ 957 →
    mem kern i = 0 ∨ ∃ t, t < npages ∧ t ∉ pool ∧ mem kern i = pdeWord t
  pte_user : ∀ {i t j}, 955 ≤ i → i < 957 → present (mem kern i) = some t → j < 1024 →
    mem t j &&& pteW = 0 ∧ (mem t j = 0 ∨ mem t j &&& pteP ≠ 0)
  uvpt : present (mem kern 957) = some kern
  pte_kern : ∀ {i t j}, 958 ≤ i → i < 1024 → present (mem kern i) = some t → j < 1024 →
    mem t j &&& pteU = 0

theorem Base.lt {b : Base} {p : Nat} (h : p ∈ b.pool) : p < 2 ^ 20 := by
  have := b.pool_lt h
  have := b.npages_le
  omega

def PteOk (w : Word) : Prop := w = 0 ∨ (w &&& pteP ≠ 0 ∧ w &&& pteU ≠ 0)

theorem PteOk.eq_zero {w : Word} (h : PteOk w) (hn : present w = none) : w = 0 := by
  rcases h with h | ⟨h, -⟩
  · exact h
  · exact absurd (present_eq_none_iff.1 hn) h

structure Shape (b : Base) (m : Phys) (ds : Dirs) : Prop where
  npages_eq : m.npages = b.npages
  frame : ∀ {p}, p ∉ b.pool → m.mem p = b.mem p
  excl : Exclusive (target m ds)
  dir_mem : ∀ {e d}, ds e = some d → d ∈ b.pool
  kern : ∀ {e d i}, ds e = some d → 955 ≤ i → i < 1024 → i ≠ 957 → m.mem d i = b.mem b.kern i
  uvpt : ∀ {e d}, ds e = some d → m.mem d 957 = page2pa d ||| pteP ||| pteU
  pde : ∀ {e d}, ds e = some d → ∀ i : Pdx, m.mem d i = 0 ∨ ∃ t, t ∈ b.pool ∧ m.mem d i = pdeWord t
  pte : ∀ e i j, PteOk (entry m ds e i j)

namespace Shape

variable {b : Base} {m m' : Phys} {ds : Dirs}

theorem congr (h : Shape b m ds) (hm : m'.mem = m.mem) (hn : m'.npages = m.npages) :
    Shape b m' ds where
  npages_eq := hn.trans h.npages_eq
  frame := by rw [hm]; exact h.frame
  excl := by rw [target_congr hm]; exact h.excl
  dir_mem := h.dir_mem
  kern := by rw [hm]; exact h.kern
  uvpt := by rw [hm]; exact h.uvpt
  pde := by rw [hm]; exact h.pde
  pte := by
    have : entry m' ds = entry m ds := by
      funext e i j
      simp only [entry, table, hm]
    rw [this]; exact h.pte

theorem table_eq_some (h : Shape b m ds) {e : EnvIx} {i : Pdx} {t : Nat}
    (ht : table m ds e i = some t) :
    ∃ d, ds e = some d ∧ t ∈ b.pool ∧ m.mem d i = pdeWord t := by
  obtain ⟨d, hd, hp⟩ := Option.bind_eq_some_iff.1 ht
  refine ⟨d, hd, ?_⟩
  rcases h.pde hd i with h0 | ⟨t', ht', hw⟩
  · rw [h0, present_zero] at hp
    cases hp
  · rw [hw, present_pdeWord (b.lt ht')] at hp
    cases hp
    exact ⟨ht', hw⟩

theorem pde_eq_zero (h : Shape b m ds) {e : EnvIx} {d : Nat} (hd : ds e = some d) {i : Pdx}
    (ht : table m ds e i = none) : m.mem d i = 0 := by
  rw [table_eq hd] at ht
  rcases h.pde hd i with h0 | ⟨t, htp, hw⟩
  · exact h0
  · rw [hw, present_pdeWord (b.lt htp)] at ht
    cases ht

theorem dir_ne_table (h : Shape b m ds) {e e' : EnvIx} {i : Pdx} {d : Nat} (hd : ds e = some d) :
    table m ds e' i ≠ some d := by
  intro ht
  have := h.excl (.dir e) (.pde e' i) d trivial hd ht
  cases this

theorem setPage (h : Shape b m ds) {p : Nat} (hp : p ∈ b.pool)
    (hs : ∀ r : Ref, r.Structural → target m ds r ≠ some p) (f : Nat → Word) :
    Shape b (m.setPage p f) ds := by
  have hd : ∀ {e d}, ds e = some d → d ≠ p := by
    rintro e d he rfl
    exact hs (.dir e) trivial he
  have ht : ∀ e i, table m ds e i ≠ some p := fun e i => hs (.pde e i) trivial
  refine ⟨h.npages_eq, ?_, ?_, h.dir_mem, ?_, ?_, ?_, ?_⟩
  · intro q hq
    have hne : q ≠ p := by
      rintro rfl
      exact hq hp
    rw [mem_setPage_of_ne m f hne, h.frame hq]
  · rw [target_setPage hs]
    exact h.excl
  · intro e d i he
    rw [mem_setPage_of_ne m f (hd he)]
    exact h.kern he
  · intro e d he
    rw [mem_setPage_of_ne m f (hd he)]
    exact h.uvpt he
  · intro e d he
    rw [mem_setPage_of_ne m f (hd he)]
    exact h.pde he
  · rw [entry_setPage (fun e he => hd he rfl) ht]
    exact h.pte

theorem store_table (h : Shape b m ds) {e : EnvIx} {i : Pdx} {t : Nat}
    (ht : table m ds e i = some t) (j : Ptx) {w : Word} (hw : PteOk w)
    (hp : ∀ p, present w = some p → ∀ r : Ref, r.Structural → target m ds r ≠ some p) :
    Shape b (m.store t j w) ds := by
  obtain ⟨_, -, htp, -⟩ := h.table_eq_some ht
  have hd : ∀ {e d}, ds e = some d → d ≠ t := by
    rintro e' d he rfl
    exact h.dir_ne_table he ht
  refine ⟨h.npages_eq, ?_, ?_, h.dir_mem, ?_, ?_, ?_, ?_⟩
  · intro q hq
    have hne : q ≠ t := by
      rintro rfl
      exact hq htp
    rw [mem_store_of_ne m _ _ hne, h.frame hq]
  · rw [target_store_table h.excl ht]
    cases hv : present w with
    | none => exact h.excl.update_none _
    | some p =>
      apply h.excl.update_some
      rintro r' (hs | hs)
      · cases hs
      · exact hp p hv r' hs
  · intro e d i he
    rw [mem_store_of_ne m _ _ (hd he)]
    exact h.kern he
  · intro e d he
    rw [mem_store_of_ne m _ _ (hd he)]
    exact h.uvpt he
  · intro e d he
    rw [mem_store_of_ne m _ _ (hd he)]
    exact h.pde he
  · intro e' i' j'
    rw [entry_store_table h.excl ht]
    split
    · exact hw
    · exact h.pte e' i' j'

theorem store_dir (h : Shape b m ds) {e : EnvIx} {d : Nat} (hd : ds e = some d) (i : Pdx) {w : Word}
    (hw : w = 0 ∨ ∃ t, t ∈ b.pool ∧ w = pdeWord t ∧ (∀ r, target m ds r ≠ some t) ∧
      ∀ j : Ptx, m.mem t j = 0)
    (hold : ∀ j, entry m ds e i j = 0) :
    Shape b (m.store d i w) ds ∧
      target (m.store d i w) ds = Function.update (target m ds) (.pde e i) (present w) ∧
      entry (m.store d i w) ds = entry m ds := by
  have hnew : ∀ t, present w = some t →
      (∀ r, target m ds r ≠ some t) ∧ ∀ j : Ptx, m.mem t j = 0 := by
    intro t ht
    rcases hw with rfl | ⟨t', htp, rfl, hr, hz⟩
    · cases ht
    · rw [present_pdeWord (b.lt htp)] at ht
      cases ht
      exact ⟨hr, hz⟩
  have hne : ∀ t, present w = some t → t ≠ d ∧ ∀ j : Ptx, m.mem t j = 0 := by
    intro t ht
    refine ⟨?_, (hnew t ht).2⟩
    rintro rfl
    exact (hnew t ht).1 (.dir e) hd
  have hent := entry_store_dir h.excl hd i w hold hne
  have htgt := target_store_dir h.excl hd i w hold hne
  have hmem : ∀ {e' d' i'}, ds e' = some d' → (d' = d → i' ≠ i.val) →
      (m.store d i w).mem d' i' = m.mem d' i' := by
    intro e' d' i' _ hi
    by_cases hdd : d' = d
    · subst hdd
      rw [mem_store_self, if_neg (hi rfl)]
    · rw [mem_store_of_ne m _ _ hdd]
  refine ⟨⟨h.npages_eq, ?_, ?_, h.dir_mem, ?_, ?_, ?_, ?_⟩, htgt, hent⟩
  · intro q hq
    have hqd : q ≠ d := by
      rintro rfl
      exact hq (h.dir_mem hd)
    rw [mem_store_of_ne m _ _ hqd, h.frame hq]
  · rw [htgt]
    cases hv : present w with
    | none => exact h.excl.update_none _
    | some p => exact h.excl.update_some fun r' _ => (hnew p hv).1 r'
  · intro e' d' i' he h1 h2 h3
    rw [hmem he (fun _ => by have := i.isLt; omega)]
    exact h.kern he h1 h2 h3
  · intro e' d' he
    rw [hmem he (fun _ => by have := i.isLt; omega)]
    exact h.uvpt he
  · intro e' d' he i'
    by_cases hc : d' = d ∧ i' = i
    · obtain ⟨rfl, rfl⟩ := hc
      rw [mem_store_self, if_pos rfl]
      rcases hw with h0 | ⟨t, htp, hw, -⟩
      · exact .inl h0
      · exact .inr ⟨t, htp, hw⟩
    · rw [hmem he (fun hdd hii => hc ⟨hdd, Fin.ext hii⟩)]
      exact h.pde he i'
  · rw [hent]
    exact h.pte

theorem addDir (h : Shape b m ds) {e : EnvIx} (he : ds e = none) {p : Nat} (hp : p ∈ b.pool)
    (hr : ∀ r, target m ds r ≠ some p) (hz : ∀ i : Pdx, m.mem p i = 0)
    (hk : ∀ i, 955 ≤ i → i < 1024 → i ≠ 957 → m.mem p i = b.mem b.kern i)
    (hu : m.mem p 957 = page2pa p ||| pteP ||| pteU) :
    Shape b m (Function.update ds e (some p)) := by
  have htgt : target m (Function.update ds e (some p)) =
      Function.update (target m ds) (.dir e) (some p) := by
    refine target_update_dir (table_of_dir_none he) ?_
    rintro d ⟨⟩
    exact hz
  have hcase : ∀ {e' d}, Function.update ds e (some p) e' = some d → d = p ∨ ds e' = some d := by
    intro e' d hd
    by_cases hee : e' = e
    · subst hee
      rw [Function.update_self] at hd
      exact .inl (Option.some.inj hd).symm
    · rw [Function.update_of_ne hee] at hd
      exact .inr hd
  refine ⟨h.npages_eq, h.frame, ?_, ?_, ?_, ?_, ?_, ?_⟩
  · rw [htgt]
    exact h.excl.update_some fun r' _ => hr r'
  · intro e' d hd
    rcases hcase hd with rfl | hd
    · exact hp
    · exact h.dir_mem hd
  · intro e' d i hd
    rcases hcase hd with rfl | hd
    · exact hk i
    · exact h.kern hd
  · intro e' d hd
    rcases hcase hd with rfl | hd
    · exact hu
    · exact h.uvpt hd
  · intro e' d hd i
    rcases hcase hd with rfl | hd
    · exact .inl (hz i)
    · exact h.pde hd i
  · intro e' i j
    by_cases hee : e' = e
    · subst hee
      refine .inl (entry_eq_zero ?_ j)
      rw [table_eq (Function.update_self ..), hz, present_zero]
    · rw [entry_update_of_ne hee]
      exact h.pte e' i j

theorem dropDir (h : Shape b m ds) {e : EnvIx} (hz : ∀ i, table m ds e i = none) :
    Shape b m (Function.update ds e none) := by
  have htgt : target m (Function.update ds e none) =
      Function.update (target m ds) (.dir e) none := by
    refine target_update_dir hz ?_
    rintro d ⟨⟩
  have hcase : ∀ {e' d}, Function.update ds e none e' = some d → ds e' = some d := by
    intro e' d hd
    by_cases hee : e' = e
    · subst hee; simp at hd
    · rwa [Function.update_of_ne hee] at hd
  refine ⟨h.npages_eq, h.frame, ?_, fun hd => h.dir_mem (hcase hd), fun hd => h.kern (hcase hd),
    fun hd => h.uvpt (hcase hd), fun hd => h.pde (hcase hd), ?_⟩
  · rw [htgt]
    exact h.excl.update_none _
  · intro e' i j
    by_cases hee : e' = e
    · subst hee
      exact .inl (entry_of_dir_none (Function.update_self ..) i j)
    · rw [entry_update_of_ne hee]
      exact h.pte e' i j

end Shape

/-- The invariant of the page tables, the reference counts and the free list `l`; the pages
in `out` have been taken off the list by the function that is running. -/
structure Spaces (b : Base) (m : Phys) (ds : Dirs) (out : Set Nat) (l : List Nat) : Prop where
  shape : Shape b m ds
  free : FreeList m (target m ds) b.pool out l

end Jos.Kern
