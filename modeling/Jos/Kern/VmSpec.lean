import Jos.Kern.PmapSpec
import Jos.Lib.Fold

/-! Whole address spaces: `env_setup_vm` and the unmapping loops of `env_free`. -/

namespace Jos.Kern

open Lib Phys

section

variable {b : Base} {m : Phys} {ds : Dirs} {out : Set Nat} {l : List Nat}
  {e : EnvIx} {d t pp : Nat}

namespace Spaces

theorem envSetupVm_nil (h : Spaces b m ds out []) : envSetupVm m b.kern = some (m, none) := by
  rw [envSetupVm, h.pageAlloc_nil true]
  rfl

theorem giveDir (h : Spaces b m ds out l) (he : ds e = none) (hpp : pp ∈ out) {m' : Phys}
    (hm' : m' = (m.setRef pp (m.ppRef pp + 1)).setPage pp (envPgdirPage m b.kern pp)) :
    Spaces b m' (Function.update ds e (some pp)) (out \ {pp}) l ∧
      target m' (Function.update ds e (some pp)) =
        Function.update (target m ds) (.dir e) (some pp) ∧
      entry m' (Function.update ds e (some pp)) = entry m ds := by
  obtain ⟨hpool, hzero⟩ := h.free.balanced.out_mem hpp
  have hnl : pp ∉ l := fun hl => (h.free.balanced.mem_free.1 hl).2.2 hpp
  have hr := refCount_eq_zero_iff.1 hzero
  have hmem : ∀ i, m'.mem pp i = envPgdirPage m b.kern pp i := by
    intro i
    rw [hm', mem_setPage_self]
  have hs : Shape b m' ds := by
    rw [hm']
    have h1 : Shape b (m.setRef pp (m.ppRef pp + 1)) ds := h.shape.congr rfl rfl
    exact h1.setPage hpool (fun r _ => hr r) _
  have htgt : target m' ds = target m ds := by
    rw [hm', target_setPage (by rw [target_setRef]; exact fun r _ => hr r), target_setRef]
  have hent : entry m' ds = entry m ds := by
    rw [hm']
    exact entry_setPage (m := m.setRef pp (m.ppRef pp + 1)) (fun e => hr (.dir e))
      (fun e i => hr (.pde e i))
  have hz : ∀ i : Pdx, m'.mem pp i = 0 := by
    intro i
    have := i.isLt
    rw [hmem, envPgdirPage, pdx_uvpt, pdx_utop, if_neg (by omega), if_pos (by omega)]
  have htgt' : target m' (Function.update ds e (some pp)) =
      Function.update (target m ds) (.dir e) (some pp) := by
    rw [target_update_dir (table_of_dir_none he) (by rintro d ⟨⟩; exact hz), htgt]
  refine ⟨⟨?_, ?_⟩, htgt', ?_⟩
  · refine hs.addDir he hpool (by rw [htgt]; exact hr) hz ?_ ?_
    · intro i h1 h2 h3
      rw [hmem, envPgdirPage, pdx_uvpt, pdx_utop, if_neg h3, if_neg (by omega),
        h.shape.frame b.kern_notMem]
    · rw [hmem, envPgdirPage, pdx_uvpt, if_pos rfl]
  · have hnone : target m ds (.dir e) = none := he
    rw [htgt', hm']
    exact (h.free.incref hnone hpool hnl).congr rfl rfl rfl
  · funext e' i j
    by_cases hee : e' = e
    · subst hee
      rw [entry_of_dir_none he, entry_eq_zero]
      rw [table_eq (Function.update_self ..), hz, present_zero]
    · rw [entry_update_of_ne hee, hent]

theorem envSetupVm_cons (h : Spaces b m ds out (pp :: l)) (he : ds e = none) :
    ∃ m', envSetupVm m b.kern = some (m', some pp) ∧
      Spaces b m' (Function.update ds e (some pp)) out l ∧
      target m' (Function.update ds e (some pp)) =
        Function.update (target m ds) (.dir e) (some pp) ∧
      entry m' (Function.update ds e (some pp)) = entry m ds := by
  obtain ⟨hpool, -, hout⟩ := h.free.mem_pool_of_head
  obtain ⟨m2, halloc, h2, htgt, hent, -⟩ := h.pageAlloc_zeroed
  have hk : m2.page2kva pp = some pp :=
    page2kva_eq (h2.shape.lt_npages hpool) h2.shape.npages_le
  obtain ⟨h3, htgt3, hent3⟩ := h2.giveDir he (Set.mem_insert pp out) rfl
  rw [Set.insert_sdiff_self_of_notMem hout] at h3
  refine ⟨_, ?_, h3, by rw [htgt3, htgt], hent3.trans hent⟩
  rw [envSetupVm, halloc]
  simp only [Option.bind_eq_bind, Option.bind_some, hk]
  rfl

end Spaces

/-- What the loops of `env_free` keep while they take the address space of `e` apart. -/
structure Unmapped (b : Base) (ds : Dirs) (out : Set Nat) (e : EnvIx) (m m' : Phys) : Prop where
  spaces : ∃ l, Spaces b m' ds out l
  fewer : ∀ {r p}, target m' ds r = some p → target m ds r = some p
  table_eq : ∀ {e'}, e' ≠ e → table m' ds e' = table m ds e'
  entry_eq : ∀ {e'}, e' ≠ e → entry m' ds e' = entry m ds e'

namespace Unmapped

variable {m' m'' : Phys}

theorem refl (h : Spaces b m ds out l) : Unmapped b ds out e m m :=
  ⟨⟨l, h⟩, id, fun _ => rfl, fun _ => rfl⟩

theorem trans (h : Unmapped b ds out e m m') (h' : Unmapped b ds out e m' m'') :
    Unmapped b ds out e m m'' where
  spaces := h'.spaces
  fewer := fun hr => h.fewer (h'.fewer hr)
  table_eq := fun he => (h'.table_eq he).trans (h.table_eq he)
  entry_eq := fun he => (h'.entry_eq he).trans (h.entry_eq he)

theorem refCount_le (h : Unmapped b ds out e m m') (hle : ∀ q, refCount (target m ds) q ≤ 65536)
    (q : Nat) : refCount (target m' ds) q ≤ 65536 :=
  Nat.le_trans (refCount_mono fun _ => h.fewer) (hle q)

theorem pageRemove (h : Spaces b m ds out l) (hd : ds e = some d)
    (hle : ∀ q, refCount (target m ds) q ≤ 65536) (i : Pdx) (j : Ptx) :
    ∃ m', Kern.pageRemove m (some d) (pgaddr i j 0) = some m' ∧ Unmapped b ds out e m m' ∧
      table m' ds = table m ds ∧ entry m' ds e i j = 0 ∧
      ∀ j', entry m ds e i j' = 0 → entry m' ds e i j' = 0 := by
  have hi : i.val < 1024 := by have := i.isLt; omega
  have hva : pgaddr i j 0 < utop := by
    rw [← pdx_lt_iff, pdx_pgaddr hi j.isLt]
    exact i.isLt
  have hdir : dirIx (pgaddr i j 0) hva = i := Fin.ext (pdx_pgaddr hi j.isLt)
  have htab : tabIx (pgaddr i j 0) = j := Fin.ext (ptx_pgaddr hi j.isLt)
  obtain ⟨m', l', heq, hsp, -, ht, htgt, hent⟩ := h.pageRemove hd hva (fun q _ => hle q)
  rw [hdir, htab] at htgt
  simp only [hdir, htab] at hent
  refine ⟨m', heq, ⟨⟨l', hsp⟩, ?_, ?_, ?_⟩, ht, ?_, ?_⟩
  · intro r p hr
    rw [htgt] at hr
    by_cases hrr : r = .pte e i j
    · subst hrr; simp at hr
    · rwa [Function.update_of_ne hrr] at hr
  · intro e' _
    rw [ht]
  · intro e' he
    funext i' j'
    rw [hent, if_neg (fun hc => he hc.1)]
  · rw [hent, if_pos ⟨rfl, rfl, rfl⟩]
  · intro j' hz
    rw [hent, hz]
    split <;> rfl

theorem envFreeTable (h : Spaces b m ds out l) (hd : ds e = some d) {i : Pdx}
    (ht : table m ds e i = some t) (hle : ∀ q, refCount (target m ds) q ≤ 65536) :
    ∃ m', envFreeTable d t i m = some m' ∧ Unmapped b ds out e m m' ∧
      table m' ds = table m ds ∧ ∀ j, entry m' ds e i j = 0 := by
  obtain ⟨m', heq, hun, htab, hz⟩ := foldlM_range
    (fun m pteno =>
      if m.mem t pteno &&& pteP ≠ 0 then Kern.pageRemove m (some d) (pgaddr i pteno 0) else some m)
    (fun n m' => Unmapped b ds out e m m' ∧ table m' ds = table m ds ∧
      ∀ j : Ptx, j.val < n → entry m' ds e i j = 0)
    (n := 1024) ⟨.refl h, rfl, fun j hj => absurd hj (Nat.not_lt_zero _)⟩ (by
      intro n m₁ hn ⟨hun, htab, hz⟩
      obtain ⟨l₁, h₁⟩ := hun.spaces
      have ht₁ : table m₁ ds e i = some t := by rw [htab, ht]
      have hstep : ∀ {m₂}, (∀ j, entry m₁ ds e i j = 0 → entry m₂ ds e i j = 0) →
          entry m₂ ds e i ⟨n, hn⟩ = 0 → ∀ j : Ptx, j.val < n + 1 → entry m₂ ds e i j = 0 := by
        intro m₂ hkeep hnew j hj
        by_cases hjn : j.val = n
        · obtain rfl : j = ⟨n, hn⟩ := Fin.ext hjn
          exact hnew
        · exact hkeep j (hz j (by omega))
      split
      · obtain ⟨m₂, heq, hun₂, htab₂, hz₂, hkeep⟩ :=
          pageRemove h₁ hd (hun.refCount_le hle) i ⟨n, hn⟩
        exact ⟨m₂, heq, hun.trans hun₂, htab₂.trans htab, hstep hkeep hz₂⟩
      · next hp =>
        refine ⟨m₁, rfl, hun, htab, hstep (fun j => id) ((h₁.shape.pte _ _ _).eq_zero ?_)⟩
        rw [entry_eq_mem ht₁, present_eq_none_iff]
        exact not_not.1 hp)
  exact ⟨m', heq, hun, htab, fun j => hz j j.isLt⟩

theorem envFreePde (h : Spaces b m ds out l) (hd : ds e = some d) (i : Pdx)
    (hle : ∀ q, refCount (target m ds) q ≤ 65536) :
    ∃ m', envFreePde d m i = some m' ∧ Unmapped b ds out e m m' ∧ table m' ds e i = none ∧
      ∀ i', table m ds e i' = none → table m' ds e i' = none := by
  cases ht : table m ds e i with
  | none =>
    have hz : (0 : Word) &&& pteP = 0 := by decide
    refine ⟨m, ?_, .refl h, ht, fun i' => id⟩
    rw [Kern.envFreePde, h.shape.pde_eq_zero hd ht, if_pos hz]
  | some t =>
    obtain ⟨d', hd', htp, hw⟩ := h.shape.table_eq_some ht
    obtain rfl : d = d' := Option.some.inj (hd.symm.trans hd')
    have hp : pdeWord t &&& pteP ≠ 0 := (present_eq_some_iff.1 (present_pdeWord (b.lt htp))).1
    obtain ⟨m₁, hfree, hun, htab, hz⟩ := envFreeTable h hd ht hle
    obtain ⟨l₁, h₁⟩ := hun.spaces
    have ht₁ : target m₁ ds (.pde e i) = some t := by rw [target, htab, ht]
    obtain ⟨hs, htgt, hent⟩ := h₁.shape.store_dir hd i (w := 0) (.inl rfl) hz
    have hf : FreeList (m₁.store d i 0) (target m₁ ds) b.pool out l₁ := h₁.free.congr rfl rfl rfl
    obtain ⟨m₂, l₂, hdec, hmem, hnp, hf₂, -⟩ := hf.pageDecref ht₁ (hun.refCount_le hle t)
    rw [present_zero] at htgt
    have htgt₂ : target m₂ ds = Function.update (target m₁ ds) (.pde e i) none := by
      rw [target_congr hmem, htgt]
    have htab₂ : ∀ e' i', table m₂ ds e' i' =
        if e' = e ∧ i' = i then none else table m₁ ds e' i' := by
      intro e' i'
      have := congrFun htgt₂ (.pde e' i')
      rw [target] at this
      rw [this]
      by_cases hc : e' = e ∧ i' = i
      · obtain ⟨rfl, rfl⟩ := hc; simp
      · rw [if_neg hc, Function.update_of_ne (by simpa using hc), target]
    refine ⟨m₂, ?_, hun.trans ⟨⟨l₂, hs.congr hmem hnp, ?_⟩, ?_, ?_, ?_⟩, ?_, ?_⟩
    · have hpg : pgnum (pteAddr (pdeWord t)) = t := by rw [pgnum_pteAddr, pgnum_pdeWord (b.lt htp)]
      have hpa : (m₁.store d i 0).pa2page (pteAddr (pdeWord t)) = some t := by
        rw [pa2page_eq (by rw [hpg]; exact hs.lt_npages htp), hpg]
      rw [Kern.envFreePde, hw, if_neg hp]
      simp only [h.shape.kaddr_pdeWord htp, Option.bind_eq_bind, Option.bind_some, hfree, hpa, hdec]
    · rw [htgt₂]
      exact hf₂
    · intro r p hr
      rw [htgt₂] at hr
      by_cases hrr : r = .pde e i
      · subst hrr; simp at hr
      · rwa [Function.update_of_ne hrr] at hr
    · intro e' he
      funext i'
      rw [htab₂, if_neg (fun hc => he hc.1)]
    · intro e' _
      have hcong : entry m₂ ds = entry (m₁.store d i 0) ds := by
        funext e' i' j'
        simp only [entry, table, hmem]
      rw [hcong, hent]
    · rw [htab₂, if_pos ⟨rfl, rfl⟩]
    · intro i' hi'
      rw [htab₂, htab, hi']
      split <;> rfl

end Unmapped

theorem Shape.refCount_dir (h : Shape b m ds) (hd : ds e = some d) :
    refCount (target m ds) d = 1 := by
  have hdir : target m ds (.dir e) = some d := hd
  have hzero : refCount (Function.update (target m ds) (.dir e) none) d = 0 := by
    rw [refCount_eq_zero_iff]
    intro r hr
    by_cases hrr : r = .dir e
    · subst hrr; simp at hr
    · rw [Function.update_of_ne hrr] at hr
      exact hrr (h.excl (.dir e) r d trivial hdir hr).symm
  have := refCount_update_none hdir
  omega

theorem Spaces.envFreeVm (h : Spaces b m ds out l) (hd : ds e = some d)
    (hle : ∀ q, refCount (target m ds) q ≤ 65536) :
    ∃ m' l', envFreeVm m d = some m' ∧ Spaces b m' (Function.update ds e none) out l' ∧
      (∀ {r p}, target m' (Function.update ds e none) r = some p → target m ds r = some p) ∧
      (∀ {e'}, e' ≠ e → table m' (Function.update ds e none) e' = table m ds e') ∧
      (∀ {e'}, e' ≠ e → entry m' (Function.update ds e none) e' = entry m ds e') ∧
      m'.pageFreeList = some d := by
  obtain ⟨m₁, heq, hun, hz⟩ := foldlM_range (envFreePde d)
    (fun n m' => Unmapped b ds out e m m' ∧ ∀ i : Pdx, i.val < n → table m' ds e i = none)
    (n := 955) ⟨.refl h, fun i hi => absurd hi (Nat.not_lt_zero _)⟩ (by
      intro n m₁ hn ⟨hun, hz⟩
      obtain ⟨l₁, h₁⟩ := hun.spaces
      obtain ⟨m₂, heq, hun₂, hnew, hkeep⟩ :=
        Unmapped.envFreePde h₁ hd ⟨n, hn⟩ (hun.refCount_le hle)
      refine ⟨m₂, heq, hun.trans hun₂, ?_⟩
      intro i hi
      by_cases hin : i.val = n
      · obtain rfl : i = ⟨n, hn⟩ := Fin.ext hin
        exact hnew
      · exact hkeep i (hz i (by omega)))
  obtain ⟨l₁, h₁⟩ := hun.spaces
  have hz : ∀ i, table m₁ ds e i = none := fun i => hz i i.isLt
  have hdp := h₁.shape.dir_mem hd
  have hdir : target m₁ ds (.dir e) = some d := hd
  obtain ⟨m₂, l₂, hdec, hmem, hnp, hf₂, -, hhead⟩ :=
    h₁.free.pageDecref hdir (hun.refCount_le hle d)
  have hs : Shape b m₂ (Function.update ds e none) := (h₁.shape.dropDir hz).congr hmem hnp
  have htgt : target m₂ (Function.update ds e none) =
      Function.update (target m₁ ds) (.dir e) none := by
    rw [target_congr hmem, target_update_dir hz (by rintro d ⟨⟩)]
  have htab : ∀ e', table m₂ ds e' = table m₁ ds e' := by
    intro e'
    funext i
    rw [table, table, hmem]
  have hent : ∀ e', entry m₂ ds e' = entry m₁ ds e' := by
    intro e'
    funext i j
    rw [entry, entry, htab, hmem]
  refine ⟨m₂, l₂, ?_, ⟨hs, ?_⟩, ?_, ?_, ?_, hhead (h₁.shape.refCount_dir hd)⟩
  · have hpg : pgnum (page2pa d) = d := pgnum_page2pa (b.lt hdp)
    have hpa : m₁.pa2page (page2pa d) = some d := by
      rw [pa2page_eq (by rw [hpg]; exact h₁.shape.lt_npages hdp), hpg]
    rw [Kern.envFreeVm, pdx_utop, heq]
    simp only [Option.bind_eq_bind, Option.bind_some, hpa, hdec]
  · rw [htgt]
    exact hf₂
  · intro r p hr
    rw [htgt] at hr
    by_cases hrr : r = .dir e
    · subst hrr; simp at hr
    · rw [Function.update_of_ne hrr] at hr
      exact hun.fewer hr
  · intro e' he
    rw [table_update_of_ne he, htab, hun.table_eq he]
  · intro e' he
    rw [entry_update_of_ne he, hent, hun.entry_eq he]

end

end Jos.Kern
