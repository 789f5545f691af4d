import Jos.Kern.PmapSpec
import Jos.Kern.UserMem

/-! Writes through the memory management unit.  Under the directory of an environment they
reach pages of user data and nothing else, unless the kernel itself writes above `ULIM`. -/

namespace Jos.Kern

open Lib Phys

theorem and_eq_of_and_eq {x f g : Word} (hx : x &&& f = f) (hf : f &&& g = g) : x &&& g = g := by
  rw [← hf, ← BitVec.and_assoc, hx]

theorem storeByte_mem (m : Phys) (p off i : Nat) (v : Byte) : (m.storeByte p off v).mem p i =
    if i = off / 4 then (m.mem p i &&& ~~~((0xFF : Word) <<< (8 * (off % 4)))) |||
      v.setWidth 32 <<< (8 * (off % 4)) else m.mem p i := by
  rw [storeByte, mem_store_self]
  split
  · next h => rw [h]
  · rfl

section

variable {b : Base} {m m' : Phys} {ds : Dirs} {out : Set Nat} {l : List Nat}
  {e : EnvIx} {d p : Nat} {va flags : Word}

theorem mmuWalk_eq_some {pde pte : Word} (h : mmuWalk m d va = some (pde, pte)) :
    pde = m.mem d (pdx va) ∧ pte = m.mem (pgnum pde) (ptx va) ∧
      pde &&& pteP ≠ 0 ∧ pte &&& pteP ≠ 0 := by
  simp only [mmuWalk] at h
  split at h
  · cases h
  · next h1 =>
    split at h
    · cases h
    · next h2 =>
      cases h
      exact ⟨rfl, rfl, h1, h2⟩

theorem translate_eq_some (h : translate m d va flags = some p) :
    ∃ pde pte, mmuWalk m d va = some (pde, pte) ∧ pde &&& flags = flags ∧ pte &&& flags = flags ∧
      pgnum pte = p := by
  rw [translate] at h
  split at h
  · cases h
  · next pde pte hw =>
    split at h
    · next hf => exact ⟨pde, pte, hw, hf.1, hf.2, Option.some.inj h⟩
    · cases h

theorem translate_user (hd : ds e = some d) (hva : va < utop)
    (ht : translate m d va flags = some p) :
    target m ds (.pte e (dirIx va hva) (tabIx va)) = some p ∧
      entry m ds e (dirIx va hva) (tabIx va) &&& flags = flags := by
  obtain ⟨pde, pte, hw, -, hf, rfl⟩ := translate_eq_some ht
  obtain ⟨hpde, hpte, hp1, hp2⟩ := mmuWalk_eq_some hw
  have htab : table m ds e (dirIx va hva) = some (pgnum pde) := by
    rw [table_eq hd, present_eq_some_iff]
    rw [hpde] at hp1 ⊢
    exact ⟨hp1, rfl⟩
  have hent : entry m ds e (dirIx va hva) (tabIx va) = pte := by
    rw [entry_eq_mem htab, hpte]
    rfl
  refine ⟨?_, by rw [hent]; exact hf⟩
  rw [target, hent, present_eq_some_iff]
  exact ⟨hp2, rfl⟩

namespace Shape

theorem kern_table (h : Shape b m ds) (hd : ds e = some d) {i : Nat} (hlo : 955 ≤ i) (hi : i < 1024)
    (hne : i ≠ 957) (hp : m.mem d i &&& pteP ≠ 0) :
    ∃ t, present (b.mem b.kern i) = some t ∧ pgnum (m.mem d i) = t ∧ t ∉ b.pool := by
  rw [h.kern hd hlo hi hne] at hp ⊢
  rcases b.pde hlo hi hne with h0 | ⟨t, htn, htp, ht⟩
  · rw [h0] at hp
    exact absurd (by decide) hp
  · have hlt : t < 2 ^ 20 := by have := b.npages_le; omega
    rw [ht]
    exact ⟨t, present_pdeWord hlt, pgnum_pdeWord hlt, htp⟩

theorem window_table (h : Shape b m ds) (hd : ds e = some d) : pgnum (m.mem d 957) = d := by
  rw [h.uvpt hd, BitVec.or_assoc]
  exact pgnum_page2pa_or (b.lt (h.dir_mem hd)) (by decide)

theorem translate_readonly (h : Shape b m ds) (hd : ds e = some d) (hlo : utop ≤ va)
    (hhi : va < ulim) (hW : flags &&& pteW = pteW) : translate m d va flags = none := by
  by_contra hne
  obtain ⟨p, hp⟩ := Option.ne_none_iff_exists'.1 hne
  obtain ⟨pde, pte, hw, hf1, hf2, -⟩ := translate_eq_some hp
  obtain ⟨hpde, hpte, hp1, -⟩ := mmuWalk_eq_some hw
  have hlo' : 955 ≤ pdx va := by
    have := (pdx_lt_iff va).not.2 (BitVec.not_lt.2 hlo)
    omega
  have hhi' : pdx va < 958 := by
    have := BitVec.lt_def.1 hhi
    rw [toNat_ulim] at this
    rw [pdx_eq]
    omega
  by_cases h957 : pdx va = 957
  · have hu : pde = page2pa d ||| (pteP ||| pteU) := by
      rw [hpde, h957, h.uvpt hd, BitVec.or_assoc]
    have := and_eq_of_and_eq hf1 hW
    rw [hu, page2pa_or_and (by decide)] at this
    exact absurd this (by decide)
  · rw [hpde] at hp1 hpte
    obtain ⟨t, ht, hpg, htp⟩ := h.kern_table hd hlo' (pdx_lt va) h957 hp1
    rw [hpg, h.frame htp] at hpte
    subst hpte
    have hro := (b.pte_user hlo' (by omega) ht (ptx_lt va)).1
    have := and_eq_of_and_eq hf2 hW
    rw [hro] at this
    exact absurd this (by decide)

theorem translate_kernel (h : Shape b m ds) (hd : ds e = some d) (hlo : ulim ≤ va)
    (hU : flags &&& pteU = pteU) : translate m d va flags = none := by
  by_contra hne
  obtain ⟨p, hp⟩ := Option.ne_none_iff_exists'.1 hne
  obtain ⟨pde, pte, hw, -, hf2, -⟩ := translate_eq_some hp
  obtain ⟨hpde, hpte, hp1, -⟩ := mmuWalk_eq_some hw
  have hlo' : 958 ≤ pdx va := by
    have := BitVec.le_def.1 hlo
    rw [toNat_ulim] at this
    rw [pdx_eq]
    omega
  rw [hpde] at hp1 hpte
  obtain ⟨t, ht, hpg, htp⟩ := h.kern_table hd (by omega) (pdx_lt va) (by omega) hp1
  rw [hpg, h.frame htp] at hpte
  subst hpte
  have hk := b.pte_kern hlo' (pdx_lt va) ht (ptx_lt va)
  have := and_eq_of_and_eq hf2 hU
  rw [hk] at this
  exact absurd this (by decide)

end Shape

/-- Memory in which user data may have changed, and nothing else has. -/
structure DataOnly (b : Base) (ds : Dirs) (out : Set Nat) (l : List Nat) (m m' : Phys) : Prop where
  spaces : Spaces b m' ds out l
  table_eq : table m' ds = table m ds
  entry_eq : entry m' ds = entry m ds

theorem DataOnly.refl (h : Spaces b m ds out l) : DataOnly b ds out l m m := ⟨h, rfl, rfl⟩

theorem DataOnly.trans {m'' : Phys} (h : DataOnly b ds out l m m')
    (h' : DataOnly b ds out l m' m'') : DataOnly b ds out l m m'' :=
  ⟨h'.spaces, h'.table_eq.trans h.table_eq, h'.entry_eq.trans h.entry_eq⟩

theorem DataOnly.target_eq (h : DataOnly b ds out l m m') : target m' ds = target m ds := by
  funext r
  cases r with
  | dir e => rfl
  | pde e i => rw [target, target, h.table_eq]
  | pte e i j => rw [target, target, h.entry_eq]

namespace Spaces

theorem data_page (h : Spaces b m ds out l) {i : Pdx} {j : Ptx}
    (hp : target m ds (.pte e i j) = some p) :
    p ∈ b.pool ∧ ∀ r : Ref, r.Structural → target m ds r ≠ some p := by
  refine ⟨h.free.balanced.target_mem hp, ?_⟩
  intro r hs hr
  have := h.shape.excl r (.pte e i j) p hs hr hp
  subst this
  cases hs

theorem setPage_data (h : Spaces b m ds out l) {i : Pdx} {j : Ptx}
    (hp : target m ds (.pte e i j) = some p) (f : Nat → Word) :
    DataOnly b ds out l m (m.setPage p f) := by
  obtain ⟨hpool, hs⟩ := h.data_page hp
  exact ⟨h.setPage hpool hs f, table_setPage fun e => hs (.dir e) trivial,
    entry_setPage (fun e => hs (.dir e) trivial) fun e i => hs (.pde e i) trivial⟩

theorem mmuStore (h : Spaces b m ds out l) (hd : ds e = some d) {v : Byte}
    (hW : flags &&& pteW = pteW) (hok : va < ulim ∨ flags &&& pteU = pteU)
    (hst : mmuStore m d va flags v = some m') :
    DataOnly b ds out l m m' ∧ va < utop := by
  obtain ⟨p, htr, hm'⟩ := Option.map_eq_some_iff.1 hst
  have hva : va < utop := by
    by_contra hge
    by_cases hlt : va < ulim
    · rw [h.shape.translate_readonly hd (BitVec.not_lt.1 hge) hlt hW] at htr
      cases htr
    · rw [h.shape.translate_kernel hd (BitVec.not_lt.1 hlt) (hok.resolve_left hlt)] at htr
      cases htr
  have htgt := (translate_user hd hva htr).1
  refine ⟨?_, hva⟩
  rw [if_pos (h.shape.lt_npages (h.data_page htgt).1)] at hm'
  rw [← hm']
  exact h.setPage_data htgt _

theorem translate_eq (h : Spaces b m ds out l) (hd : ds e = some d) (hva : va < utop)
    (htgt : target m ds (.pte e (dirIx va hva) (tabIx va)) = some p)
    (hf : entry m ds e (dirIx va hva) (tabIx va) &&& flags = flags) (h7 : (7 : Word) &&& flags = flags)
    (hlt : flags.toNat < 4096) : translate m d va flags = some p := by
  cases ht : table m ds e (dirIx va hva) with
  | none =>
    rw [target, entry_eq_zero ht, present_zero] at htgt
    cases htgt
  | some t =>
    obtain ⟨d', hd', htp, hw⟩ := h.shape.table_eq_some ht
    obtain rfl : d = d' := Option.some.inj (hd.symm.trans hd')
    have hpde : m.mem d (pdx va) = pdeWord t := hw
    have hpte : m.mem t (ptx va) = entry m ds e (dirIx va hva) (tabIx va) := (entry_eq_mem ht (tabIx va)).symm
    obtain ⟨hP, hpg⟩ := present_eq_some_iff.1 (present_pdeWord (b.lt htp))
    obtain ⟨hP', hpg'⟩ := present_eq_some_iff.1 htgt
    have hwalk : mmuWalk m d va = some (pdeWord t, entry m ds e (dirIx va hva) (tabIx va)) := by
      simp only [mmuWalk, hpde, hpg, hpte]
      rw [if_neg hP, if_neg hP']
    have hflags : pdeWord t &&& flags = flags ∧
        entry m ds e (dirIx va hva) (tabIx va) &&& flags = flags := by
      rw [pdeWord_and hlt]
      exact ⟨h7, hf⟩
    rw [translate, hwalk]
    simp only
    rw [if_pos hflags, hpg']

theorem copyOut (h : Spaces b m ds out l) (hd : ds e = some d) (bs : List Byte) (hva : va < ulim) :
    DataOnly b ds out l m (copyOut d m bs va).1 := by
  induction bs generalizing m va with
  | nil => exact .refl h
  | cons v bs ih =>
    rw [Kern.copyOut]
    cases hst : Kern.mmuStore m d va pteW v with
    | none => exact .refl h
    | some m₁ =>
      obtain ⟨hdata, hlt⟩ := h.mmuStore hd (by decide) (.inl hva) hst
      have hnext : va + 1 < ulim := by
        have h1 := BitVec.lt_def.1 hlt
        rw [toNat_utop] at h1
        rw [BitVec.lt_def, toNat_ulim, BitVec.toNat_add]
        simp only [BitVec.ofNat_eq_ofNat, BitVec.toNat_ofNat]
        omega
      exact hdata.trans (ih hdata.spaces hnext)

end Spaces

end

end Jos.Kern
