import Jos.Kern.BootSpec
import Jos.Kern.Demo

/-! The regions that `mem_init` maps, and physical memory at `KERNBASE`. -/

namespace Jos.Kern

open Lib Phys

def checkVa2pa (m : Phys) (pgdir : Nat) (va : Word) : Option Word :=
  if m.mem pgdir (pdx va) &&& pteP = 0 then some (~~~0)
  else do
    let t ← m.kaddr (pteAddr (m.mem pgdir (pdx va)))
    if m.mem t (ptx va) &&& pteP = 0 then return ~~~0
    else return pteAddr (m.mem t (ptx va))

/-- Address `x` is translated to `y`, by an entry with the flags `perm|PTE_P`. -/
def TranslatesTo (m : Phys) (d : Nat) (x y perm : Word) : Prop :=
  ∃ pde pte, mmuWalk m d x = some (pde, pte) ∧ pteAddr pte + BitVec.ofNat 32 (pgoff x) = y ∧
    pte &&& 0xFFF = perm ||| pteP

structure MapCall where
  va : Word
  size : Word
  pa : Word
  perm : Word

namespace MapCall

def run (d : Nat) (m : Phys) (r : MapCall) : Option Phys := bootMapRegion m d r.va r.size r.pa r.perm

/-- Every byte of the region is mapped to its byte, and no other address is touched. -/
def Maps (r : MapCall) (d : Nat) (m m' : Phys) : Prop :=
  (∀ off < r.size.toNat,
    TranslatesTo m' d (r.va + BitVec.ofNat 32 off) (r.pa + BitVec.ofNat 32 off) r.perm) ∧
    ∀ x : Word, x.toNat < r.va.toNat ∨ r.va.toNat + r.size.toNat ≤ x.toNat →
      mmuWalk m' d x = mmuWalk m d x

/-- The bytes past the last full page are mapped already, and so are the tables there. -/
def Whole (r : MapCall) (d : Nat) (m : Phys) : Prop :=
  (∀ off, r.size.toNat / 4096 * 4096 ≤ off → off < r.size.toNat →
    TranslatesTo m d (r.va + BitVec.ofNat 32 off) (r.pa + BitVec.ofNat 32 off) r.perm) ∧
    ∀ i < r.size.toNat / 4096, present (m.mem d (pdx (r.va + BitVec.ofNat 32 i * pgsize))) ≠ none

structure Fits (r : MapCall) : Prop where
  va_aligned : pgoff r.va = 0
  pa_aligned : pgoff r.pa = 0
  perm_lt : r.perm.toNat < 4096
  clear : Clear r.va ((r.size.toNat + 4095) / 4096)

end MapCall

theorem pteAddr_page2pa_or {p : Nat} {f : Word} (hf : f.toNat < 4096) :
    pteAddr (page2pa p ||| f) = page2pa p := by
  apply BitVec.eq_of_getLsbD_eq
  intro i hi
  have hm : (~~~(0xFFF : Word)).getLsbD i = decide (12 ≤ i) := by
    revert i
    decide
  rw [pteAddr, BitVec.getLsbD_and, hm, BitVec.getLsbD_or]
  by_cases h12 : 12 ≤ i
  · simp [h12, getLsbD_of_flags hf h12]
  · simp [h12, page2pa, show i < 12 by omega]

section Calls

variable {m m' : Phys} {d : Nat} {l : List Nat} {r : MapCall} {x : Word}

theorem MapCall.Fits.toNat_off (h : r.Fits) {off : Nat} (hoff : off < r.size.toNat) :
    (r.va + BitVec.ofNat 32 off).toNat = r.va.toNat + off := by
  have hend := h.clear.end_le
  have := r.size.isLt
  rw [BitVec.toNat_add, BitVec.toNat_ofNat]
  omega

theorem translatesTo_of_entry (hf : r.Fits) {off : Nat} (hoff : off < r.size.toNat) {pde : Word}
    (hw : mmuWalk m d (r.va + BitVec.ofNat 32 off) =
      some (pde, (r.pa + BitVec.ofNat 32 (off / 4096) * pgsize) ||| r.perm ||| pteP)) :
    TranslatesTo m d (r.va + BitVec.ofNat 32 off) (r.pa + BitVec.ofNat 32 off) r.perm := by
  have hpa : r.pa + BitVec.ofNat 32 (off / 4096) * pgsize =
      page2pa (pgnum (r.pa + BitVec.ofNat 32 (off / 4096) * pgsize)) :=
    eq_page2pa ((pgoff_add_page _ _).trans hf.pa_aligned)
  refine ⟨_, _, hw, ?_, ?_⟩
  · rw [hpa, BitVec.or_assoc, pteAddr_page2pa_or (flags_or hf.perm_lt (by decide)), ← hpa]
    apply BitVec.eq_of_toNat_eq
    have hva := hf.va_aligned
    rw [pgoff_eq] at hva
    have hx := hf.toNat_off hoff
    have := r.size.isLt
    simp only [BitVec.toNat_add, BitVec.toNat_mul, BitVec.toNat_ofNat, toNat_pgsize, pgoff_eq, hx]
    omega
  · have hperm : (r.perm ||| pteP) &&& 0xFFF = r.perm ||| pteP :=
      flags_and (flags_or hf.perm_lt (by decide))
    rw [hpa, BitVec.or_assoc, page2pa_or_and (by decide), hperm]

theorem MapCall.Fits.region (hf : r.Fits) (h : Dir m d l) (hst : r.run d m = some m') :
    (∃ l', Dir m' d l') ∧ Region d r.va (r.size.toNat / 4096) r.pa r.perm m m' :=
  h.bootMapRegion (hf.clear.mono (Nat.div_le_div_right (Nat.le_add_right _ _))) hst

theorem MapCall.Fits.page_off (hf : r.Fits) {off : Nat} (hoff : off < r.size.toNat) :
    (r.va + BitVec.ofNat 32 off).toNat / 4096 = r.va.toNat / 4096 + off / 4096 := by
  have hva := hf.va_aligned
  rw [pgoff_eq] at hva
  rw [hf.toNat_off hoff]
  omega

theorem MapCall.Fits.ne_uvpt (hf : r.Fits) {off : Nat} (hoff : off < r.size.toNat) :
    pdx (r.va + BitVec.ofNat 32 off) ≠ 957 := by
  have hi : off / 4096 < (r.size.toNat + 4095) / 4096 := by omega
  rw [hf.clear.pdx_eq hi (hf.page_off hoff)]
  exact hf.clear.ne_uvpt _ hi

theorem MapCall.Fits.page_ne (hf : r.Fits)
    (hx : x.toNat < r.va.toNat ∨ r.va.toNat + r.size.toNat ≤ x.toNat) {i : Nat}
    (hi : i < r.size.toNat / 4096) : x.toNat / 4096 ≠ r.va.toNat / 4096 + i := by
  have hva := hf.va_aligned
  rw [pgoff_eq] at hva
  omega

theorem MapCall.Fits.outside_of_uvpt (hf : r.Fits) (hx : pdx x = 957) :
    x.toNat < r.va.toNat ∨ r.va.toNat + r.size.toNat ≤ x.toNat := by
  by_contra hc
  have hoff : x.toNat - r.va.toNat < r.size.toNat := by omega
  refine hf.ne_uvpt hoff ?_
  rw [← hx]
  congr 1
  apply BitVec.eq_of_toNat_eq
  rw [hf.toNat_off hoff]
  omega

theorem MapCall.Fits.translatesTo (hf : r.Fits)
    (hr : Region d r.va (r.size.toNat / 4096) r.pa r.perm m m') {off : Nat} (hoff : off < r.size.toNat) :
    (off < r.size.toNat / 4096 * 4096 →
      TranslatesTo m' d (r.va + BitVec.ofNat 32 off) (r.pa + BitVec.ofNat 32 off) r.perm) ∧
    (r.size.toNat / 4096 * 4096 ≤ off →
      mmuWalk m' d (r.va + BitVec.ofNat 32 off) = mmuWalk m d (r.va + BitVec.ofNat 32 off)) := by
  constructor
  · intro hlt
    obtain ⟨pde, hw⟩ := hr.here (off / 4096) (by omega) _ (hf.page_off hoff)
    exact translatesTo_of_entry hf hoff hw
  · intro hge
    refine hr.other _ (hf.ne_uvpt hoff) fun i hi => ?_
    rw [hf.page_off hoff]
    omega

/-- A region is mapped as it should be if its size is one of whole pages, and if no table had to
be made for it: a new table shows at `UVPT`. -/
theorem MapCall.maps_iff (hf : r.Fits) (h : Dir m d l) (hst : r.run d m = some m') :
    r.Maps d m m' ↔ r.Whole d m := by
  obtain ⟨⟨l', h'⟩, hr⟩ := hf.region h hst
  constructor
  · rintro ⟨hin, hout⟩
    refine ⟨fun off hge hoff => ?_, fun i hi h0 => ?_⟩
    · obtain ⟨pde, pte, hw, hrest⟩ := hin off hoff
      exact ⟨pde, pte, ((hf.translatesTo hr hoff).2 hge).symm.trans hw, hrest⟩
    · have hj := pdx_lt (r.va + BitVec.ofNat 32 i * pgsize)
      have hmade := hr.made i hi
      generalize pdx (r.va + BitVec.ofNat 32 i * pgsize) = j at h0 hj hmade
      have hx : pdx (pgaddr 957 j 0) = 957 := pdx_pgaddr (by decide) hj
      have hpt : ptx (pgaddr 957 j 0) = j := ptx_pgaddr (by decide) hj
      have hsame := hout _ (hf.outside_of_uvpt hx)
      rw [h.walk_uvpt hx, h'.walk_uvpt hx, hpt, h0] at hsame
      obtain ⟨t, ht⟩ := Option.ne_none_iff_exists'.mp hmade
      rw [ht] at hsame
      cases hsame
  · rintro ⟨htail, htab⟩
    refine ⟨fun off hoff => ?_, fun x hx => ?_⟩
    · by_cases hlt : off < r.size.toNat / 4096 * 4096
      · exact (hf.translatesTo hr hoff).1 hlt
      · obtain ⟨pde, pte, hw, hrest⟩ := htail off (Nat.not_lt.mp hlt) hoff
        exact ⟨pde, pte, ((hf.translatesTo hr hoff).2 (Nat.not_lt.mp hlt)).trans hw, hrest⟩
    · by_cases hx957 : pdx x = 957
      · have hkept : ∀ j, m'.mem d j = m.mem d j := by
          intro j
          by_cases hj : ∃ i < r.size.toNat / 4096, j = pdx (r.va + BitVec.ofNat 32 i * pgsize)
          · obtain ⟨i, hi, rfl⟩ := hj
            exact hr.slot _ (.inr (htab i hi))
          · exact hr.slot j (.inl fun i hi heq => hj ⟨i, hi, heq⟩)
        rw [h.walk_uvpt hx957, h'.walk_uvpt hx957, hkept, hkept]
      · exact hr.other x hx957 fun i hi => hf.page_ne hx hi

end Calls

section Regions

def stackRegions (M : Machine) : List MapCall :=
  (List.range ncpu).map fun i => ⟨kstack i, kstksize, M.percpuKstacks + BitVec.ofNat 32 i * kstksize, pteW⟩

def kernbaseRegion : MapCall := ⟨kernbase, 0xFFFFFFFF - kernbase, 0, pteW⟩

def memRegions (M : Machine) (pages envs : Word) : List MapCall :=
  [⟨upages, ptsize, pages, pteU⟩, ⟨uenvs, ptsize, envs, pteU⟩,
    ⟨kstacktop - kstksize, kstksize, M.bootstack, pteW⟩] ++ kernbaseRegion :: stackRegions M

variable {M : Machine} {pages envs : Word} {m m' : Phys} {d : Nat} {l : List Nat} {r : MapCall}

theorem mapRegions_eq : mapRegions M d pages envs m =
    (memRegions M pages envs).foldlM (MapCall.run d) m := by
  have hstacks : ∀ m, memInitMp M d m = (stackRegions M).foldlM (MapCall.run d) m := by
    intro m
    rw [stackRegions, List.foldlM_map]
    rfl
  rw [mapRegions, memRegions]
  simp only [hstacks, List.cons_append, List.nil_append, List.foldlM_cons]
  rfl

theorem clear_of_slots {va : Word} {n : Nat} (hva : pgoff va = 0) (hend : va.toNat + 4096 * n ≤ 2 ^ 32)
    (h : va.toNat + 4096 * n ≤ 957 * 4194304 ∨ 958 * 4194304 ≤ va.toNat) : Clear va n := by
  rw [pgoff_eq] at hva
  refine ⟨by rw [Nat.mul_comm]; exact hend, fun i hi => ?_⟩
  rw [pdx_eq, toNat_add_page (by omega)]
  omega

theorem fits_mk {va size pa perm : Word} (hva : pgoff va = 0) (hpa : pgoff pa = 0)
    (hperm : perm.toNat < 4096) (hend : va.toNat + 4096 * ((size.toNat + 4095) / 4096) ≤ 2 ^ 32)
    (h : va.toNat + 4096 * ((size.toNat + 4095) / 4096) ≤ 957 * 4194304 ∨ 958 * 4194304 ≤ va.toNat) :
    MapCall.Fits ⟨va, size, pa, perm⟩ :=
  ⟨hva, hpa, hperm, clear_of_slots hva hend h⟩

theorem fits_kernbase : kernbaseRegion.Fits :=
  fits_mk (by decide) (by decide) (by decide) (by decide) (.inr (by decide))

theorem fits_stack (hr : r ∈ stackRegions M) : r.Fits := by
  obtain ⟨i, hi, rfl⟩ := List.mem_map.mp hr
  have hi := List.mem_range.mp hi
  have h8 : i < 8 := hi
  have hva := toNat_kstack hi
  have hoff : pgoff (kstack i) = 0 := by
    rw [pgoff_eq, hva]
    omega
  refine fits_mk hoff ?_ (by decide) ?_ (.inr ?_)
  · have h := M.percpuKstacks_aligned
    rw [pgoff_eq] at h ⊢
    rw [BitVec.toNat_add, BitVec.toNat_mul, show kstksize.toNat = 32768 from rfl]
    omega
  · rw [hva, show kstksize.toNat = 32768 from rfl]
    omega
  · rw [hva]
    omega

theorem fits_memRegions (hp : pgoff pages = 0) (he : pgoff envs = 0)
    (hr : r ∈ memRegions M pages envs) : r.Fits := by
  rcases List.mem_append.mp hr with hr | hr
  · simp only [List.mem_cons, List.not_mem_nil, or_false] at hr
    rcases hr with rfl | rfl | rfl
    · exact fits_mk (by decide) hp (by decide) (by decide) (.inl (by decide))
    · exact fits_mk (by decide) he (by decide) (by decide) (.inl (by decide))
    · exact fits_mk (by decide) M.bootstack_aligned (by decide) (by decide) (.inr (by decide))
  · rcases List.mem_cons.mp hr with rfl | hr
    · exact fits_kernbase
    · exact fits_stack hr

theorem walk_regions {rs : List MapCall} {x : Word} (h : Dir m d l) (hf : ∀ r ∈ rs, r.Fits)
    (hx : pdx x ≠ 957)
    (hout : ∀ r ∈ rs, ∀ i < r.size.toNat / 4096, x.toNat / 4096 ≠ r.va.toNat / 4096 + i)
    (hst : rs.foldlM (MapCall.run d) m = some m') :
    (∃ l', Dir m' d l') ∧ mmuWalk m' d x = mmuWalk m d x ∧ m'.npages = m.npages := by
  induction rs generalizing m l with
  | nil =>
    cases hst
    exact ⟨⟨l, h⟩, rfl, rfl⟩
  | cons r rs ih =>
    rw [List.foldlM_cons] at hst
    obtain ⟨m₁, h₁, hst⟩ := Option.bind_eq_some_iff.mp hst
    obtain ⟨⟨l₁, hd₁⟩, hr⟩ := (hf r List.mem_cons_self).region h h₁
    obtain ⟨hd', hw, hn⟩ := ih hd₁ (fun r' hr' => hf r' (List.mem_cons_of_mem _ hr'))
      (fun r' hr' => hout r' (List.mem_cons_of_mem _ hr')) hst
    exact ⟨hd', hw.trans (hr.other x hx (hout r List.mem_cons_self)), hn.trans hr.npages⟩

theorem walk_stackRegions {x : Word} (h : Dir m d l) (hx : 0xF0000000 ≤ x.toNat)
    (hst : (stackRegions M).foldlM (MapCall.run d) m = some m') :
    (∃ l', Dir m' d l') ∧ mmuWalk m' d x = mmuWalk m d x ∧ m'.npages = m.npages := by
  refine walk_regions h (fun r => fits_stack) ?_ ?_ hst
  · rw [pdx_eq]
    omega
  · intro r hr i hi
    obtain ⟨c, hc, rfl⟩ := List.mem_map.mp hr
    have hva := toNat_kstack (List.mem_range.mp hc)
    have hc8 : c < 8 := List.mem_range.mp hc
    rw [show kstksize.toNat / 4096 = 8 from rfl] at hi
    rw [hva]
    omega

theorem checkVa2pa_of_walk {x pde pte : Word} (h : Dir m d l) (hx : pdx x ≠ 957)
    (hw : mmuWalk m d x = some (pde, pte)) : checkVa2pa m d x = some (pteAddr pte) := by
  rw [mmuWalk_eq] at hw
  obtain ⟨t, ht, hw⟩ := Option.bind_eq_some_iff.mp hw
  obtain ⟨p, hp, hw⟩ := Option.map_eq_some_iff.mp hw
  obtain ⟨-, rfl⟩ := Prod.mk.inj hw
  rw [checkVa2pa, if_neg (present_eq_some_iff.mp ht).1, h.kaddr_table hx ht, Option.bind_eq_bind,
    Option.bind_some, if_neg (present_eq_some_iff.mp hp).1]
  rfl

/-- `KADDR(pa)` can be dereferenced, and is where `check_va2pa` finds `pa`. -/
def MappedAt (m : Phys) (d : Nat) (pa : Word) : Prop :=
  checkVa2pa m d (kernbase + pa) = some (pteAddr pa) ∧ TranslatesTo m d (kernbase + pa) pa pteW

theorem toNat_kernbase_add {pa : Word} (hpa : pa.toNat < 65536 * 4096) :
    (kernbase + pa).toNat = 0xF0000000 + pa.toNat := by
  rw [BitVec.toNat_add, toNat_kernbase]
  omega

theorem pteAddr_eq (w : Word) : pteAddr w = page2pa (pgnum w) := by
  rw [← pgnum_pteAddr]
  apply eq_page2pa
  rw [pgoff, pteAddr, BitVec.and_assoc]
  exact (BitVec.toNat_and _ _).trans (Nat.and_zero _)

theorem mappedAt_iff {pa : Word} (h : Dir m d l) (hpa : pa.toNat < 65536 * 4096) :
    MappedAt m d pa ↔ TranslatesTo m d (kernbase + pa) pa pteW := by
  have hx := toNat_kernbase_add hpa
  refine ⟨fun hm => hm.2, fun ht => ⟨?_, ht⟩⟩
  obtain ⟨pde, pte, hw, hpte, -⟩ := ht
  rw [checkVa2pa_of_walk h (by rw [pdx_eq, hx]; omega) hw, pteAddr_eq pte, pteAddr_eq pa]
  have hnum : (page2pa (pgnum pte)).toNat = pgnum pte * 4096 := by
    have := pte.isLt
    rw [page2pa, BitVec.toNat_shiftLeft, BitVec.toNat_ofNat, Nat.shiftLeft_eq, pgnum_eq]
    omega
  have hsum := congrArg BitVec.toNat hpte
  rw [pteAddr_eq, BitVec.toNat_add, hnum, BitVec.toNat_ofNat, pgoff_eq, hx, pgnum_eq] at hsum
  have := pte.isLt
  rw [pgnum_eq, pgnum_eq, show pte.toNat / 4096 = pa.toNat / 4096 by omega]

theorem translatesTo_kernbase (h : Dir m d l) (hst : kernbaseRegion.run d m = some m') {pa : Word}
    (hpa : pa.toNat < 65535 * 4096) : TranslatesTo m' d (kernbase + pa) pa pteW := by
  have hlt : pa.toNat < kernbaseRegion.size.toNat := lt_of_lt_of_le hpa (by decide)
  have hfull : pa.toNat < kernbaseRegion.size.toNat / 4096 * 4096 := lt_of_lt_of_le hpa (by decide)
  have hr := (fits_kernbase.region h hst).2
  have ht := (fits_kernbase.translatesTo hr hlt).1 hfull
  rw [BitVec.ofNat_toNat, BitVec.setWidth_eq] at ht
  have hpa0 : kernbaseRegion.pa + pa = pa := BitVec.zero_add pa
  rw [hpa0] at ht
  exact ht

theorem walk_frontRegions {x : Word} (hp : pgoff pages = 0) (he : pgoff envs = 0) (h : Dir m d l)
    (hx : 0xF0000000 ≤ x.toNat)
    (hst : [(⟨upages, ptsize, pages, pteU⟩ : MapCall), ⟨uenvs, ptsize, envs, pteU⟩,
      ⟨kstacktop - kstksize, kstksize, M.bootstack, pteW⟩].foldlM (MapCall.run d) m = some m') :
    (∃ l', Dir m' d l') ∧ mmuWalk m' d x = mmuWalk m d x ∧ m'.npages = m.npages := by
  refine walk_regions h (fun r hr => fits_memRegions (M := M) hp he (List.mem_append_left _ hr))
    (by rw [pdx_eq]; omega) ?_ hst
  intro r hr i hi
  simp only [List.mem_cons, List.not_mem_nil, or_false] at hr
  rcases hr with rfl | rfl | rfl
  · rw [show ptsize.toNat / 4096 = 1024 from rfl] at hi
    rw [show upages.toNat / 4096 = 978944 from rfl]
    omega
  · rw [show ptsize.toNat / 4096 = 1024 from rfl] at hi
    rw [show uenvs.toNat / 4096 = 977920 from rfl]
    omega
  · rw [show kstksize.toNat / 4096 = 8 from rfl] at hi
    rw [show (kstacktop - kstksize).toNat / 4096 = 983032 from rfl]
    omega

theorem mapRegions_walks (hp : pgoff pages = 0) (he : pgoff envs = 0) (h : Dir m d l)
    (hst : mapRegions M d pages envs m = some m') :
    (∃ l', Dir m' d l') ∧ m'.npages = m.npages ∧
      mmuWalk m' d 0xFFFFF000 = mmuWalk m d 0xFFFFF000 ∧
      ∀ pa : Word, pa.toNat < 65535 * 4096 → TranslatesTo m' d (kernbase + pa) pa pteW := by
  rw [mapRegions_eq, memRegions, List.foldlM_append] at hst
  obtain ⟨m₁, h₁, hst⟩ := Option.bind_eq_some_iff.mp hst
  rw [List.foldlM_cons] at hst
  obtain ⟨m₂, h₂, h₃⟩ := Option.bind_eq_some_iff.mp hst
  obtain ⟨⟨l₁, hd₁⟩, hlast₁, hn₁⟩ := walk_frontRegions (x := 0xFFFFF000) hp he h (by decide) h₁
  obtain ⟨⟨l₂, hd₂⟩, hr⟩ := fits_kernbase.region hd₁ h₂
  obtain ⟨hd₃, hlast₃, hn₃⟩ := walk_stackRegions (x := 0xFFFFF000) hd₂ (by decide) h₃
  have hlast₂ := hr.other 0xFFFFF000 (by decide) fun i hi => by
    rw [show kernbaseRegion.size.toNat / 4096 = 65535 from rfl] at hi
    rw [show kernbaseRegion.va.toNat / 4096 = 983040 from rfl,
      show (0xFFFFF000 : Word).toNat / 4096 = 1048575 from rfl]
    omega
  refine ⟨hd₃, hn₃.trans (hr.npages.trans hn₁), hlast₃.trans (hlast₂.trans hlast₁), fun pa hpa => ?_⟩
  obtain ⟨pde, pte, hw, hrest⟩ := translatesTo_kernbase hd₁ h₂ hpa
  have hx : (kernbase + pa).toNat = 0xF0000000 + pa.toNat := toNat_kernbase_add (by omega)
  obtain ⟨-, hwalk, -⟩ := walk_stackRegions (x := kernbase + pa) hd₂ (by omega) h₃
  exact ⟨pde, pte, hwalk.trans hw, hrest⟩

theorem not_mappedAt_last (hw : mmuWalk m d 0xFFFFF000 = none) : ¬ MappedAt m d 0x0FFFF000 := by
  rintro ⟨-, pde, pte, hw', -⟩
  rw [show kernbase + 0x0FFFF000 = 0xFFFFF000 by decide, hw] at hw'
  cases hw'

/-- Physical memory is mapped at `KERNBASE` if it has at most 65535 pages; and of the calls of
`boot_map_region` those for whole pages, with the tables there, map what they should and nothing
else. -/
theorem mapRegions_iff (hp : pgoff pages = 0) (he : pgoff envs = 0) (h : Dir m d l)
    (hlast : mmuWalk m d 0xFFFFF000 = none) (hn : m.npages ≤ 65536)
    (hst : mapRegions M d pages envs m = some m') :
    ((∀ pa p, m'.kaddr pa = some p → MappedAt m' d pa) ↔ m.npages ≤ 65535) ∧
      ∀ r ∈ memRegions M pages envs, ∀ m₁ m₂ l₁, Dir m₁ d l₁ → r.run d m₁ = some m₂ →
        (r.Maps d m₁ m₂ ↔ r.Whole d m₁) := by
  refine ⟨?_, fun r hr m₁ m₂ l₁ h₁ hrun => MapCall.maps_iff (fits_memRegions hp he hr) h₁ hrun⟩
  obtain ⟨⟨l', hd'⟩, hn', hlast', hlow⟩ := mapRegions_walks hp he h hst
  constructor
  · intro hall
    by_contra hgt
    have hk : m'.kaddr 0x0FFFF000 = some (pgnum 0x0FFFF000) := by
      refine kaddr_eq ?_
      rw [hn', show pgnum 0x0FFFF000 = 65535 from rfl]
      omega
    exact not_mappedAt_last (hlast'.trans hlast) (hall _ _ hk)
  · intro hle pa p hpa
    have hlt : pa.toNat < 65535 * 4096 := by
      rw [kaddr] at hpa
      split at hpa
      · cases hpa
      · next hnot =>
          rw [hn', pgnum_eq] at hnot
          omega
    exact (mappedAt_iff hd' (by omega)).mpr (hlow pa hlt)

def bareBoot (n : Nat) (l : List Nat) : Phys :=
  relink ⟨n, fun p i => if p = 384 ∧ i = 957 then page2pa 384 ||| pteU ||| pteP else 0, fun _ => 0,
    fun _ => none, none⟩ l

theorem npages_bareBoot (n : Nat) (l : List Nat) : (bareBoot n l).npages = n := (relink_mem _ _).2.1

theorem mem_bareBoot (n : Nat) (l : List Nat) (i : Nat) : (bareBoot n l).mem 384 i =
    if i = 957 then page2pa 384 ||| pteU ||| pteP else 0 := by
  rw [bareBoot, (relink_mem _ _).1]
  simp

theorem bareBoot_spec {n : Nat} (hn : n ≤ 65536) (hl : l.Nodup) (hlt : ∀ p ∈ l, 384 < p ∧ p < n)
    (hlen : 1024 ≤ l.length) :
    Dir (bareBoot n l) 384 l ∧ mmuWalk (bareBoot n l) 384 0xFFFFF000 = none ∧
      ∃ m', mapRegions demo 384 0 0 (bareBoot n l) = some m' := by
  have hpos : 0 < l.length := by omega
  have h0 := hlt _ (List.getElem_mem hpos)
  let s : Setup :=
    { npages := n, kern := 384, pages := l, mmio := 3, npages_le := hn
      lt := fun hp => (hlt _ hp).2
      kern_lt := h0.1.trans h0.2
      kern_notMem := fun hp => Nat.lt_irrefl _ (hlt _ hp).1 }
  have hmap : BootMap s (bareBoot n l) l := by
    refine BootMap.empty (s := s) (npages_bareBoot n l) (relink_chain _ hl) (fun hp => ?_)
      (fun _ => ?_) (fun i hi => (mem_bareBoot n l i).trans (if_neg hi)) ?_
    · exact relink_link _ hp
    · rw [bareBoot, (relink_mem _ _).2.2]
    · rw [show s.kern = 384 from rfl, mem_bareBoot, if_pos rfl]
      decide
  refine ⟨hmap.dir, mmuWalk_of_none ?_, ?_⟩
  · rw [mem_bareBoot, if_neg (by decide), present_zero]
  · have hslots : slots (bareBoot n l) s.kern ≤ l.length := (slots_le _ _).trans hlen
    have h0 : pgoff 0 = 0 := by decide
    have hsome := hmap.mapRegions_some (M := demo) h0 h0 hslots
    exact hsome

theorem exists_freePages : ∃ l : List Nat, l.Nodup ∧ (∀ p ∈ l, 384 < p ∧ p < 4096) ∧ 1024 ≤ l.length := by
  refine ⟨List.range' 1024 1024, List.nodup_range', fun p hp => ?_, (List.length_range').ge⟩
  have := List.mem_range'_1.mp hp
  omega

theorem mapRegions_iff_small : ∃ l m', mapRegions demo 384 0 0 (bareBoot 4096 l) = some m' ∧
    ∀ pa p, m'.kaddr pa = some p → MappedAt m' 384 pa := by
  obtain ⟨l, hl, hlt, hlen⟩ := exists_freePages
  obtain ⟨hd, hlast, m', hm'⟩ := bareBoot_spec (by decide) hl hlt hlen
  refine ⟨l, m', hm', (mapRegions_iff (by decide) (by decide) hd hlast ?_ hm').1.mpr ?_⟩
  · rw [npages_bareBoot]
    decide
  · rw [npages_bareBoot]
    decide

/-- Of 256 megabytes the last page is not: the size given to `boot_map_region` is one byte short
of it. -/
theorem last_page_unmapped : ∃ l m', mapRegions demo 384 0 0 (bareBoot 65536 l) = some m' ∧
    m'.kaddr 0x0FFFF000 = some 65535 ∧ ¬ MappedAt m' 384 0x0FFFF000 := by
  obtain ⟨l, hl, hlt, hlen⟩ := exists_freePages
  obtain ⟨hd, hlast, m', hm'⟩ := bareBoot_spec (n := 65536) (by decide) hl
    (fun p hp => ⟨(hlt p hp).1, (hlt p hp).2.trans (by decide)⟩) hlen
  obtain ⟨-, hn, hlast', -⟩ := mapRegions_walks (by decide) (by decide) hd hm'
  refine ⟨l, m', hm', ?_, not_mappedAt_last (hlast'.trans hlast)⟩
  refine kaddr_eq ?_
  rw [hn, npages_bareBoot]
  decide

end Regions

end Jos.Kern
