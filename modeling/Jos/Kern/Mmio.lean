import Jos.Kern.MemMap
import Jos.Lib.Run

/-! The reservations of `mmio_map_region`. -/

namespace Jos.Kern

open Lib Phys

structure Reservation where
  addr : Word
  pa : Word
  size : Word

structure Mmio where
  phys : Phys
  base : Word
  regions : List Reservation

def mmioStep (d : Nat) (s : Mmio) (r : Word × Word) : Option Mmio := do
  let (m, base) ← mmioMapRegion d (s.phys, s.base) r
  return ⟨m, base, ⟨s.base, r.1, r.2⟩ :: s.regions⟩

namespace Reservation

def Apart (r r' : Reservation) : Prop :=
  r.addr.toNat + r.size.toNat ≤ r'.addr.toNat ∨ r'.addr.toNat + r'.size.toNat ≤ r.addr.toNat

def Inside (r : Reservation) : Prop :=
  mmiobase.toNat ≤ r.addr.toNat ∧ r.addr.toNat + r.size.toNat ≤ mmiolim.toNat

def Mapped (r : Reservation) (d : Nat) (m : Phys) : Prop :=
  ∀ i < r.size.toNat, TranslatesTo m d (r.addr + BitVec.ofNat 32 i) (r.pa + BitVec.ofNat 32 i)
    (ptePCD ||| ptePWT ||| pteW)

end Reservation

/-- The addresses outside `[MMIOBASE, MMIOLIM)` are translated alike. -/
def SameOutside (d : Nat) (m m' : Phys) : Prop :=
  ∀ x : Word, x.toNat < mmiobase.toNat ∨ mmiolim.toNat ≤ x.toNat → mmuWalk m' d x = mmuWalk m d x

structure Reserved (d : Nat) (m₀ : Phys) (s : Mmio) : Prop where
  apart : s.regions.Pairwise Reservation.Apart
  inside : ∀ r ∈ s.regions, r.Inside
  mapped : ∀ r ∈ s.regions, r.Mapped d s.phys
  outside : SameOutside d m₀ s.phys

structure MmioCall (d : Nat) (s : Mmio) (r : Word × Word) : Prop where
  aligned : r.2 = 0 ∨ pgoff r.1 = 0
  size_lt : r.2.toNat + 4095 < 2 ^ 32
  end_lt : s.base.toNat + (r.2.toNat + 4095) / 4096 * 4096 < 2 ^ 32
  table : r.2 = 0 ∨ present (s.phys.mem d (pdx mmiobase)) ≠ none

structure MmioInv (d : Nat) (m₀ : Phys) (s : Mmio) : Prop extends Reserved d m₀ s where
  dir : ∃ l, Dir s.phys d l
  base_aligned : pgoff s.base = 0
  ge : mmiobase.toNat ≤ s.base.toNat
  lt : s.base.toNat < mmiolim.toNat
  below : ∀ r ∈ s.regions, r.addr.toNat + r.size.toNat ≤ s.base.toNat

variable {d : Nat} {m₀ : Phys} {s s' : Mmio} {r : Word × Word} {l : List Nat}

theorem toNat_mmiobase : mmiobase.toNat = 958 * 4194304 := by decide

theorem toNat_mmiolim : mmiolim.toNat = 959 * 4194304 := by decide

namespace MmioCall

theorem toNat_roundUp (hc : MmioCall d s r) :
    (roundUp r.2 pgsize).toNat = (r.2.toNat + 4095) / 4096 * 4096 := by
  rw [Kern.toNat_roundUp, Nat.mod_eq_of_lt hc.size_lt]

theorem toNat_end (hc : MmioCall d s r) :
    (roundUp r.2 pgsize + s.base).toNat = s.base.toNat + (r.2.toNat + 4095) / 4096 * 4096 := by
  have := hc.end_lt
  rw [BitVec.toNat_add, hc.toNat_roundUp]
  omega

theorem roundDown_eq (h : pgoff r.1 = 0) : roundDown r.1 pgsize = r.1 := by
  apply BitVec.eq_of_toNat_eq
  rw [pgoff_eq] at h
  rw [toNat_roundDown]
  omega

theorem panics (hc : MmioCall d s r) (h : mmiolim.toNat < s.base.toNat + r.2.toNat) :
    mmioStep d s r = none := by
  have hle : mmiolim ≤ roundUp r.2 pgsize + s.base := by
    rw [BitVec.le_def, hc.toNat_end]
    omega
  rw [mmioStep, mmioMapRegion, if_pos hle]
  rfl

end MmioCall

theorem mmioStep_eq_some (hst : mmioStep d s r = some s') :
    ¬ mmiolim ≤ roundUp r.2 pgsize + s.base ∧
      MapCall.run d s.phys
        ⟨s.base, roundUp r.2 pgsize, roundDown r.1 pgsize, ptePCD ||| ptePWT ||| pteW⟩ = some s'.phys ∧
      s'.base = s.base + roundUp r.2 pgsize ∧ s'.regions = ⟨s.base, r.1, r.2⟩ :: s.regions := by
  rw [mmioStep, mmioMapRegion] at hst
  split at hst
  · cases hst
  · next hlim =>
    obtain ⟨⟨m, base⟩, hm, hst⟩ := Option.bind_eq_some_iff.mp hst
    obtain ⟨m₁, hm₁, hm⟩ := Option.bind_eq_some_iff.mp hm
    obtain ⟨rfl, rfl⟩ := Prod.mk.inj (Option.some.inj hm)
    obtain rfl := Option.some.inj hst
    exact ⟨hlim, hm₁, rfl, rfl⟩

namespace MmioInv

theorem start (h : Dir m₀ d l) : MmioInv d m₀ ⟨m₀, mmiobase, []⟩ where
  apart := .nil
  inside _ hr := absurd hr (List.not_mem_nil)
  mapped _ hr := absurd hr (List.not_mem_nil)
  outside _ _ := rfl
  dir := ⟨l, h⟩
  base_aligned := show pgoff mmiobase = 0 by decide
  ge := Nat.le_refl _
  lt := show mmiobase.toNat < mmiolim.toNat by decide
  below _ hr := absurd hr (List.not_mem_nil)

theorem end_lt (hc : MmioCall d s r) (hst : mmioStep d s r = some s') :
    s.base.toNat + (r.2.toNat + 4095) / 4096 * 4096 < mmiolim.toNat := by
  have hlim := (mmioStep_eq_some hst).1
  rw [BitVec.le_def, hc.toNat_end] at hlim
  omega

theorem toNat_base (hc : MmioCall d s r) (hst : mmioStep d s r = some s') :
    s'.base.toNat = s.base.toNat + (r.2.toNat + 4095) / 4096 * 4096 := by
  rw [(mmioStep_eq_some hst).2.2.1, BitVec.add_comm, hc.toNat_end]

theorem fits (h : MmioInv d m₀ s) (hc : MmioCall d s r) (hst : mmioStep d s r = some s') :
    MapCall.Fits ⟨s.base, roundUp r.2 pgsize, roundDown r.1 pgsize,
      ptePCD ||| ptePWT ||| pteW⟩ := by
  have hend := end_lt hc hst
  have hge := h.ge
  rw [toNat_mmiobase] at hge
  rw [toNat_mmiolim] at hend
  refine fits_mk h.base_aligned ?_ (by decide) ?_ (.inr hge)
  · rw [pgoff_eq, toNat_roundDown]
    omega
  · rw [hc.toNat_roundUp]
    omega

theorem slot (h : MmioInv d m₀ s) (hc : MmioCall d s r) (hst : mmioStep d s r = some s') {i : Nat}
    (hi : i < (r.2.toNat + 4095) / 4096) :
    pdx (s.base + BitVec.ofNat 32 i * pgsize) = pdx mmiobase := by
  have hend := end_lt hc hst
  have hge := h.ge
  rw [toNat_mmiobase] at hge
  rw [toNat_mmiolim] at hend
  generalize (r.2.toNat + 4095) / 4096 = n at hi hend
  have hlt : s.base.toNat + i * 4096 < 959 * 4194304 :=
    Nat.lt_of_le_of_lt (Nat.add_le_add_left (Nat.mul_le_mul_right _ hi.le) _) hend
  rw [pdx_eq, pdx_eq, toNat_add_page (hlt.trans (by decide)), toNat_mmiobase]
  omega

theorem maps (h : MmioInv d m₀ s) (hc : MmioCall d s r) (hst : mmioStep d s r = some s') :
    (∃ l', Dir s'.phys d l') ∧
      MapCall.Maps ⟨s.base, roundUp r.2 pgsize, roundDown r.1 pgsize, ptePCD ||| ptePWT ||| pteW⟩
        d s.phys s'.phys := by
  obtain ⟨l, hd⟩ := h.dir
  have hf := h.fits hc hst
  have hrun := (mmioStep_eq_some hst).2.1
  refine ⟨(hf.region hd hrun).1, (MapCall.maps_iff hf hd hrun).mpr ⟨fun off hge hlt => ?_, fun i hi => ?_⟩⟩
  · rw [BootMap.pages_roundUp] at hge
    exact absurd hlt (Nat.not_lt.mpr hge)
  · dsimp only at hi
    rw [hc.toNat_roundUp, Nat.mul_div_cancel _ (by decide)] at hi
    rw [h.slot hc hst hi]
    refine hc.table.resolve_left fun h0 => ?_
    rw [h0] at hi
    exact Nat.not_lt_zero _ hi

theorem mapped_new (h : MmioInv d m₀ s) (hc : MmioCall d s r) (hst : mmioStep d s r = some s') :
    Reservation.Mapped ⟨s.base, r.1, r.2⟩ d s'.phys := by
  intro i hi
  have hpa : pgoff r.1 = 0 := hc.aligned.resolve_left fun h0 => by
    rw [h0] at hi
    exact Nat.not_lt_zero _ hi
  have hlt : i < (roundUp r.2 pgsize).toNat := by
    rw [hc.toNat_roundUp]
    dsimp only at hi
    omega
  have ht := (h.maps hc hst).2.1 i hlt
  rw [MmioCall.roundDown_eq hpa] at ht
  exact ht

theorem walk_kept (h : MmioInv d m₀ s) (hc : MmioCall d s r) (hst : mmioStep d s r = some s')
    {x : Word} (hx : x.toNat < s.base.toNat ∨ mmiolim.toNat ≤ x.toNat) :
    mmuWalk s'.phys d x = mmuWalk s.phys d x := by
  refine (h.maps hc hst).2.2 x (hx.imp id fun hge => ?_)
  have := end_lt hc hst
  dsimp only
  rw [hc.toNat_roundUp]
  omega

theorem mapped_old (h : MmioInv d m₀ s) (hc : MmioCall d s r) (hst : mmioStep d s r = some s')
    {q : Reservation} (hq : q ∈ s.regions) : q.Mapped d s'.phys := by
  intro i hi
  obtain ⟨pde, pte, hw, hrest⟩ := h.mapped q hq i hi
  refine ⟨pde, pte, (h.walk_kept hc hst (.inl ?_)).trans hw, hrest⟩
  have := h.below q hq
  have := h.lt
  rw [toNat_mmiolim] at this
  rw [BitVec.toNat_add, BitVec.toNat_ofNat]
  omega

theorem step (h : MmioInv d m₀ s) (hc : MmioCall d s r) (hst : mmioStep d s r = some s') :
    MmioInv d m₀ s' := by
  have hend := end_lt hc hst
  have hbase := toNat_base hc hst
  have hge := h.ge
  obtain ⟨-, -, -, hregions⟩ := mmioStep_eq_some hst
  have hfits : r.2.toNat ≤ (r.2.toNat + 4095) / 4096 * 4096 := by omega
  have hall : ∀ {P : Reservation → Prop}, P ⟨s.base, r.1, r.2⟩ → (∀ q ∈ s.regions, P q) →
      ∀ q ∈ s'.regions, P q := by
    intro P hnew hold
    rw [hregions]
    exact List.forall_mem_cons.mpr ⟨hnew, hold⟩
  refine ⟨⟨?_, hall ?_ h.inside, hall (h.mapped_new hc hst) fun q => h.mapped_old hc hst,
    fun x hx => ?_⟩, (h.maps hc hst).1, ?_, ?_, ?_, hall ?_ fun q hq => ?_⟩
  · rw [hregions]
    exact List.pairwise_cons.mpr ⟨fun q hq => .inr (h.below q hq), h.apart⟩
  · exact ⟨hge, by dsimp only; omega⟩
  · rw [h.walk_kept hc hst (hx.imp (fun hlt => by omega) id)]
    exact h.outside x hx
  · have hal := h.base_aligned
    rw [pgoff_eq] at hal ⊢
    rw [hbase]
    omega
  · omega
  · omega
  · dsimp only
    omega
  · have := h.below q hq
    omega

end MmioInv

def deviceMem : Phys :=
  ⟨4096, fun p i => if p = 384 ∧ i = 957 then page2pa 384 ||| pteU ||| pteP
    else if p = 384 ∧ i = 958 then page2pa 385 ||| pteW ||| pteP else 0, fun _ => 0, fun _ => none, none⟩

theorem present_deviceMem {i t : Nat} (hi : i ≠ 957) (ht : present (deviceMem.mem 384 i) = some t) :
    i = 958 ∧ t = 385 := by
  have hmem : deviceMem.mem 384 i = if i = 958 then page2pa 385 ||| pteW ||| pteP else 0 := by
    simp [deviceMem, hi]
  rw [hmem] at ht
  split at ht
  · next h958 => exact ⟨h958, (Option.some.inj ht).symm⟩
  · rw [present_zero] at ht
    cases ht

theorem dir_deviceMem : Dir deviceMem 384 [] where
  npages_le := by decide
  chain := .nil
  free_lt hp := absurd hp List.not_mem_nil
  notMem := List.not_mem_nil
  uvpt := by decide
  table {i t} _ hne ht := by
    obtain ⟨-, rfl⟩ := present_deviceMem hne ht
    exact ⟨by decide, List.not_mem_nil, by decide⟩
  inj {i i' t} _ _ hne hne' ht ht' := by
    rw [(present_deviceMem hne ht).1, (present_deviceMem hne' ht').1]

end Jos.Kern
