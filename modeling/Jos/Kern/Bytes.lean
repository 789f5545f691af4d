import Jos.Kern.WriteSpec

/-! Bytes of physical pages, and reading back what was copied to user memory. -/

namespace Jos.Kern

open Phys

theorem loadByte_congr {m m' : Phys} {p : Nat} (h : m'.mem p = m.mem p) (off : Nat) :
    m'.loadByte p off = m.loadByte p off := by
  rw [loadByte, loadByte, h]

theorem getLsbD_ff (i : Nat) : (0xFF : Word).getLsbD i = decide (i < 8) := by
  have h : (0xFF : Word) = (BitVec.allOnes 8).setWidth 32 := by decide
  rw [h, BitVec.getLsbD_setWidth, BitVec.getLsbD_allOnes]
  by_cases hi : i < 8
  · simp [hi]; omega
  · simp [hi]

theorem loadByte_storeByte (m : Phys) (p off off' : Nat) (v : Byte) :
    (m.storeByte p off v).loadByte p off' = if off' = off then v else m.loadByte p off' := by
  rw [loadByte, storeByte_mem]
  by_cases hw : off' / 4 = off / 4
  · rw [if_pos hw]
    apply BitVec.eq_of_getLsbD_eq
    intro i hi
    simp only [BitVec.getLsbD_setWidth, BitVec.getLsbD_ushiftRight, BitVec.getLsbD_or,
      BitVec.getLsbD_and, BitVec.getLsbD_not, BitVec.getLsbD_shiftLeft, getLsbD_ff]
    have hr : off' % 4 < 4 := Nat.mod_lt _ (by decide)
    by_cases ho : off' = off
    · subst ho
      have h1 : 8 * (off' % 4) + i < 32 := by omega
      have h2 : i < 32 := by omega
      simp [hi, h1, h2]
    · have hne : off' % 4 ≠ off % 4 := by omega
      have h1 : 8 * (off' % 4) + i < 32 := by omega
      rw [if_neg ho, loadByte]
      simp only [BitVec.getLsbD_setWidth, BitVec.getLsbD_ushiftRight]
      by_cases hlt : 8 * (off' % 4) + i < 8 * (off % 4)
      · simp [hi, h1, hlt]
      · have h3 : ¬ 8 * (off' % 4) + i - 8 * (off % 4) < 8 := by omega
        have h4 : v.getLsbD (8 * (off' % 4) + i - 8 * (off % 4)) = false :=
          BitVec.getLsbD_of_ge _ _ (by omega)
        simp [hi, h1, hlt, h3, h4]
  · rw [if_neg hw, if_neg (fun h => hw (by rw [h])), loadByte]

theorem loadByte_storeByte_of_ne (m : Phys) {p q off off' : Nat} (v : Byte)
    (h : q ≠ p ∨ off' ≠ off) : (m.storeByte p off v).loadByte q off' = m.loadByte q off' := by
  by_cases hq : q = p
  · subst hq
    rw [loadByte_storeByte, if_neg (h.resolve_left (by simp))]
  · exact loadByte_congr (mem_store_of_ne m _ _ hq) off'

structure SameTables (m m' : Phys) (cr3 : Nat) : Prop where
  dir : m'.mem cr3 = m.mem cr3
  table : ∀ j, m'.mem (pgnum (m.mem cr3 j)) = m.mem (pgnum (m.mem cr3 j))

namespace SameTables

variable {m m' m'' : Phys} {cr3 : Nat}

theorem refl : SameTables m m cr3 := ⟨rfl, fun _ => rfl⟩

theorem trans (h : SameTables m m' cr3) (h' : SameTables m' m'' cr3) : SameTables m m'' cr3 where
  dir := h'.dir.trans h.dir
  table j := by
    have hj := h'.table j
    rw [h.dir] at hj
    exact hj.trans (h.table j)

theorem translate (h : SameTables m m' cr3) (va flags : Word) :
    translate m' cr3 va flags = translate m cr3 va flags := by
  have hwalk : mmuWalk m' cr3 va = mmuWalk m cr3 va := by
    rw [mmuWalk, mmuWalk, h.dir]
    dsimp only
    rw [h.table]
  rw [Kern.translate, Kern.translate, hwalk]

theorem storeByte {p off : Nat} {b : Byte} (hdir : p ≠ cr3)
    (htable : ∀ j, pgnum (m.mem cr3 j) ≠ p) : SameTables m (m.storeByte p off b) cr3 where
  dir := mem_store_of_ne m _ _ hdir.symm
  table j := mem_store_of_ne m _ _ (htable j)

end SameTables

def Apart (m : Phys) (cr3 : Nat) (va : Word) (n : Nat) : Prop :=
  ∀ i < n, ∀ p, translate m cr3 (va + BitVec.ofNat 32 i) pteW = some p →
    p < m.npages ∧ p ≠ cr3 ∧ ∀ j, pgnum (m.mem cr3 j) ≠ p

theorem translate_zero {m : Phys} {cr3 p : Nat} {va flags : Word}
    (h : translate m cr3 va flags = some p) : translate m cr3 va 0 = some p := by
  rw [translate] at h ⊢
  split at h
  · cases h
  · split at h
    · simpa using h
    · cases h

theorem pgoff_add_ofNat (va : Word) (i : Nat) :
    pgoff (va + BitVec.ofNat 32 i) = (pgoff va + i) % 4096 := by
  rw [pgoff_eq, pgoff_eq, BitVec.toNat_add, BitVec.toNat_ofNat]
  omega

theorem add_one_add (va : Word) (i : Nat) :
    va + 1 + BitVec.ofNat 32 i = va + BitVec.ofNat 32 (i + 1) := by
  rw [BitVec.ofNat_add, BitVec.add_assoc, BitVec.add_comm (BitVec.ofNat 32 i)]
  rfl

structure CopiedOut (m m' : Phys) (cr3 : Nat) (va : Word) (bs : List Byte) : Prop where
  npages : m'.npages = m.npages
  tables : SameTables m m' cr3
  other : ∀ p off, (∀ i < bs.length, pgoff (va + BitVec.ofNat 32 i) ≠ off) →
    m'.loadByte p off = m.loadByte p off
  back : copyIn m' cr3 bs.length va = (bs, false)

theorem copyOut_back {m m' : Phys} {cr3 : Nat} {bs : List Byte} {va : Word}
    (hA : Apart m cr3 va bs.length) (hlen : bs.length ≤ 4096)
    (h : copyOut cr3 m bs va = (m', false)) : CopiedOut m m' cr3 va bs := by
  induction bs generalizing m va with
  | nil =>
    cases h
    exact ⟨rfl, .refl, fun _ _ _ => rfl, rfl⟩
  | cons b bs ih =>
    rw [copyOut, mmuStore] at h
    cases htr : translate m cr3 va pteW with
    | none =>
      rw [htr] at h
      cases h
    | some p =>
      rw [List.length_cons] at hA hlen
      obtain ⟨hp, hdir, htab⟩ := hA 0 (Nat.succ_pos _) p (by simpa using htr)
      rw [htr] at h
      simp only [Option.map_some, if_pos hp] at h
      have hsame : SameTables m (m.storeByte p (pgoff va) b) cr3 := .storeByte hdir htab
      have hrest : CopiedOut (m.storeByte p (pgoff va) b) m' cr3 (va + 1) bs := by
        refine ih (fun i hi q hq => ?_) (by omega) h
        rw [hsame.translate, add_one_add] at hq
        obtain ⟨h1, h2, h3⟩ := hA (i + 1) (by omega) q hq
        refine ⟨h1, h2, fun j => ?_⟩
        rw [hsame.dir]
        exact h3 j
      have hback : m'.loadByte p (pgoff va) = b := by
        rw [hrest.other p (pgoff va), loadByte_storeByte, if_pos rfl]
        intro i hi
        have := pgoff_lt va
        rw [add_one_add, pgoff_add_ofNat]
        omega
      refine ⟨hrest.npages, hsame.trans hrest.tables, fun q off hq => ?_, ?_⟩
      · rw [hrest.other q off fun i hi => ?_, loadByte_storeByte_of_ne]
        · have h0 := hq 0 (by simp)
          rw [BitVec.add_zero] at h0
          exact .inr h0.symm
        · rw [add_one_add]
          exact hq (i + 1) (by simpa using hi)
      · have hload : mmuLoad m' cr3 va 0 = some b := by
          rw [mmuLoad, (hsame.trans hrest.tables).translate, translate_zero htr, Option.map_some, hback]
        rw [List.length_cons, copyIn, hload, hrest.back]

end Jos.Kern
