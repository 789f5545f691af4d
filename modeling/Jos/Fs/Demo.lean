import Mathlib.Order.Interval.Finset.Nat
import Jos.Fs.Contents

/-! A small disk: one block for the root directory, with one file in it. -/

namespace Jos.Fs.Demo

open Kern Lib

/-- The words of the disk.  The super block and the root directory are in block 1, the bitmap
in block 2, and in block 3 the structure of the file `a`, which has no blocks. -/
def word (n bits size : Word) (k : Nat) : Word :=
  if k = 1024 then fsMagic
  else if k = 1025 then n
  else if k = 1058 then 4096
  else if k = 1059 then ftypeDir
  else if k = 1060 then 3
  else if k = 2048 then bits
  else if k = 3072 then 0x61
  else if k = 3104 then size
  else 0

def image (n bits size : Word) : Lib.Image := fun x => byteAt (word n bits size (x / 4)) (x % 4)

def cache (n bits size : Word) : Cache where
  pte b := if b < 32 then pteP ||| pteU ||| pteW else 0
  mem := image n bits size
  disk := image n bits size
  super := true
  bitmap := true
  pages := 0
  history := []

def file : Nat := 12288

variable {n bits size : Word} {a b f i j k : Nat}

theorem word_image (ha : a % 4 = 0) : (image n bits size).word a = word n bits size (a / 4) := by
  have h : ∀ y, y < 4 → image n bits size (a + y) = byteAt (word n bits size (a / 4)) y := by
    intro y hy
    rw [image, show (a + y) / 4 = a / 4 by omega, show (a + y) % 4 = y by omega]
  have h0 : image n bits size a = byteAt (word n bits size (a / 4)) 0 := h 0 (by decide)
  rw [Lib.Image.word, h 3 (by decide), h 2 (by decide), h 1 (by decide), h0,
    Lib.Image.append_bytes]

theorem mapped_cache (hb : b < 32) : (cache n bits size).Mapped b := by
  have h : (cache n bits size).pte b = pteP ||| pteU ||| pteW := if_pos hb
  rw [Cache.Mapped, h]
  decide

theorem view_cache : (cache n bits size).view = image n bits size := by
  funext a
  rw [Cache.view]
  split <;> rfl

theorem nblocks_image : nblocksOf (image n bits size) = n.toNat := by
  rw [nblocksOf, word_image (by decide)]
  rfl

theorem freeBit_image (hb : b < 32) : freeBit (image n bits size) b = bits.getLsbD b := by
  rw [freeBit, Nat.div_eq_of_lt hb, Nat.mod_eq_of_lt hb, word_image (by decide)]
  rfl

theorem word_zero (h : 1060 < k ∧ k < 2048 ∨ 3072 < k ∧ k ≠ 3104) : word n bits size k = 0 := by
  rw [word, if_neg (by omega), if_neg (by omega), if_neg (by omega), if_neg (by omega),
    if_neg (by omega), if_neg (by omega), if_neg (by omega), if_neg (by omega)]

theorem field_zero {y : Nat} (hj : j < 16) (hy : y < 256) (hy4 : y % 4 = 0) (hy' : 132 ≤ y) :
    (image n bits size).word (12288 + 256 * j + y) = 0 := by
  rw [word_image (by omega)]
  exact word_zero (by omega)

theorem ptr_root (hb : ptrAt (image n bits size) (4240 + 4 * i) = some b) (hi : i ≤ 10) :
    i = 0 ∧ b = 3 := by
  obtain ⟨hne, hb⟩ := ptrAt_eq_some.1 hb
  rw [word_image (by omega)] at hne hb
  by_cases h0 : i = 0
  · subst h0
    exact ⟨rfl, hb.symm⟩
  · exact absurd (word_zero (by omega)) hne

theorem ptr_field {y : Nat} (hj : j < 16) (hy : y < 256) (hy4 : y % 4 = 0) (hy' : 132 ≤ y) :
    ptrAt (image n bits size) (12288 + 256 * j + y) = none :=
  ptrAt_eq_none.2 (field_zero hj hy hy4 hy')

theorem block_root (hb : blockOf (image n bits size) sRoot i = some b) : i = 0 ∧ b = 3 := by
  obtain ⟨a, ha, hab⟩ := blockOf_eq_some.1 hb
  obtain ⟨hi, rfl⟩ | ⟨c, hc, -⟩ := slot_cases ha
  · exact ptr_root hab (by omega)
  · have := ptr_root (i := 10) hc (by decide)
    omega

theorem node_cases (hf : Node (image n bits size) f) :
    f = sRoot ∨ ∃ j, j < 16 ∧ f = 12288 + 256 * j := by
  induction hf with
  | root => exact .inl rfl
  | @entry d i b j hd htype hb hj ih =>
    obtain rfl | ⟨j', hj', rfl⟩ := ih
    · obtain ⟨rfl, rfl⟩ := block_root hb
      exact .inr ⟨j, hj, rfl⟩
    · rw [fType, field_zero hj' (by decide) (by decide) (by decide)] at htype
      exact absurd htype (by decide)

theorem block_cases (hf : Node (image n bits size) f)
    (hb : blockOf (image n bits size) f i = some b) : f = sRoot ∧ i = 0 ∧ b = 3 := by
  obtain rfl | ⟨j, hj, rfl⟩ := node_cases hf
  · exact ⟨rfl, block_root hb⟩
  · obtain ⟨a, ha, hab⟩ := blockOf_eq_some.1 hb
    obtain ⟨hi, rfl⟩ | ⟨c, hc, -⟩ := slot_cases ha
    · rw [Nat.add_assoc, ptr_field hj (by omega) (by omega) (by omega)] at hab
      cases hab
    · rw [fIndirect, ptr_field hj (by decide) (by decide) (by decide)] at hc
      cases hc

theorem ptr_place (ha : Place (image n bits size) a) (hb : ptrAt (image n bits size) a = some b) :
    a = 4240 ∧ b = 3 := by
  cases ha with
  | indirect hf =>
    obtain rfl | ⟨j, hj, rfl⟩ := node_cases hf
    · have := ptr_root (i := 10) hb (by decide)
      omega
    · rw [fIndirect, ptr_field hj (by decide) (by decide) (by decide)] at hb
      cases hb
  | slot hf hs =>
    obtain ⟨rfl, rfl, rfl⟩ := block_cases hf (blockOf_eq_some.2 ⟨a, hs, hb⟩)
    cases hs
    exact ⟨rfl, rfl⟩

theorem ptr_first : ptrAt (image n bits size) 4240 = some 3 := by
  rw [ptrAt, word_image (by decide)]
  rfl

theorem node_root : Node (image n bits size) sRoot := .root

theorem type_root : (image n bits size).word (fType sRoot) = ftypeDir := word_image (by decide)

theorem size_root : (image n bits size).word (fSize sRoot) = 4096 := word_image (by decide)

theorem node_file : Node (image n bits size) file :=
  .entry (i := 0) (j := 0) .root type_root (blockOf_eq_some.2 ⟨4240, rfl, ptr_first⟩) (by decide)

theorem size_file : (image n bits size).word (fSize file) = size := word_image (by decide)

theorem type_file : (image n bits size).word (fType file) = 0 := word_image (by decide)

theorem block_file : blockOf (image n bits size) file i = none := by
  cases hb : blockOf (image n bits size) file i with
  | none => rfl
  | some b => exact absurd (block_cases node_file hb).1 (by decide)

theorem node_cache : Node (cache n bits size).view file := view_cache ▸ node_file

theorem type_cache : (cache n bits size).view.word (fType file) ≠ ftypeDir := by
  rw [view_cache, type_file]
  decide

theorem sized (hs : size.toNat ≤ maxfilesize) : Sized (image n bits size) := by
  intro f hf
  obtain rfl | ⟨j, hj, rfl⟩ := node_cases hf
  · rw [size_root]
    decide
  · rw [fSize, word_image (by omega)]
    by_cases hj0 : j = 0
    · subst hj0
      exact hs
    · rw [word_zero (by omega)]
      exact Nat.zero_le _

theorem tidy : Tidy (image n bits size) := by
  intro f hf htype
  obtain rfl | ⟨j, hj, rfl⟩ := node_cases hf
  · rw [size_root]
    rfl
  · rw [fType, field_zero hj (by decide) (by decide) (by decide)] at htype
    exact absurd htype (by decide)

structure Fits (n bits : Word) : Prop where
  lo : 3 < n.toNat
  hi : n.toNat ≤ 32
  free : ∀ b, b < n.toNat → bits.getLsbD b = decide (4 ≤ b)

namespace Fits

variable (h : Fits n bits)
include h

theorem bitmapEnd_eq : bitmapEnd n.toNat = 3 := by
  have := h.lo
  have := h.hi
  rw [bitmapEnd]
  omega

theorem freeBit_eq (hb : b < n.toNat) : freeBit (image n bits size) b = decide (4 ≤ b) := by
  have := h.hi
  rw [freeBit_image (by omega), h.free b hb]

theorem freeCount_eq : freeCount (image n bits size) = n.toNat - 4 := by
  have hfilter : (Finset.range n.toNat).filter (fun b => freeBit (image n bits size) b = true) =
      Finset.Ico 4 n.toNat := by
    ext b
    rw [Finset.mem_filter, Finset.mem_range, Finset.mem_Ico]
    constructor
    · rintro ⟨hlt, hb⟩
      rw [h.freeBit_eq hlt] at hb
      exact ⟨of_decide_eq_true hb, hlt⟩
    · rintro ⟨hb, hlt⟩
      rw [h.freeBit_eq hlt]
      exact ⟨hlt, decide_eq_true hb⟩
  rw [freeCount, nblocks_image, hfilter, Nat.card_Ico]

theorem owned : Owned (image n bits size) where
  balanced := by
    have hlo := h.lo
    rw [nblocks_image, h.bitmapEnd_eq]
    refine ⟨fun ha hb => ?_, fun ha ha' hb hb' => ?_, fun {b} hb => ?_⟩
    · obtain ⟨rfl, rfl⟩ := ptr_place ha hb
      exact ⟨⟨hlo, h.freeBit_eq hlo⟩, Nat.lt_irrefl 3⟩
    · exact (ptr_place ha hb).1.trans (ptr_place ha' hb').1.symm
    · obtain ⟨hlt, hb⟩ := hb
      rw [h.freeBit_eq hlt, decide_eq_false_iff_not] at hb
      obtain h3 | rfl := Nat.lt_succ_iff_lt_or_eq.1 (Nat.not_le.1 hb)
      · exact .inl h3
      · exact .inr ⟨4240, .slot (i := 0) .root rfl, ptr_first⟩
  fits hf hb := by
    obtain ⟨rfl, rfl, rfl⟩ := block_cases hf hb
    rw [size_root]
    decide

theorem mounted : (cache n bits size).Mounted where
  super := rfl
  bitmap := rfl
  mapped := mapped_cache (by decide)
  two_lt := by
    have := h.lo
    rw [view_cache, nblocks_image]
    omega
  le_disksize := by
    have := h.hi
    rw [view_cache, nblocks_image, blksize, disksize]
    omega
  reserved b hb := by
    have := h.lo
    rw [view_cache, nblocks_image, h.bitmapEnd_eq] at hb
    rw [view_cache, h.freeBit_eq (by omega)]
    exact decide_eq_false (by omega)

theorem ample : (cache n bits size).Ample := by
  rw [Cache.Ample, view_cache, nblocks_image, Finset.filter_eq_empty_iff.2, Finset.card_empty]
  · exact Nat.zero_le _
  · intro b hb
    have := Finset.mem_range.1 hb
    have := h.hi
    exact mapped_cache (by omega)

theorem sane (hs : size.toNat ≤ maxfilesize) : Sane (cache n bits size) where
  coherent _ _ _ := rfl
  mounted := h.mounted
  owned := view_cache ▸ h.owned
  sized := view_cache ▸ Demo.sized hs

theorem ready (hs : size.toNat ≤ maxfilesize) : Ready False (cache n bits size) where
  toSane := h.sane hs
  live := .inr ⟨h.ample, view_cache ▸ Demo.tidy⟩

end Fits

theorem fits_eight : Fits 8 0xF0 := ⟨by decide, by decide, by decide⟩

end Jos.Fs.Demo
