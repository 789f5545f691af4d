import Jos.Fs.Edits

/-! The stores of `fs.c`, on images that own their blocks. -/

namespace Jos.Fs

open Kern Lib

variable {m m' : Lib.Image} {a b c d f g i j x n : Nat}

section Bitmap

theorem getLsbD_one_shiftLeft (k j : Nat) (hj : j < 32) :
    (1#32 <<< k).getLsbD j = decide (j = k) := by
  rw [BitVec.getLsbD_shiftLeft, BitVec.getLsbD_one]
  by_cases h : j = k
  · subst h
    simp [hj]
  · rw [decide_eq_false h]
    by_cases hlt : j < k
    · simp [hlt]
    · simp [show ¬ j - k = 0 by omega]

theorem freeBit_putWord {w : Word} :
    freeBit (m.putWord (bitmapWord b) w) x =
      if x / 32 = b / 32 then w.getLsbD (x % 32) else freeBit m x := by
  rw [freeBit, freeBit]
  split
  · next h => rw [h, ← bitmapWord, Lib.Image.word_putWord]
  · next h =>
    rw [Lib.Image.word_putWord_of_disjoint]
    rw [bitmapWord]
    omega

theorem freeBit_xor : freeBit (m.putWord (bitmapWord b) (m.word (bitmapWord b) ^^^ 1#32 <<< (b % 32)))
    x = if x = b then !freeBit m b else freeBit m x := by
  rw [freeBit_putWord]
  by_cases hw : x / 32 = b / 32
  · rw [if_pos hw, BitVec.getLsbD_xor, getLsbD_one_shiftLeft _ _ (Nat.mod_lt _ (by decide))]
    by_cases hx : x = b
    · subst hx
      rw [if_pos rfl, decide_eq_true rfl, Bool.xor_true, freeBit, bitmapWord]
    · rw [if_neg hx, decide_eq_false (by omega), Bool.xor_false, freeBit, bitmapWord, hw]
  · rw [if_neg hw, if_neg]
    rintro rfl
    exact hw rfl

theorem freeBit_or : freeBit (m.putWord (bitmapWord b) (m.word (bitmapWord b) ||| 1#32 <<< (b % 32)))
    x = if x = b then true else freeBit m x := by
  rw [freeBit_putWord]
  by_cases hw : x / 32 = b / 32
  · rw [if_pos hw, BitVec.getLsbD_or, getLsbD_one_shiftLeft _ _ (Nat.mod_lt _ (by decide))]
    by_cases hx : x = b
    · rw [if_pos hx, hx, decide_eq_true rfl, Bool.or_true]
    · rw [if_neg hx, decide_eq_false (by omega), Bool.or_false, freeBit, bitmapWord, hw]
  · rw [if_neg hw, if_neg]
    rintro rfl
    exact hw rfl

theorem bitmapWord_range (hb : b < n) :
    8192 ≤ bitmapWord b ∧ bitmapWord b + 4 ≤ bitmapEnd n * 4096 ∧ bitmapWord b % 4 = 0 := by
  rw [bitmapWord, bitmapAddr, bitmapEnd, blksize]
  omega

theorem freeBit_congr (hb : b < n) (h : ∀ x, 8192 ≤ x → x < bitmapEnd n * 4096 → m' x = m x) :
    freeBit m' b = freeBit m b := by
  have hr := bitmapWord_range hb
  rw [freeBit, freeBit, ← bitmapWord, Lib.Image.word_congr fun x hx hx' => h x (by omega) (by omega)]

theorem nblocksOf_congr (h : ∀ x, 4100 ≤ x → x < 4104 → m' x = m x) : nblocksOf m' = nblocksOf m := by
  rw [nblocksOf, nblocksOf, Lib.Image.word_congr fun x hx hx' => ?_]
  rw [sNblocks, blksize] at hx hx'
  exact h x hx hx'

end Bitmap

theorem Node.home (hf : Node m f) :
    f = 4104 ∨ f % 256 = 0 ∧ ∃ a, Place m a ∧ ptrAt m a = some (f / 4096) := by
  cases hf with
  | root => exact .inl rfl
  | @entry d i b j hd _ hb hj =>
    obtain ⟨a, ha, hab⟩ := blockOf_eq_some.1 hb
    have hblk : (b * blksize + filesize * j) / 4096 = b := by
      rw [blkfiles, blksize, filesize] at hj
      rw [blksize, filesize]
      omega
    refine .inr ⟨?_, a, .slot hd ha, hblk.symm ▸ hab⟩
    rw [blksize, filesize]
    omega

theorem Place.home (ha : Place m a) :
    a % 4 = 0 ∧ ((4240 ≤ a ∧ a + 4 ≤ 4284) ∨ ∃ x, Place m x ∧ ptrAt m x = some (a / 4096)) := by
  have hfield : ∀ {f y}, Node m f → 136 ≤ y → y < 180 → y % 4 = 0 → (f + y) % 4 = 0 ∧
      ((4240 ≤ f + y ∧ f + y + 4 ≤ 4284) ∨ ∃ x, Place m x ∧ ptrAt m x = some ((f + y) / 4096)) := by
    intro f y hf hy hy' hy4
    obtain rfl | ⟨hf, x, hx, hxf⟩ := hf.home
    · omega
    · have hblk : (f + y) / 4096 = f / 4096 := by omega
      exact ⟨by omega, .inr ⟨x, hx, hblk ▸ hxf⟩⟩
  cases ha with
  | indirect hf => exact hfield hf (by decide) (by decide) (by decide)
  | @slot f i _ hf hs =>
    obtain ⟨hi, rfl⟩ | ⟨c, hc, hi, hi', rfl⟩ := slot_cases hs
    · have := hfield (y := 136 + 4 * i) hf (by omega) (by omega) (by omega)
      rwa [← Nat.add_assoc] at this
    · have hblk : (c * 4096 + 4 * (i - 10)) / 4096 = c := by omega
      exact ⟨by omega, .inr ⟨fIndirect f, .indirect hf, hblk.symm ▸ hc⟩⟩

theorem Place.out (ha : Place m a) (hb : Place m b) (hne : a ≠ b) : a + 4 ≤ b ∨ b + 4 ≤ a := by
  have := ha.home.1
  have := hb.home.1
  omega

/-- `m` with the bit of a free block cleared, the block behind a pointer, and zeros in it. -/
def grown (m : Lib.Image) (a b : Nat) : Lib.Image :=
  ((m.putWord (bitmapWord b) (m.word (bitmapWord b) ^^^ 1#32 <<< (b % 32))).putWord a
    (BitVec.ofNat 32 b)).put (b * blksize) blksize fun _ => 0

def dropped (m : Lib.Image) (a b : Nat) : Lib.Image :=
  (m.putWord (bitmapWord b) (m.word (bitmapWord b) ||| 1#32 <<< (b % 32))).putWord a 0

namespace Owned

variable (h : Owned m)
include h

theorem ptr_block (ha : Place m a) (hb : ptrAt m a = some b) :
    bitmapEnd (nblocksOf m) ≤ b ∧ b < nblocksOf m ∧ freeBit m b = false := by
  obtain ⟨⟨hlt, hfree⟩, hk⟩ := h.balanced.inUse ha hb
  exact ⟨Nat.not_lt.1 hk, hlt, hfree⟩

theorem field_ne_place {y : Nat} (hf : Node m f) (hy : 128 ≤ y) (hy' : y < 136) (ha : Place m a) :
    f + y ≠ a := by
  intro heq
  cases ha with
  | indirect hg =>
    have := (h.aligned hf).field_inj (h.aligned hg) (y := 176) hy (by omega) (by omega) (by omega)
      heq
    omega
  | @slot g i _ hg hs =>
    obtain ⟨hi, rfl⟩ | ⟨c, hc, hi, hi', rfl⟩ := slot_cases hs
    · have := (h.aligned hf).field_inj (h.aligned hg) (y := 136 + 4 * i) hy (by omega) (by omega)
        (by omega) (by omega)
      omega
    · obtain ⟨hne, hblk⟩ := (h.aligned hf).field_block (k := i - 10) (by omega)
        (h.ptr_range (.indirect hg) hc).1 (by omega) heq
      exact h.not_indirect hf hne hg (hblk ▸ hc)

theorem field_out {y : Nat} (hf : Node m f) (hy : y = 128 ∨ y = 132) (ha : Place m a) :
    f + y + 4 ≤ a ∨ a + 4 ≤ f + y := by
  have hne := h.field_ne_place hf (y := y) (by omega) (by omega) ha
  have ha4 := ha.home.1
  have hf4 : f % 4 = 0 := by
    obtain rfl | ⟨hf, -⟩ := h.aligned hf
    all_goals omega
  omega

theorem node_not_free (hf : Node m f) (hb : 3 ≤ b) (hfree : freeBit m b = true) : f / 4096 ≠ b := by
  rintro rfl
  obtain rfl | ⟨-, x, hx, hxf⟩ := hf.home
  · omega
  · have := (h.ptr_block hx hxf).2.2
    rw [hfree] at this
    cases this

theorem place_not_free (ha : Place m a) (hb : 3 ≤ b) (hfree : freeBit m b = true) : a / 4096 ≠ b := by
  rintro rfl
  obtain ⟨-, hlo | ⟨x, hx, hxf⟩⟩ := ha.home
  · omega
  · have := (h.ptr_block hx hxf).2.2
    rw [hfree] at this
    cases this

theorem node_not_data (hf : Node m f) (htype : m.word (fType f) ≠ ftypeDir)
    (hb : blockOf m f i = some b) (hg : Node m g) : g / 4096 ≠ b := by
  rintro rfl
  cases hg with
  | root =>
    have := (h.block_range hf hb).1
    rw [sRoot, blksize] at this
    omega
  | @entry d k c j hd hdir hc hj =>
    have hblk : (c * blksize + filesize * j) / 4096 = c := by
      rw [blkfiles, blksize, filesize] at hj
      rw [blksize, filesize]
      omega
    rw [hblk] at hb
    obtain ⟨rfl, -⟩ := h.block_inj hf hd hb hc
    exact htype hdir

theorem place_not_data (hf : Node m f) (htype : m.word (fType f) ≠ ftypeDir)
    (hb : blockOf m f i = some b) (ha : Place m a) : a / 4096 ≠ b := by
  have hfield : ∀ {g y}, Node m g → y < 180 → (g + y) / 4096 ≠ b := by
    intro g y hg hy
    have hne := h.node_not_data hf htype hb hg
    obtain rfl | ⟨hg, -⟩ := h.aligned hg
    all_goals omega
  cases ha with
  | indirect hg => exact hfield hg (by decide)
  | @slot g k _ hg hs =>
    obtain ⟨hi, rfl⟩ | ⟨c, hc, hi, hi', rfl⟩ := slot_cases hs
    · have := hfield (y := 136 + 4 * k) hg (by omega)
      rwa [← Nat.add_assoc] at this
    · intro hblk
      have hcb : c = b := by omega
      exact h.block_ne_indirect hf hb hg (hcb ▸ hc)

theorem place_bitmap (ha : Place m a) (hb : b < nblocksOf m) :
    a + 4 ≤ bitmapWord b ∨ bitmapWord b + 4 ≤ a := by
  have hr := bitmapWord_range hb
  obtain ⟨-, hlo | ⟨x, hx, hxa⟩⟩ := ha.home
  · omega
  · have := (h.ptr_block hx hxa).1
    omega

theorem field_bitmap {y : Nat} (hf : Node m f) (hy : y < 180) (hb : b < nblocksOf m) :
    f + y + 4 ≤ bitmapWord b ∨ bitmapWord b + 4 ≤ f + y := by
  have hr := bitmapWord_range hb
  obtain rfl | ⟨hf, x, hx, hxf⟩ := hf.home
  · omega
  · have := (h.ptr_block hx hxf).1
    omega

theorem sameTree_data (hf : Node m f) (htype : m.word (fType f) ≠ ftypeDir)
    (hb : blockOf m f i = some b) (hm : ∀ x, x / 4096 ≠ b → m' x = m x) :
    SameTree m m' ∧ ∀ {g}, Node m g → m'.word (fSize g) = m.word (fSize g) := by
  obtain ⟨a, ha, hab⟩ := blockOf_eq_some.1 hb
  have hlo := (h.ptr_block (.slot hf ha) hab).1
  have hb3 := (h.block_range hf hb).1
  have hfield : ∀ {g y}, Node m g → y < 176 → y % 4 = 0 → m'.word (g + y) = m.word (g + y) := by
    intro g y hg hy hy4
    have hne := h.node_not_data hf htype hb hg
    refine Lib.Image.word_congr fun x hx hx' => hm x ?_
    obtain rfl | ⟨hg, -⟩ := h.aligned hg
    all_goals omega
  refine ⟨⟨nblocksOf_congr fun x hx hx' => hm x (by omega), fun hlt =>
    freeBit_congr hlt fun x hx hx' => hm x (by omega), fun hg => hfield hg (by decide) (by decide),
    fun {x} hx => ?_⟩, fun hg => hfield hg (by decide) (by decide)⟩
  have hne := h.place_not_data hf htype hb hx
  have hx4 := hx.home.1
  exact Lib.Image.word_congr fun y hy hy' => hm y (by omega)

theorem sameTree_name (hf : Node m f) (hne : f ≠ 4104)
    (hm : ∀ x, x < f ∨ f + 128 ≤ x → m' x = m x) :
    SameTree m m' ∧ ∀ {g}, Node m g → m'.word (fSize g) = m.word (fSize g) := by
  have hf256 := (h.aligned hf).resolve_left hne
  obtain ⟨-, z, hz, hzf⟩ := hf.home.resolve_left hne
  have hlo := (h.ptr_block hz hzf).1
  have hfield : ∀ {g y}, Node m g → 128 ≤ y → y < 180 → y % 4 = 0 → m'.word (g + y) = m.word (g + y) := by
    intro g y hg hy hy' hy4
    refine Lib.Image.word_congr fun x hx hx' => hm x ?_
    obtain rfl | ⟨hg, -⟩ := h.aligned hg
    all_goals omega
  refine ⟨⟨nblocksOf_congr fun x hx hx' => hm x (by omega), fun hlt =>
    freeBit_congr hlt fun x hx hx' => hm x (by omega),
    fun hg => hfield hg (by decide) (by decide) (by decide), fun {x} hx => ?_⟩,
    fun hg => hfield hg (by decide) (by decide) (by decide)⟩
  cases hx with
  | indirect hg => exact hfield hg (by decide) (by decide) (by decide)
  | @slot g i _ hg hs =>
    obtain ⟨hi, rfl⟩ | ⟨c, hc, hi, hi', rfl⟩ := slot_cases hs
    · have := hfield (y := 136 + 4 * i) hg (by omega) (by omega) (by omega)
      rwa [← Nat.add_assoc] at this
    · have hcf : c ≠ f / 4096 := fun hcf => h.not_indirect hf hne hg (hcf ▸ hc)
      exact Lib.Image.word_congr fun y hy hy' => hm y (by omega)

theorem sameTree_size {w : Word} (hf : Node m f) : SameTree m (m.putWord (fSize f) w) := by
  have hf' := h.aligned hf
  refine ⟨nblocksOf_congr fun x hx hx' => Lib.Image.put_of_notMem ?_, fun {b} hlt => ?_, fun {g} hg => ?_,
    fun {x} hx => ?_⟩
  · rw [fSize]
    obtain rfl | hf := hf'
    all_goals omega
  · have := h.field_bitmap (y := 128) hf (by omega) hlt
    rw [freeBit, freeBit, ← bitmapWord, Lib.Image.word_putWord_of_disjoint]
    rw [fSize]
    omega
  · refine Lib.Image.word_putWord_of_disjoint ?_
    rw [fSize, fType]
    obtain rfl | ⟨hf, -⟩ := hf'
    all_goals
      obtain rfl | ⟨hg, -⟩ := h.aligned hg
      all_goals omega
  · have := h.field_out hf (.inl rfl) hx
    refine Lib.Image.word_putWord_of_disjoint ?_
    rw [fSize]
    omega

theorem size_putWord_of_ne {w : Word} (hf : Node m f) (hg : Node m g) (hne : g ≠ f) :
    (m.putWord (fSize f) w).word (fSize g) = m.word (fSize g) := by
  refine Lib.Image.word_putWord_of_disjoint ?_
  rw [fSize, fSize]
  obtain rfl | ⟨hf, -⟩ := h.aligned hf
  all_goals
    obtain rfl | ⟨hg, -⟩ := h.aligned hg
    all_goals omega

theorem place_range (ha : Place m a) :
    (a + 4 ≤ 4100 ∨ 4104 ≤ a) ∧ (a + 4 ≤ 8192 ∨ bitmapEnd (nblocksOf m) * 4096 ≤ a) := by
  obtain ⟨-, hlo | ⟨x, hx, hxa⟩⟩ := ha.home
  · omega
  · have := (h.ptr_block hx hxa).1
    rw [bitmapEnd] at *
    omega

theorem grows (ha : Place m a) (hnull : m.word a = 0) (hlo : bitmapEnd (nblocksOf m) ≤ b)
    (hhi : b < nblocksOf m) (hfree : freeBit m b = true)
    (hroom : ∀ {f i}, Node m f → slot m f i = some a → i * blksize < (m.word (fSize f)).toNat) :
    Grows m (grown m a b) a b := by
  have hb3 : 3 ≤ b := by
    rw [bitmapEnd] at hlo
    omega
  have hr := bitmapWord_range hhi
  have hra := h.place_bitmap ha hhi
  have hafree := h.place_not_free ha hb3 hfree
  -- a word outside the block, the pointer and the word of the bitmap
  have hword : ∀ {x}, x % 4 = 0 → x / 4096 ≠ b → x ≠ a → x ≠ bitmapWord b →
      (grown m a b).word x = m.word x := by
    intro x hx4 hxb hxa hxw
    have ha4 := ha.home.1
    rw [grown, blksize, Lib.Image.word_put_of_disjoint (by omega), Lib.Image.word_putWord_of_disjoint (by omega),
      Lib.Image.word_putWord_of_disjoint (by omega)]
  have hfield : ∀ {f y}, Node m f → y = 128 ∨ y = 132 → (grown m a b).word (f + y) = m.word (f + y) := by
    intro f y hf hy
    have hfa := h.field_out hf hy ha
    have hfw := h.field_bitmap hf (y := y) (by omega) hhi
    have hfb := h.node_not_free hf hb3 hfree
    obtain rfl | ⟨hf, -⟩ := h.aligned hf
    all_goals exact hword (by omega) (by omega) (by omega) (by omega)
  refine ⟨ha, hnull, hlo, hhi, hfree, hroom, ?_, fun {x} hx => ?_, fun hf => hfield hf (.inr rfl),
    fun hf => hfield hf (.inl rfl), fun {x} hx hxa => ?_, ?_, fun {x} hx => ?_⟩
  · rw [nblocksOf, nblocksOf, sNblocks, blksize]
    have ha1 := (h.place_range ha).1
    rw [hword (by omega) (by omega) (by omega) (by omega)]
  · have hrx := bitmapWord_range hx
    have hxa := h.place_bitmap ha hx
    have hin : (grown m a b).word (bitmapWord x) =
        (m.putWord (bitmapWord b) (m.word (bitmapWord b) ^^^ 1#32 <<< (b % 32))).word (bitmapWord x) := by
      rw [grown, blksize, Lib.Image.word_put_of_disjoint (by omega), Lib.Image.word_putWord_of_disjoint (by omega)]
    have hbit : freeBit (grown m a b) x =
        freeBit (m.putWord (bitmapWord b) (m.word (bitmapWord b) ^^^ 1#32 <<< (b % 32))) x := by
      rw [freeBit, freeBit, ← bitmapWord, hin]
    rw [hbit, freeBit_xor, hfree]
    rfl
  · have hxw := h.place_bitmap hx hhi
    exact hword hx.home.1 (h.place_not_free hx hb3 hfree) hxa (by omega)
  · have ha4 := ha.home.1
    have hlt : b < 2 ^ 32 := Nat.lt_trans hhi (m.word sNblocks).isLt
    rw [grown, blksize, Lib.Image.word_put_of_disjoint (by omega), Lib.Image.word_putWord, BitVec.toNat_ofNat,
      Nat.mod_eq_of_lt hlt]
  · rw [grown]
    rw [blksize] at hx ⊢
    exact Lib.Image.put_of_mem (by omega) (by omega)

theorem drops (ha : Place m a) (hb : ptrAt m a = some b)
    (hleaf : ∀ {f i}, Node m f → slot m f i = some a → m.word (fType f) ≠ ftypeDir)
    (hempty : ∀ {f i}, Node m f → fIndirect f = a → 10 ≤ i → blockOf m f i = none) :
    Drops m (dropped m a b) a b := by
  obtain ⟨hlo, hhi, -⟩ := h.ptr_block ha hb
  have hr := bitmapWord_range hhi
  have hra := h.place_bitmap ha hhi
  have hword : ∀ {x}, x % 4 = 0 → x ≠ a → x ≠ bitmapWord b → (dropped m a b).word x = m.word x := by
    intro x hx4 hxa hxw
    have ha4 := ha.home.1
    rw [dropped, Lib.Image.word_putWord_of_disjoint (by omega), Lib.Image.word_putWord_of_disjoint (by omega)]
  have hfield : ∀ {f y}, Node m f → y = 128 ∨ y = 132 → (dropped m a b).word (f + y) = m.word (f + y) := by
    intro f y hf hy
    have hfa := h.field_out hf hy ha
    have hfw := h.field_bitmap hf (y := y) (by omega) hhi
    obtain rfl | ⟨hf, -⟩ := h.aligned hf
    all_goals exact hword (by omega) (by omega) (by omega)
  refine ⟨ha, hb, hleaf, hempty, ?_, fun {x} hx => ?_, fun hf => hfield hf (.inr rfl),
    fun hf => hfield hf (.inl rfl), fun {x} hx hxa => ?_, Lib.Image.word_putWord⟩
  · rw [nblocksOf, nblocksOf, sNblocks, blksize]
    have ha1 := (h.place_range ha).1
    rw [hword (by omega) (by omega) (by omega)]
  · have hxa := h.place_bitmap ha hx
    have hin : (dropped m a b).word (bitmapWord x) =
        (m.putWord (bitmapWord b) (m.word (bitmapWord b) ||| 1#32 <<< (b % 32))).word (bitmapWord x) := by
      rw [dropped, Lib.Image.word_putWord_of_disjoint (by omega)]
    have hbit : freeBit (dropped m a b) x =
        freeBit (m.putWord (bitmapWord b) (m.word (bitmapWord b) ||| 1#32 <<< (b % 32))) x := by
      rw [freeBit, freeBit, ← bitmapWord, hin]
    rw [hbit, freeBit_or]
  · have hxw := h.place_bitmap hx hhi
    exact hword hx.home.1 hxa (by omega)

end Owned

end Jos.Fs
