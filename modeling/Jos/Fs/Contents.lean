import Mathlib.Data.Finset.Card
import Jos.Fs.Steps

/-! What is in the files of an image, and what a change of one file leaves of it. -/

namespace Jos.Fs

open Kern Lib

/-- Byte `x` of a file.  A block that is not there reads as zeros. -/
def fileByte (m : Lib.Image) (f x : Nat) : Byte :=
  match blockOf m f (x / blksize) with
  | some b => m (b * blksize + x % blksize)
  | none => 0

def freeCount (m : Lib.Image) : Nat :=
  ((Finset.range (nblocksOf m)).filter fun b => freeBit m b = true).card

def holes (m : Lib.Image) (f i n : Nat) : Nat :=
  (List.range' i n).countP fun j => (blockOf m f j).isNone

def need (m : Lib.Image) (f i n : Nat) : Nat :=
  holes m f i n + if 0 < n ∧ ndirect < i + n ∧ ptrAt m (fIndirect f) = none then 1 else 0

variable {m m' : Lib.Image} {a b c d f g i j k n x y : Nat} {l : Label}

section Bytes

theorem fileByte_of_some (hb : blockOf m f (x / blksize) = some b) :
    fileByte m f x = m (b * blksize + x % blksize) := by
  rw [fileByte, hb]

theorem fileByte_of_none (hb : blockOf m f (x / blksize) = none) : fileByte m f x = 0 := by
  rw [fileByte, hb]

theorem fileByte_congr (hb : blockOf m' f (x / blksize) = blockOf m f (x / blksize))
    (hm : ∀ b, blockOf m f (x / blksize) = some b →
      m' (b * blksize + x % blksize) = m (b * blksize + x % blksize)) :
    fileByte m' f x = fileByte m f x := by
  cases hc : blockOf m f (x / blksize) with
  | none => rw [fileByte_of_none hc, fileByte_of_none (hb.trans hc)]
  | some b => rw [fileByte_of_some hc, fileByte_of_some (hb.trans hc), hm b hc]

theorem grown_of_notMem (hx : x < bitmapWord b ∨ bitmapWord b + 4 ≤ x) (ha : x < a ∨ a + 4 ≤ x)
    (hb : x / 4096 ≠ b) : grown m a b x = m x := by
  rw [grown, blksize, Lib.Image.put_of_notMem (by omega), Lib.Image.putWord,
    Lib.Image.put_of_notMem ha, Lib.Image.putWord, Lib.Image.put_of_notMem hx]

end Bytes

namespace Owned

variable (h : Owned m)
include h

theorem block_bitmapEnd (hf : Node m f) (hb : blockOf m f i = some b) :
    bitmapEnd (nblocksOf m) ≤ b ∧ b < nblocksOf m ∧ freeBit m b = false := by
  obtain ⟨a, ha, hab⟩ := blockOf_eq_some.1 hb
  exact h.ptr_block (.slot hf ha) hab

theorem node_not_own (hf : Node m f) (hb : blockOf m f i = some b) : f / 4096 ≠ b := by
  induction hf generalizing i b with
  | root =>
    have := (h.block_range .root hb).1
    rw [sRoot, blksize]
    omega
  | @entry d k c j hd htype hc hj ih =>
    have hblk : (c * blksize + filesize * j) / 4096 = c := by
      rw [blkfiles, blksize, filesize] at hj
      rw [blksize, filesize]
      omega
    rw [hblk]
    rintro rfl
    obtain ⟨hdf, -⟩ := h.block_inj (.entry hd htype hc hj) hd hb hc
    rw [hdf] at hblk
    exact ih hc hblk

theorem own_place_not_data (hf : Node m f) (hb : blockOf m f i = some b) (ha : PlaceOf m f a) :
    a / 4096 ≠ b := by
  have hne := h.node_not_own hf hb
  obtain rfl | ⟨j, hj⟩ := ha
  · rw [fIndirect]
    obtain rfl | ⟨hf, -⟩ := h.aligned hf
    all_goals omega
  · obtain ⟨hj, rfl⟩ | ⟨c, hc, hj, hj', rfl⟩ := slot_cases hj
    · obtain rfl | ⟨hf, -⟩ := h.aligned hf
      all_goals omega
    · have hcb : c ≠ b := fun hcb => h.block_ne_indirect hf hb hf (hcb ▸ hc)
      omega

theorem name_out (hg : Node m g) (hy : y < 128) (ha : Place m a) : g + y < a ∨ a + 4 ≤ g + y := by
  have hg' := h.aligned hg
  have hfield : ∀ {f z}, Node m f → 136 ≤ z → z < 180 → g + y < f + z ∨ f + z + 4 ≤ g + y := by
    intro f z hf hz hz'
    obtain rfl | ⟨hg, hg3⟩ := hg'
    all_goals
      obtain rfl | ⟨hf, hf3⟩ := h.aligned hf
      all_goals omega
  cases ha with
  | indirect hf => exact hfield hf (by decide) (by decide)
  | @slot f i _ hf hs =>
    obtain ⟨hi, rfl⟩ | ⟨c, hc, hi, hi', rfl⟩ := slot_cases hs
    · have := hfield (z := 136 + 4 * i) hf (by omega) (by omega)
      rwa [← Nat.add_assoc] at this
    · have hc3 := (h.ptr_range (.indirect hf) hc).1
      obtain rfl | ⟨hg256, hg3⟩ := hg'
      · omega
      · have hcg : c ≠ g / 4096 := fun hcg => h.not_indirect hg (by omega) hf (hcg ▸ hc)
        omega

theorem node_bitmap (hg : Node m g) (hy : y < 256) :
    g + y < 8192 ∨ bitmapEnd (nblocksOf m) * 4096 ≤ g + y := by
  obtain rfl | ⟨hg, x, hx, hxg⟩ := hg.home
  · omega
  · have := (h.ptr_block hx hxg).1
    omega

theorem data_bitmap (hg : Node m g) (hb : blockOf m g i = some b) :
    bitmapEnd (nblocksOf m) * 4096 ≤ b * blksize + y := by
  have := (h.block_bitmapEnd hg hb).1
  rw [blksize]
  omega

end Owned

theorem Place.data_out (hx : Place m a) (hb : a / 4096 ≠ b) (hy : y < 4096) :
    b * blksize + y < a ∨ a + 4 ≤ b * blksize + y := by
  have := hx.home.1
  rw [blksize]
  omega

structure Leaves (l : Label) (m m' : Lib.Image) : Prop where
  block : ∀ {g i}, Node m g → l ≠ .grow g → l ≠ .resize g → blockOf m' g i = blockOf m g i
  indirect : ∀ {g}, Node m g → l ≠ .grow g → l ≠ .resize g →
    ptrAt m' (fIndirect g) = ptrAt m (fIndirect g)
  byte : ∀ {g x}, Node m g → m.word (fType g) ≠ ftypeDir ∨ l = .grow g → l ≠ .data g →
    l ≠ .resize g → fileByte m' g x = fileByte m g x
  name : ∀ {g y}, Node m g → y < 128 → l ≠ .name g → m' (g + y) = m (g + y)
  blank : ∀ {g y}, Node m' g → ¬ Node m g → y < 256 → m' (g + y) = 0

theorem SameTree.leaves (h : SameTree m m') (hl : ∀ g, l ≠ .grow g)
    (hbyte : ∀ {g i b y}, Node m g → m.word (fType g) ≠ ftypeDir → l ≠ .data g →
      Fs.blockOf m g i = some b → y < 4096 → m' (b * blksize + y) = m (b * blksize + y))
    (hname : ∀ {g y}, Node m g → y < 128 → l ≠ .name g → m' (g + y) = m (g + y)) :
    Leaves l m m' where
  block hg _ _ := h.blockOf hg
  indirect hg _ _ := ptrAt_congr (h.ptr (.indirect hg))
  byte hg htype hd _ := fileByte_congr (h.blockOf hg) fun _ hb =>
    hbyte hg (htype.resolve_right (hl _)) hd hb (Nat.mod_lt _ (by decide))
  name := hname
  blank hg hg' := absurd (h.node_iff.1 hg) hg'

theorem Grows.leaves (h : Grows m (grown m a b) a b) (hm : Owned m) (hf : Node m f)
    (ha : PlaceOf m f a) : Leaves (.grow f) m (grown m a b) where
  block {g i} hg hne _ := by
    have hgf : g ≠ f := fun hgf => hne (hgf ▸ rfl)
    cases hc : Fs.blockOf m g i with
    | some c => exact h.blockOf_kept hg hc
    | none =>
      cases hc' : Fs.blockOf (grown m a b) g i with
      | none => rfl
      | some c =>
        obtain hc' | ⟨hs, -⟩ := h.blockOf_cases hg hc'
        · rw [hc] at hc'
          cases hc'
        · exact absurd (hm.placeOf_inj hg hf (.inr ⟨i, hs⟩) ha) hgf
  indirect {g} hg hne _ := by
    refine ptrAt_congr (h.ptr (.indirect hg) fun hga => hne ?_)
    rw [hm.placeOf_inj hg hf (.inl hga.symm) ha]
  byte {g x} hg htype _ _ := by
    have hx := Nat.mod_lt x (show 0 < 4096 by decide)
    have hplace : ∀ {c}, Fs.blockOf m g (x / blksize) = some c → a / 4096 ≠ c := by
      intro c hc
      obtain htype | hgf := htype
      · exact hm.place_not_data hg htype hc h.place
      · cases hgf
        exact hm.own_place_not_data hf hc ha
    cases hc : Fs.blockOf m g (x / blksize) with
    | some c =>
      have hr := bitmapWord_range h.hi
      have hlo := hm.data_bitmap (y := x % blksize) hg hc
      have hcb : c ≠ b := by
        rintro rfl
        have := (hm.block_bitmapEnd hg hc).2.2
        rw [h.free] at this
        cases this
      rw [fileByte_of_some hc, fileByte_of_some (h.blockOf_kept hg hc)]
      refine grown_of_notMem (by omega) (h.place.data_out (hplace hc) hx) ?_
      rw [blksize]
      omega
    | none =>
      rw [fileByte_of_none hc]
      cases hc' : Fs.blockOf (grown m a b) g (x / blksize) with
      | none => exact fileByte_of_none hc'
      | some c =>
        rw [fileByte_of_some hc']
        obtain hc' | ⟨-, rfl⟩ := h.blockOf_cases hg hc'
        · rw [hc] at hc'
          cases hc'
        · refine h.zero ?_
          rw [blksize]
          omega
  name {g y} hg hy _ := by
    have hr := bitmapWord_range h.hi
    have hlo := hm.node_bitmap (y := y) hg (by omega)
    have hne := hm.node_not_free hg h.three_le h.free
    refine grown_of_notMem (by omega) (hm.name_out hg hy h.place) ?_
    obtain rfl | ⟨hg, -⟩ := hm.aligned hg
    all_goals omega
  blank {g y} hg hg' hy := by
    have hb := (h.node_cases hg).resolve_left hg'
    refine h.zero ?_
    rw [blksize]
    omega

theorem Trimmed.byte {w : Word} (h : Trimmed f n m m') (hx : x < 8192 ∨ bitmapEnd (nblocksOf m) * 4096 ≤ x)
    (ha : ∀ a, PlaceOf m f a → x < a ∨ a + 4 ≤ x) (hs : x < fSize f ∨ fSize f + 4 ≤ x) :
    m'.putWord (fSize f) w x = m x := by
  rw [Lib.Image.putWord, Lib.Image.put_of_notMem hs, h.bytes hx ha]

theorem Trimmed.blockOf_eq (h : Trimmed f n m m') (hg : Node m g) (hgi : g ≠ f ∨ i < n) :
    blockOf m' g i = blockOf m g i := by
  cases hc : blockOf m g i with
  | some c => exact h.kept hg hgi hc
  | none =>
    cases hc' : blockOf m' g i with
    | none => rfl
    | some c =>
      rw [h.block hg hc'] at hc
      cases hc

theorem node_size_out (hm : Owned m) (hf : Node m f) (hb : f / 4096 ≠ b) (hy : y < 4096) :
    b * blksize + y < fSize f ∨ fSize f + 4 ≤ b * blksize + y := by
  rw [fSize, blksize]
  obtain rfl | ⟨hf, -⟩ := hm.aligned hf
  all_goals omega

theorem Trimmed.fileByte_resize {w : Word} (h : Trimmed f n m m') (hm : Owned m) (hf : Node m f)
    (hg : Node m g) (htype : m.word (fType g) ≠ ftypeDir) (hgx : g ≠ f ∨ x / blksize < n) :
    fileByte (m'.putWord (fSize f) w) g x = fileByte m g x := by
  have hx := Nat.mod_lt x (show 0 < 4096 by decide)
  have hst := h.owned.sameTree_size (w := w) (h.node.2 hf)
  refine fileByte_congr ((hst.blockOf (h.node.2 hg)).trans (h.blockOf_eq hg hgx)) fun c hc => ?_
  refine h.byte (.inr (hm.data_bitmap hg hc)) (fun a ha => ?_)
    (node_size_out hm hf (hm.node_not_data hg htype hc hf) hx)
  have ha := ha.place hf
  exact ha.data_out (hm.place_not_data hg htype hc ha) hx

theorem Trimmed.leaves {w : Word} (h : Trimmed f n m m') (hm : Owned m) (hf : Node m f) :
    Leaves (.resize f) m (m'.putWord (fSize f) w) where
  block {g i} hg _ hne := by
    have hst := h.owned.sameTree_size (w := w) (h.node.2 hf)
    exact (hst.blockOf (h.node.2 hg)).trans (h.blockOf_eq hg (.inl fun hgf => hne (hgf ▸ rfl)))
  indirect {g} hg _ hne := by
    have hgf : g ≠ f := fun hgf => hne (hgf ▸ rfl)
    have hg' := h.node.2 hg
    refine ptrAt_congr (Lib.Image.word_congr fun x hx hx' => ?_)
    have hout := h.owned.field_out (h.node.2 hf) (.inl rfl) (.indirect hg')
    have hr := hm.place_range (.indirect hg)
    refine h.byte (by omega) (fun a ha => ?_) (by rw [fSize]; omega)
    have hne : fIndirect g ≠ a := by
      rintro rfl
      exact hgf (hm.placeOf_inj hg hf (.inl rfl) ha)
    have := (Place.indirect hg).out (ha.place hf) hne
    omega
  byte {g x} hg htype _ hne :=
    h.fileByte_resize hm hf hg (htype.resolve_right nofun) (.inl fun hgf => hne (hgf ▸ rfl))
  name {g y} hg hy _ := by
    refine h.byte (hm.node_bitmap hg (by omega)) (fun a ha => hm.name_out hg hy (ha.place hf)) ?_
    rw [fSize]
    obtain rfl | ⟨hg, hg3⟩ := hm.aligned hg
    all_goals
      obtain rfl | ⟨hf, hf3⟩ := hm.aligned hf
      all_goals omega
  blank hg hg' := by
    have hst := h.owned.sameTree_size (w := w) (h.node.2 hf)
    exact absurd (h.node.1 (hst.node_iff.1 hg)) hg'

theorem Edit.leaves (h : Edit l m m') (hm : Owned m) : Leaves l m m' := by
  cases h with
  | same =>
    exact SameTree.leaves ⟨rfl, fun _ => rfl, fun _ => rfl, fun _ => rfl⟩ (by rintro g ⟨⟩)
      (fun _ _ _ _ _ => rfl) fun _ _ _ => rfl
  | grow hf ha h0 hlo hhi hfree hroom =>
    exact (hm.edit_grows hf ha h0 hlo hhi hfree hroom).leaves hm hf ha
  | @name _ f n bs hf hne _ hn =>
    rw [maxnamelen] at hn
    have hf256 := (hm.aligned hf).resolve_left hne
    have hput : ∀ x, x < f ∨ f + 128 ≤ x → m.put f n bs x = m x := fun x hx =>
      Lib.Image.put_of_notMem (by omega)
    refine (hm.sameTree_name hf hne hput).1.leaves (by rintro g ⟨⟩) (fun {g i b y} hg htype _ hb hy => ?_)
      fun {g y} hg hy hgf => hput _ ?_
    · have := hm.node_not_data hg htype hb hf
      rw [blksize]
      exact hput _ (by omega)
    · have hgf : g ≠ f := fun h => hgf (h ▸ rfl)
      obtain rfl | ⟨hg, -⟩ := hm.aligned hg
      all_goals omega
  | @enlarge _ d hd htype hle =>
    refine (hm.sameTree_size hd).leaves (by rintro g ⟨⟩) (fun {g i b y} hg htype _ hb hy => ?_)
      fun {g y} hg hy _ => Lib.Image.put_of_notMem ?_
    · exact Lib.Image.put_of_notMem (node_size_out hm hd (hm.node_not_data hg htype hb hd) hy)
    · rw [fSize]
      obtain rfl | ⟨hg, hg3⟩ := hm.aligned hg
      all_goals
        obtain rfl | ⟨hd, hd3⟩ := hm.aligned hd
        all_goals omega
  | @data _ f i b off n bs hf htype hb hoff =>
    have hput : ∀ x, x / 4096 ≠ b → m.put (b * blksize + off) n bs x = m x := by
      intro x hx
      rw [blksize] at hoff ⊢
      exact Lib.Image.put_of_notMem (by omega)
    refine (hm.sameTree_data hf htype hb hput).1.leaves (by rintro g ⟨⟩) (fun {g j c y} hg htype hgf hc hy => ?_)
      fun {g y} hg hy _ => hput _ ?_
    · have hcb : c ≠ b := by
        rintro rfl
        exact hgf ((hm.block_inj hg hf hc hb).1 ▸ rfl)
      rw [blksize]
      exact hput _ (by omega)
    · have := hm.node_not_data hf htype hb hg
      obtain rfl | ⟨hg, -⟩ := hm.aligned hg
      all_goals omega
  | resize hf htype hle ht hend => exact (ht.trimmed hm hf htype).leaves hm hf

theorem fileByte_data {off : Nat} {bs : Nat → Byte} (hm : Owned m) (hf : Node m f)
    (htype : m.word (fType f) ≠ ftypeDir) (hb : blockOf m f i = some b) (hoff : off + n ≤ blksize) :
    fileByte (m.put (b * blksize + off) n bs) f x =
      if i * blksize + off ≤ x ∧ x < i * blksize + off + n then bs (x - (i * blksize + off))
      else fileByte m f x := by
  have hput : ∀ x, x / 4096 ≠ b → m.put (b * blksize + off) n bs x = m x := by
    intro x hx
    rw [blksize] at hoff ⊢
    exact Lib.Image.put_of_notMem (by omega)
  have hst := (hm.sameTree_data hf htype hb hput).1
  rw [blksize] at hoff ⊢
  split
  · next hx =>
    have hxi : x / blksize = i := by
      rw [blksize]
      omega
    have hxb : blockOf (m.put (b * 4096 + off) n bs) f (x / blksize) = some b :=
      (hst.blockOf hf).trans (hxi ▸ hb)
    rw [fileByte_of_some hxb, blksize, Lib.Image.put_of_mem (by omega) (by omega)]
    congr 1
    omega
  · next hx =>
    refine fileByte_congr (hst.blockOf hf) fun c hc => ?_
    by_cases hxi : x / blksize = i
    · rw [hxi, hb] at hc
      cases hc
      rw [blksize] at hxi ⊢
      exact Lib.Image.put_of_notMem (by omega)
    · have hcb : c ≠ b := by
        rintro rfl
        exact hxi (hm.block_inj hf hf hc hb).2
      rw [blksize]
      exact hput _ (by omega)

section Count

theorem freeCount_congr (hn : nblocksOf m' = nblocksOf m)
    (hfree : ∀ b, b < nblocksOf m → freeBit m' b = freeBit m b) : freeCount m' = freeCount m := by
  rw [freeCount, freeCount, hn]
  congr 1
  refine Finset.filter_congr fun b hb => ?_
  rw [hfree b (Finset.mem_range.1 hb)]

theorem Grows.freeCount (h : Grows m m' a b) : freeCount m' + 1 = freeCount m := by
  have hmem : b ∈ (Finset.range (nblocksOf m)).filter fun b => freeBit m b = true :=
    Finset.mem_filter.2 ⟨Finset.mem_range.2 h.hi, h.free⟩
  rw [Fs.freeCount, Fs.freeCount, ← Finset.card_erase_add_one hmem, h.nblocks]
  congr 2
  ext x
  rw [Finset.mem_erase, Finset.mem_filter, Finset.mem_filter, Finset.mem_range]
  constructor
  · rintro ⟨hx, hfree⟩
    rw [h.used hx] at hfree
    split at hfree
    · cases hfree
    · next hne => exact ⟨hne, hx, hfree⟩
  · rintro ⟨hne, hx, hfree⟩
    rw [h.used hx, if_neg hne]
    exact ⟨hx, hfree⟩

theorem freeCount_eq_zero_iff : freeCount m = 0 ↔ ∀ b, b < nblocksOf m → freeBit m b = false := by
  rw [freeCount, Finset.card_eq_zero, Finset.filter_eq_empty_iff]
  simp only [Finset.mem_range, Bool.not_eq_true]

theorem freeCount_eq_zero (h : ∀ b, b < nblocksOf m → freeBit m b = false) : freeCount m = 0 :=
  freeCount_eq_zero_iff.2 h

theorem holes_zero : holes m f i 0 = 0 := rfl

theorem holes_succ :
    holes m f i (n + 1) = holes m f (i + 1) n + if (blockOf m f i).isNone then 1 else 0 := by
  rw [holes, holes, List.range'_succ, List.countP_cons]

theorem holes_congr (h : ∀ j, i ≤ j → j < i + n → blockOf m' f j = blockOf m f j) :
    holes m' f i n = holes m f i n := by
  refine List.countP_congr fun j hj => ?_
  obtain ⟨hj, hj'⟩ := List.mem_range'_1.1 hj
  rw [h j hj hj']

theorem holes_eq_zero : holes m f i n = 0 ↔ ∀ j, i ≤ j → j < i + n → blockOf m f j ≠ none := by
  rw [holes, List.countP_eq_zero]
  constructor
  · intro h j hj hj' hnone
    refine h j (List.mem_range'_1.2 ⟨hj, hj'⟩) ?_
    rw [hnone]
    rfl
  · intro h j hj hnone
    obtain ⟨hj, hj'⟩ := List.mem_range'_1.1 hj
    exact h j hj hj' (Option.isNone_iff_eq_none.1 hnone)

theorem blockOf_none_of_indirect (hind : ptrAt m (fIndirect f) = none) (hi : ndirect ≤ i) :
    blockOf m f i = none := by
  rw [blockOf, slot, if_neg (Nat.not_lt.2 hi), hind]
  split <;> rfl

theorem need_eq_zero : need m f i n = 0 ↔ ∀ j, i ≤ j → j < i + n → blockOf m f j ≠ none := by
  rw [← holes_eq_zero, need]
  constructor
  · intro h
    omega
  · intro h
    rw [h, if_neg]
    rintro ⟨hn, hi, hind⟩
    refine holes_eq_zero.1 h (i + n - 1) (by omega) (by omega) ?_
    exact blockOf_none_of_indirect hind (by omega)

theorem need_le : need m f i n ≤ n + 1 := by
  have hholes : holes m f i n ≤ n := by
    have := List.countP_le_length (l := List.range' i n) (p := fun j => (blockOf m f j).isNone)
    rwa [List.length_range'] at this
  rw [need]
  split <;> omega

theorem holes_mono {n' : Nat} (h : n ≤ n') : holes m f i n ≤ holes m f i n' := by
  obtain ⟨k, rfl⟩ := Nat.exists_eq_add_of_le h
  rw [holes, holes, ← List.range'_append_1, List.countP_append]
  exact Nat.le_add_right _ _

theorem need_mono {n' : Nat} (h : n ≤ n') : need m f i n ≤ need m f i n' := by
  have hind : (if 0 < n ∧ ndirect < i + n ∧ ptrAt m (fIndirect f) = none then 1 else 0) ≤
      if 0 < n' ∧ ndirect < i + n' ∧ ptrAt m (fIndirect f) = none then 1 else 0 := by
    split
    · next hn =>
      rw [if_pos]
      exact ⟨by omega, by omega, hn.2.2⟩
    · exact Nat.zero_le _
  have hholes := holes_mono (m := m) (f := f) (i := i) h
  rw [need, need]
  omega

theorem need_succ (hother : ∀ j, i < j → blockOf m' f j = blockOf m f j)
    (hind : ptrAt m' (fIndirect f) = none ↔ ptrAt m (fIndirect f) = none ∧ i < ndirect) :
    need m f i (n + 1) = need m f i 1 + need m' f (i + 1) n := by
  have hrest : holes m' f (i + 1) n = holes m f (i + 1) n := holes_congr fun j hj _ => hother j hj
  rw [need, need, need, holes_succ, holes_succ, holes_zero, hrest]
  have hind : (if 0 < n + 1 ∧ ndirect < i + (n + 1) ∧ ptrAt m (fIndirect f) = none then 1 else 0) =
      (if 0 < 1 ∧ ndirect < i + 1 ∧ ptrAt m (fIndirect f) = none then 1 else 0) +
        if 0 < n ∧ ndirect < i + 1 + n ∧ ptrAt m' (fIndirect f) = none then 1 else 0 := by
    by_cases h : ptrAt m (fIndirect f) = none
    · by_cases hi : i < ndirect
      · simp only [h, hind.2 ⟨h, hi⟩, and_true]
        split_ifs <;> omega
      · have hm' : ptrAt m' (fIndirect f) ≠ none := fun hm' => hi (hind.1 hm').2
        simp only [h, hm', and_true, and_false, if_false]
        split_ifs <;> omega
    · have hm' : ptrAt m' (fIndirect f) ≠ none := fun hm' => h (hind.1 hm').1
      simp only [h, hm', and_false, if_false]
  omega

end Count

theorem Edit.eq_of_quiet (h : Edit .quiet m m') : m' = m := by
  cases h with
  | same => rfl

theorem Step.leaves {s t : Cache} (h : Step l s t) (hs : Sane s) : Leaves l s.view t.view :=
  (h.edit hs).1.leaves hs.owned

namespace Steps

variable {s t : Cache} {A : Set Label} {D : Prop} (h : Steps A s t) (hs : Ready D s)
include h hs

theorem blockOf (hg : Node s.view g) (hgr : .grow g ∉ A) (hr : .resize g ∉ A) :
    blockOf t.view g i = blockOf s.view g i := by
  refine (h.invariant (fun t => Node t.view g ∧ Fs.blockOf t.view g i = Fs.blockOf s.view g i) hs
    (fun {l _ _} hl hs hst hi => ⟨(hst.carries hs.toSane).node hi.1, ?_⟩) ⟨hg, rfl⟩).2
  refine ((hst.leaves hs.toSane).block hi.1 ?_ ?_).trans hi.2
  · rintro rfl
    exact hgr hl
  · rintro rfl
    exact hr hl

theorem indirect (hg : Node s.view g) (hgr : .grow g ∉ A) (hr : .resize g ∉ A) :
    ptrAt t.view (fIndirect g) = ptrAt s.view (fIndirect g) := by
  refine (h.invariant (fun t => Node t.view g ∧
    ptrAt t.view (fIndirect g) = ptrAt s.view (fIndirect g)) hs
    (fun {l _ _} hl hs hst hi => ⟨(hst.carries hs.toSane).node hi.1, ?_⟩) ⟨hg, rfl⟩).2
  refine ((hst.leaves hs.toSane).indirect hi.1 ?_ ?_).trans hi.2
  · rintro rfl
    exact hgr hl
  · rintro rfl
    exact hr hl

theorem fileByte (hg : Node s.view g) (htype : s.view.word (fType g) ≠ ftypeDir)
    (hd : .data g ∉ A) (hr : .resize g ∉ A) : fileByte t.view g x = fileByte s.view g x := by
  refine (h.invariant (fun t => (Node t.view g ∧ t.view.word (fType g) ≠ ftypeDir) ∧
    Fs.fileByte t.view g x = Fs.fileByte s.view g x) hs
    (fun {l _ _} hl hs hst hi => ⟨⟨(hst.carries hs.toSane).node hi.1.1, ?_⟩, ?_⟩) ⟨⟨hg, htype⟩, rfl⟩).2
  · rw [(hst.carries hs.toSane).type hi.1.1]
    exact hi.1.2
  · refine ((hst.leaves hs.toSane).byte hi.1.1 (.inl hi.1.2) ?_ ?_).trans hi.2
    · rintro rfl
      exact hd hl
    · rintro rfl
      exact hr hl

theorem name (hg : Node s.view g) (hy : y < 128) (hn : .name g ∉ A) :
    t.view (g + y) = s.view (g + y) := by
  refine (h.invariant (fun t => Node t.view g ∧ t.view (g + y) = s.view (g + y)) hs
    (fun {l _ _} hl hs hst hi => ⟨(hst.carries hs.toSane).node hi.1, ?_⟩) ⟨hg, rfl⟩).2
  refine ((hst.leaves hs.toSane).name hi.1 hy ?_).trans hi.2
  rintro rfl
  exact hn hl

theorem blank (hg : Node t.view g) (hg' : ¬ Node s.view g) (hy : y < 128) (hn : .name g ∉ A) :
    t.view (g + y) = 0 := by
  refine (h.invariant (fun t => Node t.view g → t.view (g + y) = 0) hs
    (fun {l s _} hl hs hst hi hg => ?_) fun hg => absurd hg hg') hg
  have hne : l ≠ .name g := by
    rintro rfl
    exact hn hl
  by_cases hgs : Node s.view g
  · rw [(hst.leaves hs.toSane).name hgs hy hne]
    exact hi hgs
  · exact (hst.leaves hs.toSane).blank hg hgs (by omega)

end Steps

theorem Steps.fileByte_grow {s t : Cache} {D : Prop} (h : Steps {.quiet, .grow f} s t)
    (hs : Ready D s) (hf : Node s.view f) : Fs.fileByte t.view f x = Fs.fileByte s.view f x := by
  refine (h.invariant (fun t => Node t.view f ∧ Fs.fileByte t.view f x = Fs.fileByte s.view f x) hs
    (fun {l s t} hl hs hst hi => ⟨(hst.carries hs.toSane).node hi.1, ?_⟩) ⟨hf, rfl⟩).2
  refine Eq.trans ?_ hi.2
  obtain rfl | rfl := hl
  · rw [(hst.edit hs.toSane).1.eq_of_quiet]
  · exact (hst.leaves hs.toSane).byte hi.1 (.inr rfl) nofun nofun

end Jos.Fs
