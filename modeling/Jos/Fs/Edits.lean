import Jos.Fs.Tree

/-! What the file system does to an image, as far as the files are concerned: nothing, a new
block behind a null pointer, or a pointer cleared and its block given back. -/

namespace Jos.Fs

open Kern Lib

variable {m m' : Lib.Image} {a b c d f g i j x : Nat}

structure SameTree (m m' : Lib.Image) : Prop where
  nblocks : nblocksOf m' = nblocksOf m
  free : ∀ {b}, b < nblocksOf m → freeBit m' b = freeBit m b
  type : ∀ {f}, Node m f → m'.word (fType f) = m.word (fType f)
  ptr : ∀ {a}, Place m a → m'.word a = m.word a

namespace SameTree

variable (h : SameTree m m')
include h

theorem slot (hf : Node m f) : slot m' f i = slot m f i := slot_congr (h.ptr (.indirect hf))

theorem blockOf (hf : Node m f) : blockOf m' f i = blockOf m f i := by
  rw [Fs.blockOf, Fs.blockOf, h.slot hf]
  cases ha : Fs.slot m f i with
  | none => rfl
  | some a => exact ptrAt_congr (h.ptr (.slot hf ha))

theorem node_iff : Node m' f ↔ Node m f := by
  constructor
  · intro hf
    induction hf with
    | root => exact .root
    | entry _ htype hb hj ih => exact .entry ih (h.type ih ▸ htype) (h.blockOf ih ▸ hb) hj
  · intro hf
    induction hf with
    | root => exact .root
    | entry hd htype hb hj ih =>
      exact .entry ih ((h.type hd).trans htype) ((h.blockOf hd).trans hb) hj

theorem place_iff : Place m' a ↔ Place m a := by
  constructor
  · intro ha
    cases ha with
    | indirect hf => exact .indirect (h.node_iff.1 hf)
    | slot hf ha => exact .slot (h.node_iff.1 hf) (h.slot (h.node_iff.1 hf) ▸ ha)
  · intro ha
    cases ha with
    | indirect hf => exact .indirect (h.node_iff.2 hf)
    | slot hf ha => exact .slot (h.node_iff.2 hf) ((h.slot hf).trans ha)

theorem owned (hm : Owned m) (hsize : ∀ {f i b}, Node m f → Fs.blockOf m f i = some b →
    i * blksize < (m'.word (fSize f)).toNat) : Owned m' where
  balanced := by
    rw [h.nblocks]
    refine hm.balanced.congr (fun x => h.place_iff) (fun x hx => ptrAt_congr (h.ptr hx)) fun y => ?_
    exact ⟨fun ⟨hlt, hfree⟩ => ⟨hlt, h.free hlt ▸ hfree⟩,
      fun ⟨hlt, hfree⟩ => ⟨hlt, (h.free hlt).trans hfree⟩⟩
  fits hf hb := by
    have hf := h.node_iff.1 hf
    exact hsize hf (h.blockOf hf ▸ hb)

end SameTree

/-- `m'` is `m` with the free block `b` behind the null pointer at `a`, all zeros. -/
structure Grows (m m' : Lib.Image) (a b : Nat) : Prop where
  place : Place m a
  null : m.word a = 0
  lo : bitmapEnd (nblocksOf m) ≤ b
  hi : b < nblocksOf m
  free : freeBit m b = true
  room : ∀ {f i}, Node m f → slot m f i = some a → i * blksize < (m.word (fSize f)).toNat
  nblocks : nblocksOf m' = nblocksOf m
  used : ∀ {x}, x < nblocksOf m → freeBit m' x = if x = b then false else freeBit m x
  type : ∀ {f}, Node m f → m'.word (fType f) = m.word (fType f)
  size : ∀ {f}, Node m f → m'.word (fSize f) = m.word (fSize f)
  ptr : ∀ {x}, Place m x → x ≠ a → m'.word x = m.word x
  link : (m'.word a).toNat = b
  zero : ∀ {x}, x / blksize = b → m' x = 0

namespace Grows

variable (h : Grows m m' a b)
include h

theorem three_le : 3 ≤ b := by
  have := h.lo
  have := h.hi
  rw [bitmapEnd] at *
  omega

theorem ptrAt_link : ptrAt m' a = some b := by
  refine ptrAt_eq_some.2 ⟨fun h0 => ?_, h.link⟩
  have hl := h.link
  have := h.three_le
  rw [h0] at hl
  have hl : 0 = b := hl
  omega

theorem word_zero (hx : x % 4 = 0) (hb : x / 4096 = b) : m'.word x = 0 := by
  refine Lib.Image.word_zero fun y hy hy' => h.zero ?_
  rw [blksize]
  omega

theorem slot_cases (hf : Node m f) (hx : slot m' f i = some x) :
    slot m f i = some x ∨ x % 4 = 0 ∧ x / 4096 = b := by
  by_cases hind : fIndirect f = a
  · obtain ⟨hi, hx⟩ | ⟨c, hc, hi, hi', hx⟩ := Fs.slot_cases hx
    · exact .inl (hx ▸ slot_direct hi)
    · rw [hind, h.ptrAt_link] at hc
      cases hc
      right
      omega
  · rw [slot_congr (h.ptr (.indirect hf) hind)] at hx
    exact .inl hx

theorem slot_kept (hf : Node m f) (hx : slot m f i = some x) : slot m' f i = some x := by
  by_cases hind : fIndirect f = a
  · obtain ⟨hi, hx'⟩ | ⟨c, hc, -⟩ := Fs.slot_cases hx
    · exact hx' ▸ slot_direct hi
    · rw [hind, ptrAt_eq_none.2 h.null] at hc
      cases hc
  · rw [slot_congr (h.ptr (.indirect hf) hind)]
    exact hx

theorem blockOf_cases (hf : Node m f) (hc : blockOf m' f i = some c) :
    blockOf m f i = some c ∨ slot m f i = some a ∧ c = b := by
  obtain ⟨x, hx, hxc⟩ := blockOf_eq_some.1 hc
  obtain hx | ⟨hx4, hxb⟩ := h.slot_cases hf hx
  · by_cases hxa : x = a
    · subst hxa
      rw [h.ptrAt_link] at hxc
      exact .inr ⟨hx, (Option.some.inj hxc).symm⟩
    · rw [ptrAt_congr (h.ptr (.slot hf hx) hxa)] at hxc
      exact .inl (blockOf_eq_some.2 ⟨x, hx, hxc⟩)
  · rw [ptrAt_eq_none.2 (h.word_zero hx4 hxb)] at hxc
    cases hxc

theorem blockOf_kept (hf : Node m f) (hc : blockOf m f i = some c) : blockOf m' f i = some c := by
  obtain ⟨x, hx, hxc⟩ := blockOf_eq_some.1 hc
  refine blockOf_eq_some.2 ⟨x, h.slot_kept hf hx, ?_⟩
  rw [ptrAt_congr (h.ptr (.slot hf hx) ?_), hxc]
  rintro rfl
  rw [ptrAt_eq_none.2 h.null] at hxc
  cases hxc

theorem node (hf : Node m f) : Node m' f := by
  induction hf with
  | root => exact .root
  | entry hd htype hb hj ih => exact .entry ih ((h.type hd).trans htype) (h.blockOf_kept hd hb) hj

theorem node_cases (hf : Node m' f) : Node m f ∨ f % 256 = 0 ∧ f / 4096 = b := by
  induction hf with
  | root => exact .inl .root
  | @entry d i c j hd htype hb hj ih =>
    obtain hd | ⟨hd256, hdb⟩ := ih
    · obtain hb | ⟨-, rfl⟩ := h.blockOf_cases hd hb
      · exact .inl (.entry hd (h.type hd ▸ htype) hb hj)
      · right
        rw [blkfiles, blksize, filesize] at hj
        rw [blksize, filesize]
        omega
    · have hzero : m'.word (fType d) = 0 := h.word_zero (by rw [fType]; omega) (by rw [fType]; omega)
      rw [hzero] at htype
      exact absurd htype (by decide)

theorem slot_new (hf : f % 256 = 0) (hb : f / 4096 = b) (hx : slot m' f i = some x) :
    x % 4 = 0 ∧ x / 4096 = b := by
  obtain ⟨hi, rfl⟩ | ⟨c, hc, -⟩ := Fs.slot_cases hx
  · omega
  · rw [ptrAt_eq_none.2 (h.word_zero (by rw [fIndirect]; omega) (by rw [fIndirect]; omega))] at hc
    cases hc

theorem place_cases (hx : Place m' x) : Place m x ∨ m'.word x = 0 := by
  cases hx with
  | indirect hf =>
    obtain hf | ⟨hf, hb⟩ := h.node_cases hf
    · exact .inl (.indirect hf)
    · exact .inr (h.word_zero (by rw [fIndirect]; omega) (by rw [fIndirect]; omega))
  | slot hf hx =>
    obtain hf | ⟨hf, hb⟩ := h.node_cases hf
    · exact (h.slot_cases hf hx).imp (.slot hf) fun hx => h.word_zero hx.1 hx.2
    · have := h.slot_new hf hb hx
      exact .inr (h.word_zero this.1 this.2)

theorem place' (hx : Place m x) : Place m' x := by
  cases hx with
  | indirect hf => exact .indirect (h.node hf)
  | slot hf hx => exact .slot (h.node hf) (h.slot_kept hf hx)

theorem owned (hm : Owned m) : Owned m' where
  balanced := by
    have hlo := h.lo
    rw [h.nblocks]
    refine hm.balanced.link (a := a) (b := b) h.place (ptrAt_eq_none.2 h.null) (fun hb => ?_)
      (Nat.not_lt.2 hlo) (fun x hx => h.place' hx) h.ptrAt_link
      (fun x hx hxa => ptrAt_congr (h.ptr hx hxa)) (fun x hx hx' => ?_) fun y => ?_
    · have := hb.2
      rw [h.free] at this
      cases this
    · exact ptrAt_eq_none.2 ((h.place_cases hx).resolve_left hx')
    · by_cases hy : y = b
      · subst hy
        refine ⟨fun _ => .inl rfl, fun _ => ⟨h.hi, ?_⟩⟩
        rw [h.used h.hi, if_pos rfl]
      · constructor
        · rintro ⟨hlt, hfree⟩
          rw [h.used hlt, if_neg hy] at hfree
          exact .inr ⟨hlt, hfree⟩
        · rintro (rfl | ⟨hlt, hfree⟩)
          · exact absurd rfl hy
          · refine ⟨hlt, ?_⟩
            rw [h.used hlt, if_neg hy]
            exact hfree
  fits hf hc := by
    obtain hf | ⟨hf, hb⟩ := h.node_cases hf
    · rw [h.size hf]
      obtain hc | ⟨ha, -⟩ := h.blockOf_cases hf hc
      · exact hm.fits hf hc
      · exact h.room hf ha
    · obtain ⟨x, hx, hxc⟩ := blockOf_eq_some.1 hc
      have := h.slot_new hf hb hx
      rw [ptrAt_eq_none.2 (h.word_zero this.1 this.2)] at hxc
      cases hxc

end Grows

/-- `m'` is `m` with the pointer at `a` cleared and its block `b` free.  Nothing can be reached
through it but the data of `b`. -/
structure Drops (m m' : Lib.Image) (a b : Nat) : Prop where
  place : Place m a
  held : ptrAt m a = some b
  leaf : ∀ {f i}, Node m f → slot m f i = some a → m.word (fType f) ≠ ftypeDir
  empty : ∀ {f i}, Node m f → fIndirect f = a → 10 ≤ i → blockOf m f i = none
  nblocks : nblocksOf m' = nblocksOf m
  freed : ∀ {x}, x < nblocksOf m → freeBit m' x = if x = b then true else freeBit m x
  type : ∀ {f}, Node m f → m'.word (fType f) = m.word (fType f)
  size : ∀ {f}, Node m f → m'.word (fSize f) = m.word (fSize f)
  ptr : ∀ {x}, Place m x → x ≠ a → m'.word x = m.word x
  null : m'.word a = 0

namespace Drops

variable (h : Drops m m' a b)
include h

theorem slot (hf : Node m f) (hx : slot m' f i = some x) : slot m f i = some x := by
  by_cases hind : fIndirect f = a
  · obtain ⟨hi, hx'⟩ | ⟨c, hc, -⟩ := Fs.slot_cases hx
    · exact hx' ▸ slot_direct hi
    · rw [hind, ptrAt_eq_none.2 h.null] at hc
      cases hc
  · rw [slot_congr (h.ptr (.indirect hf) hind)] at hx
    exact hx

theorem blockOf (hf : Node m f) (hc : blockOf m' f i = some c) : blockOf m f i = some c := by
  obtain ⟨x, hx, hxc⟩ := blockOf_eq_some.1 hc
  have hx := h.slot hf hx
  refine blockOf_eq_some.2 ⟨x, hx, ?_⟩
  rw [← ptrAt_congr (h.ptr (.slot hf hx) ?_), hxc]
  rintro rfl
  rw [ptrAt_eq_none.2 h.null] at hxc
  cases hxc

theorem blockOf_kept (hf : Node m f) (ha : Fs.slot m f i ≠ some a) (hc : Fs.blockOf m f i = some c) :
    Fs.blockOf m' f i = some c := by
  obtain ⟨x, hx, hxc⟩ := blockOf_eq_some.1 hc
  have hxa : x ≠ a := fun hxa => ha (hxa ▸ hx)
  refine blockOf_eq_some.2 ⟨x, ?_, (ptrAt_congr (h.ptr (.slot hf hx) hxa)).trans hxc⟩
  by_cases hind : fIndirect f = a
  · obtain ⟨hi, hx'⟩ | ⟨c', -, hi, -⟩ := Fs.slot_cases hx
    · exact hx' ▸ slot_direct hi
    · rw [h.empty hf hind hi] at hc
      cases hc
  · rw [slot_congr (h.ptr (.indirect hf) hind)]
    exact hx

theorem node_iff : Node m' f ↔ Node m f := by
  constructor
  · intro hf
    induction hf with
    | root => exact .root
    | entry _ htype hb hj ih => exact .entry ih (h.type ih ▸ htype) (h.blockOf ih hb) hj
  · intro hf
    induction hf with
    | root => exact .root
    | entry hd htype hb hj ih =>
      refine .entry ih ((h.type hd).trans htype) (h.blockOf_kept hd (fun ha => ?_) hb) hj
      exact h.leaf hd ha htype

theorem place' (hx : Place m' x) : Place m x := by
  cases hx with
  | indirect hf => exact .indirect (h.node_iff.1 hf)
  | slot hf hx => exact .slot (h.node_iff.1 hf) (h.slot (h.node_iff.1 hf) hx)

theorem gone (hx : Place m x) (hx' : ¬ Place m' x) : ptrAt m x = none := by
  cases hx with
  | indirect hf => exact absurd (.indirect (h.node_iff.2 hf)) hx'
  | @slot f i _ hf hs =>
    have hf' := h.node_iff.2 hf
    by_cases hind : fIndirect f = a
    · obtain ⟨hi, rfl⟩ | ⟨c, -, hi, -⟩ := Fs.slot_cases hs
      · exact absurd (.slot hf' (slot_direct hi)) hx'
      · have := h.empty hf hind hi
        rw [Fs.blockOf, hs] at this
        exact this
    · refine absurd (.slot (i := i) hf' ?_) hx'
      rw [slot_congr (h.ptr (.indirect hf) hind)]
      exact hs

theorem owned (hm : Owned m) : Owned m' where
  balanced := by
    rw [h.nblocks]
    refine hm.balanced.unlink (a := a) (b := b) h.place h.held (fun x hx => h.place' hx)
      (ptrAt_eq_none.2 h.null) (fun x hx hxa => ptrAt_congr (h.ptr (h.place' hx) hxa))
      (fun x hx _ hx' => h.gone hx hx') fun y => ?_
    constructor
    · rintro ⟨hlt, hfree⟩
      rw [h.freed hlt] at hfree
      split at hfree
      · cases hfree
      · next hy => exact ⟨hy, hlt, hfree⟩
    · rintro ⟨hy, hlt, hfree⟩
      refine ⟨hlt, ?_⟩
      rw [h.freed hlt, if_neg hy]
      exact hfree
  fits hf hc := by
    have hf := h.node_iff.1 hf
    rw [h.size hf]
    exact hm.fits hf (h.blockOf hf hc)

end Drops

end Jos.Fs
