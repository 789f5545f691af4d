import Jos.Fs.Blocks

/-! `file_set_size` on a sane server: the blocks past the new end are given back, and the
indirect block when the rest fits without it. -/

namespace Jos.Fs

open Kern Lib Cache

variable {D : Prop} {s t u : Cache} {A : Set Label} {a b c f g i j n x : Nat}

def Clears (a b : Nat) (s t : Cache) : Prop :=
  ∃ u, Writes (bitmapWord b) 4 (byteAt (s.view.word (bitmapWord b) ||| 1#32 <<< (b % 32))) s u ∧
    Writes a 4 (byteAt 0) u t

theorem Clears.of_loads (hl : Loads s t) (h : Clears a b t u) : Clears a b s u := by
  obtain ⟨v, hv, hu⟩ := h
  rw [hl.view] at hv
  exact ⟨v, hv.of_loads hl, hu⟩

theorem Up.freeBlock (h : Up D s) (hb0 : b ≠ 0) (hb : b < nblocksOf s.view) :
    Wp D (freeBlock b) s fun _ t =>
      Writes (bitmapWord b) 4 (byteAt (s.view.word (bitmapWord b) ||| 1#32 <<< (b % 32))) s t := by
  refine .bind (.require (fun _ => ?_) fun hno => absurd hb0 hno)
  have h4 := (bitmapWord_range hb).2.2
  refine .bind ((loadWord_wp h.super_mapped h4 (h.served_bitmap hb)).mono fun w u hu => ?_)
  obtain ⟨hu, rfl⟩ := hu
  have hb' : b < nblocksOf u.view := hu.view.symm ▸ hb
  exact ((h.loads hu).storeWord h4 ((h.loads hu).served_bitmap hb')).mono fun _ v hv =>
    hv.of_loads hu

theorem Owned.place_not_target {m : Lib.Image} (h : Owned m) (hf : Node m f) (ha : PlaceOf m f a)
    (hb : ptrAt m a = some b) : a / 4096 ≠ b := by
  obtain rfl | ⟨i, hi⟩ := ha
  · rintro rfl
    have hb3 := (h.ptr_range (.indirect hf) hb).1
    obtain rfl | ⟨hf256, hf3⟩ := h.aligned hf
    · rw [fIndirect] at hb3
      omega
    · have hblk : fIndirect f / 4096 = f / 4096 := by
        rw [fIndirect]
        omega
      rw [hblk] at hb
      exact h.not_indirect hf (by omega) hf hb
  · exact h.own_place_not_data hf (blockOf_eq_some.2 ⟨a, hi, hb⟩) (.inr ⟨i, hi⟩)

theorem Ready.freeBlock (h : Ready D s) (hf : Node s.view f) (ha : PlaceOf s.view f a)
    (hb : ptrAt s.view a = some b) :
    Wp D (freeBlock b) s fun _ u =>
      Wp D (storeWord a 0) u fun _ t => Clears a b s t := by
  have hplace := ha.place hf
  have hr := h.owned.ptr_block hplace hb
  have hb3 := h.owned.ptr_range hplace hb
  refine (h.up.freeBlock (by omega) hr.2.1).mono fun _ u hu => ?_
  have hup : Up D u := h.up.stage (hu.stage_of_bitmap hr.1 fun x hx => by
    rw [freeBit_or, if_neg hx])
  have hne := h.owned.place_not_target hf ha hb
  have hserved : D ∨ u.Served (a / blksize) := by
    rw [blksize]
    obtain hblk | ⟨hlt, hfree⟩ := (h.toSane.cell hplace).home
    · rw [hblk]
      exact .inr (.inl hup.mounted.mapped)
    · refine hup.served ⟨?_, ?_⟩
      · rw [hu.view, nblocksOf_congr (m := s.view) fun x hx hx' => Lib.Image.put_of_notMem ?_]
        · exact hlt
        · have := bitmapWord_range hr.2.1
          omega
      · rw [hu.view]
        exact (freeBit_or.trans (if_neg hne)).trans hfree
  exact (hup.storeWord hplace.home.1 hserved).mono fun _ v hv => ⟨u, hu, hv⟩

theorem fileFreeBlock_wp (h : Ready D s) (hf : Node s.view f) (hi : i < ndirect + nindirect) :
    Wp D (fileFreeBlock f i).run s fun _ t => blockOf s.view f i = none ∧ Loads s t ∨
      ∃ a b, slot s.view f i = some a ∧ ptrAt s.view a = some b ∧ Clears a b s t := by
  refine .bindE ((fileBlockWalk_find h hf hi).mono fun r u hr => ?_)
  obtain ⟨hu, hr⟩ := hr
  cases r with
  | error e =>
    refine .inl ⟨?_, hu⟩
    rw [blockOf, hr.2]
    rfl
  | ok p =>
    have hs : slot s.view f i = some p := hr
    have hu' := h.loads hu
    have hfu : Node u.view f := hu.view.symm ▸ hf
    have hsu : slot u.view f i = some p := hu.view.symm ▸ hs
    refine .bindL ((hu'.loadWord_place (.slot hfu hsu)).mono fun bno v hv => ?_)
    obtain ⟨hv, rfl⟩ := hv
    rw [hu.view]
    have hv' := hu.trans hv
    refine .ite (fun hne => ?_) fun h0 => .pureE (.inl ⟨?_, hv'⟩)
    · have hb : ptrAt s.view p = some (s.view.word p).toNat := if_neg hne
      have hbv : ptrAt v.view p = some (s.view.word p).toNat := hv'.view.symm ▸ hb
      have hfv : Node v.view f := hv'.view.symm ▸ hf
      have hsv : slot v.view f i = some p := hv'.view.symm ▸ hs
      refine .bindL (((h.loads hv').freeBlock hfv (.inr ⟨i, hsv⟩) hbv).mono fun _ w hw => ?_)
      exact .liftE (hw.mono fun _ z hz => .inr ⟨p, _, hs, hb, hz.of_loads hv'⟩)
    · rw [blockOf, hs]
      exact ptrAt_eq_none.2 (not_not.1 h0)

section Drops

variable {m m' : Lib.Image}

theorem Drops.blockOf_slot (h : Drops m m' a b) (hm : Owned m) (hf : Node m f)
    (ha : Fs.slot m f i = some a) :
    Fs.blockOf m' f j = if j = i then none else Fs.blockOf m f j := by
  split
  · next hj =>
    subst hj
    cases hc : Fs.blockOf m' f j with
    | none => rfl
    | some c =>
      obtain ⟨x, hx, hxc⟩ := blockOf_eq_some.1 hc
      have hxa := h.slot hf hx
      rw [ha] at hxa
      cases hxa
      rw [ptrAt_eq_none.2 h.null] at hxc
      cases hxc
  · next hj =>
    cases hc : Fs.blockOf m f j with
    | some c => exact h.blockOf_kept hf (fun hs => hj (hm.slot_inj hf hf hs ha).2) hc
    | none =>
      cases hc' : Fs.blockOf m' f j with
      | none => rfl
      | some c =>
        rw [h.blockOf hf hc'] at hc
        cases hc

theorem Drops.blockOf_indirect (h : Drops m m' (fIndirect f) b) (hm : Owned m) (hf : Node m f) :
    Fs.blockOf m' f j = Fs.blockOf m f j := by
  cases hc : Fs.blockOf m f j with
  | some c => exact h.blockOf_kept hf (fun hs => hm.slot_ne_indirect hf hs hf rfl) hc
  | none =>
    cases hc' : Fs.blockOf m' f j with
    | none => rfl
    | some c =>
      rw [h.blockOf hf hc'] at hc
      cases hc

end Drops

def Shrinks (f n : Nat) (s t : Cache) : Prop := ∃ u, Trims f n s u ∧ Loads u t

theorem Trims.of_loads (hl : Loads s t) (h : Trims f n t u) : Trims f n s u := by
  induction h with
  | loads hl' => exact .loads (hl.trans hl')
  | slot _ hi ha hb hu hv ih => exact .slot ih hi ha hb hu hv
  | indirect _ hn hb hnone hu hv ih => exact .indirect ih hn hb hnone hu hv

namespace Shrinks

theorem loads (h : Shrinks f n s t) (hl : Loads t u) : Shrinks f n s u := by
  obtain ⟨v, hv, ht⟩ := h
  exact ⟨v, hv, ht.trans hl⟩

variable (h : Shrinks f n s t) (hs : Ready D s) (hf : Node s.view f)
  (htype : s.view.word (fType f) ≠ ftypeDir)
include h

theorem slot (hi : n ≤ i) (ha : slot t.view f i = some a) (hb : ptrAt t.view a = some b)
    (hc : Clears a b t u) : Shrinks f n s u := by
  obtain ⟨v, hv, ht⟩ := h
  obtain ⟨w, hw, hu⟩ := hc.of_loads ht
  rw [ht.view] at ha hb
  exact ⟨u, .slot hv hi ha hb hw hu, .refl⟩

theorem indirect (hn : n ≤ ndirect) (hb : ptrAt t.view (fIndirect f) = some b)
    (hnone : ∀ i, n ≤ i → blockOf t.view f i = none) (hc : Clears (fIndirect f) b t u) :
    Shrinks f n s u := by
  obtain ⟨v, hv, ht⟩ := h
  obtain ⟨w, hw, hu⟩ := hc.of_loads ht
  rw [ht.view] at hb hnone
  exact ⟨u, .indirect hv hn hb hnone hw hu, .refl⟩

include hs hf htype

theorem trim : Trim f n s.view t.view ∧ Stage s t := by
  obtain ⟨v, hv, ht⟩ := h
  obtain ⟨htrim, hst⟩ := hv.trim hs.toSane hf htype
  exact ⟨ht.view.symm ▸ htrim, hst.trans ht.stage⟩

theorem trimmed : Trimmed f n s.view t.view := (h.trim hs hf htype).1.trimmed hs.owned hf htype

theorem ready : Ready D t where
  coherent := (h.trim hs hf htype).2.coherent hs.coherent
  mounted := (h.trim hs hf htype).2.mounted hs.coherent hs.mounted
  owned := (h.trimmed hs hf htype).owned
  sized g hg := by
    have ht := h.trimmed hs hf htype
    rw [ht.size (ht.node.1 hg)]
    exact hs.sized g (ht.node.1 hg)
  live := hs.live.imp id fun hl => by
    have ht := h.trimmed hs hf htype
    refine ⟨(h.trim hs hf htype).2.ample hs.coherent hs.mounted hl.1, fun g hg hdir => ?_⟩
    have hg := ht.node.1 hg
    rw [ht.type hg] at hdir
    rw [ht.size hg]
    exact hl.2 g hg hdir

end Shrinks

theorem Clears.view (h : Clears a b s t) (hs : Ready D s) (ha : Place s.view a)
    (hb : ptrAt s.view a = some b) : t.view = dropped s.view a b := by
  obtain ⟨u, hu, hv⟩ := h
  exact (stage_drop hs.owned hs.mounted.bitmapEnd_le ha hb hu hv).1

theorem freeBlocks_wp {is : List Nat} (hs : Ready D s) (hf : Node s.view f)
    (htype : s.view.word (fType f) ≠ ftypeDir) (h : Shrinks f n s t)
    (his : ∀ i ∈ is, n ≤ i ∧ i < ndirect + nindirect) :
    Wp D (freeBlocks f is) t fun _ u => Shrinks f n s u ∧
      ∀ j, blockOf u.view f j = if j ∈ is then none else blockOf t.view f j := by
  induction is generalizing t with
  | nil => exact .pure ⟨h, fun j => by rw [if_neg List.not_mem_nil]⟩
  | cons i is ih =>
    have ht := h.ready hs hf htype
    have htrim := h.trimmed hs hf htype
    have hft := htrim.node.2 hf
    obtain ⟨hni, hi⟩ := his i List.mem_cons_self
    refine .bind ((fileFreeBlock_wp ht hft hi).mono fun _ u hu => ?_)
    have hnext : Shrinks f n s u ∧
        ∀ j, blockOf u.view f j = if j = i then none else blockOf t.view f j := by
      obtain ⟨hnone, hl⟩ | ⟨a, b, ha, hb, hc⟩ := hu
      · refine ⟨h.loads hl, fun j => ?_⟩
        rw [hl.view]
        split
        · next hj => rw [hj, hnone]
        · rfl
      · refine ⟨h.slot hni ha hb hc, fun j => ?_⟩
        rw [hc.view ht (.slot hft ha) hb]
        exact (ht.owned.drops_slot hft ((htrim.type hf).symm ▸ htype) ha hb).blockOf_slot ht.owned
          hft ha
    refine (ih hnext.1 fun j hj => his j (List.mem_cons_of_mem i hj)).mono fun _ v hv => ?_
    refine ⟨hv.1, fun j => ?_⟩
    rw [hv.2 j, hnext.2 j]
    by_cases hji : j = i
    · subst hji
      rw [if_pos rfl, ite_self, if_pos List.mem_cons_self]
    · rw [if_neg hji]
      refine if_congr ?_ rfl rfl
      rw [List.mem_cons]
      exact ⟨.inr, fun h => h.resolve_left hji⟩

theorem freeIndirect_wp (hs : Ready D s) (hf : Node s.view f)
    (htype : s.view.word (fType f) ≠ ftypeDir) (h : Shrinks f n s t) (hn : n ≤ ndirect)
    (hnone : ∀ i, n ≤ i → blockOf t.view f i = none) :
    Wp D (freeIndirect f) t fun _ u => Shrinks f n s u ∧
      (∀ j, blockOf u.view f j = blockOf t.view f j) ∧ ptrAt u.view (fIndirect f) = none := by
  have ht := h.ready hs hf htype
  have hft := (h.trimmed hs hf htype).node.2 hf
  refine .bind ((ht.loadWord_place (.indirect hft)).mono fun ind u hu => ?_)
  obtain ⟨hu, rfl⟩ := hu
  refine .ite (fun hne => ?_) fun h0 => ?_
  · have hb : ptrAt t.view (fIndirect f) = some (t.view.word (fIndirect f)).toNat := if_neg hne
    have hbu : ptrAt u.view (fIndirect f) = some (t.view.word (fIndirect f)).toNat :=
      hu.view.symm ▸ hb
    have hfu : Node u.view f := hu.view.symm ▸ hft
    refine .bind (((ht.loads hu).freeBlock hfu (.inl rfl) hbu).mono fun _ v hv => ?_)
    refine hv.mono fun _ w hw => ?_
    have hw := hw.of_loads hu
    have hd := ht.owned.drops_indirect hft hb fun i hi => hnone i (Nat.le_trans hn hi)
    refine ⟨h.indirect hn hb hnone hw, fun j => ?_, ?_⟩
    · rw [hw.view ht (.indirect hft) hb]
      exact hd.blockOf_indirect ht.owned hft
    · rw [hw.view ht (.indirect hft) hb]
      exact ptrAt_eq_none.2 hd.null
  · refine .pure ⟨h.loads hu, fun j => by rw [hu.view], ?_⟩
    rw [hu.view]
    exact ptrAt_eq_none.2 (not_not.1 h0)

theorem sizeBlocks_toNat {w : Word} (h : w.toNat ≤ maxfilesize) :
    (sizeBlocks w).toNat = blocksFor w.toNat := by
  have h4095 : (4095 : Word).toNat = 4095 := rfl
  have h4096 : (4096 : Word).toNat = 4096 := rfl
  rw [maxfilesize, ndirect, nindirect, blksize] at h
  have hadd : (w + 4095).toNat = w.toNat + 4095 := by
    rw [BitVec.toNat_add, h4095]
    omega
  have hmsb : (w + 4095).msb = false := by
    rw [BitVec.msb_eq_false_iff_two_mul_lt, hadd]
    omega
  rw [sizeBlocks, BitVec.sdiv_eq, hmsb, show (4096 : Word).msb = false from rfl, BitVec.udiv_eq,
    BitVec.toNat_udiv, hadd, h4096, blocksFor]

theorem blocksFor_le (h : n ≤ maxfilesize) : blocksFor n ≤ ndirect + nindirect := by
  rw [maxfilesize, ndirect, nindirect, blksize] at h
  rw [blocksFor, ndirect, nindirect, blksize]
  omega

theorem Owned.blockOf_past {m : Lib.Image} (h : Owned m) (hf : Node m f)
    (hj : blocksFor (m.word (fSize f)).toNat ≤ j) : blockOf m f j = none := by
  cases hb : blockOf m f j with
  | none => rfl
  | some b =>
    have := h.fits hf hb
    rw [blocksFor] at hj
    rw [blksize] at this
    omega

theorem fileTruncateBlocks_wp {w : Word} (hs : Ready D s) (hf : Node s.view f)
    (htype : s.view.word (fType f) ≠ ftypeDir) (hn : (sizeBlocks w).toNat = n) :
    Wp D (fileTruncateBlocks f w) s fun _ t => Shrinks f n s t ∧
      (∀ j, blockOf t.view f j = if j < n then blockOf s.view f j else none) ∧
      (n ≤ ndirect → ptrAt t.view (fIndirect f) = none) := by
  refine .bind ((hs.loadWord_node hf (by decide) (by decide)).mono fun size u hu => ?_)
  obtain ⟨hu, rfl⟩ := hu
  have hsize := hs.sized f hf
  have hold := sizeBlocks_toNat hsize
  have hle := blocksFor_le hsize
  rw [fSize] at hold hle
  dsimp only
  rw [hn, hold]
  have hsh : Shrinks f n s u := ⟨u, .loads hu, .refl⟩
  refine .bind ((freeBlocks_wp hs hf htype hsh fun i hi => ?_).mono fun _ v hv => ?_)
  · obtain ⟨hi, hi'⟩ := List.mem_range'_1.1 hi
    exact ⟨hi, by omega⟩
  have hblock : ∀ j, blockOf v.view f j = if j < n then blockOf s.view f j else none := by
    intro j
    rw [hv.2 j, hu.view, if_congr List.mem_range'_1 rfl rfl]
    by_cases hj : j < n
    · rw [if_pos hj, if_neg (by omega)]
    · rw [if_neg hj]
      by_cases hj' : j < blocksFor (s.view.word (f + 128)).toNat
      · rw [if_pos (by omega)]
      · rw [hs.owned.blockOf_past hf (Nat.not_lt.1 hj'), ite_self]
  refine .ite (fun hn' => ?_) fun hn' => .pure ⟨hv.1, hblock, fun h => absurd h hn'⟩
  refine (freeIndirect_wp hs hf htype hv.1 hn' fun i hi => ?_).mono fun _ z hz => ?_
  · rw [hblock i, if_neg (Nat.not_lt.2 hi)]
  · exact ⟨hz.1, fun j => (hz.2.1 j).trans (hblock j), fun _ => hz.2.2⟩

structure Resized (f : Nat) (w : Word) (m m' : Lib.Image) : Prop where
  size : m'.word (fSize f) = w
  block : ∀ j, blockOf m' f j = if j < blocksFor w.toNat then blockOf m f j else none
  byte : ∀ x, fileByte m' f x = if x / blksize < blocksFor w.toNat then fileByte m f x else 0
  larger : (m.word (fSize f)).toNat ≤ w.toNat → m' = m.putWord (fSize f) w

theorem Trim.resized {m m' : Lib.Image} {w : Word} (h : Trim f (blocksFor w.toNat) m m')
    (hm : Owned m) (hf : Node m f) (htype : m.word (fType f) ≠ ftypeDir)
    (hblock : ∀ j, blockOf m' f j = if j < blocksFor w.toNat then blockOf m f j else none)
    (hlarger : (m.word (fSize f)).toNat ≤ w.toNat → m' = m) :
    Resized f w m (m'.putWord (fSize f) w) := by
  have ht := h.trimmed hm hf htype
  have hst := ht.owned.sameTree_size (w := w) (ht.node.2 hf)
  have hblock' : ∀ j, blockOf (m'.putWord (fSize f) w) f j =
      if j < blocksFor w.toNat then blockOf m f j else none := fun j =>
    (hst.blockOf (ht.node.2 hf)).trans (hblock j)
  refine ⟨Lib.Image.word_putWord, hblock', fun x => ?_, fun hle => by rw [hlarger hle]⟩
  split
  · next hx => exact ht.fileByte_resize hm hf hf htype (.inr hx)
  · next hx => exact fileByte_of_none ((hblock' _).trans (if_neg hx))

theorem slt_iff_of_sized {w w' : Word} (h : w.toNat ≤ maxfilesize) (h' : w'.toNat ≤ maxfilesize) :
    w.slt w' = true ↔ w.toNat < w'.toNat := by
  rw [maxfilesize, ndirect, nindirect, blksize] at h h'
  rw [BitVec.slt_iff_toInt_lt, BitVec.toInt_eq_toNat_of_lt (by omega),
    BitVec.toInt_eq_toNat_of_lt (by omega)]
  omega

theorem Ready.node_block (h : Ready D s) (hf : Node s.view f) : f / blksize < nblocksOf s.view := by
  obtain rfl | ⟨-, x, hx, hxf⟩ := hf.home
  · have := h.mounted.two_lt
    rw [blksize]
    omega
  · exact (h.owned.ptr_block hx hxf).2.1

theorem Shrinks.of_loads (hl : Loads s t) (h : Shrinks f n t u) : Shrinks f n s u := by
  obtain ⟨v, hv, hu⟩ := h
  exact ⟨v, hv.of_loads hl, hu⟩

/-- What `file_set_size` does for any size: `u` has the blocks cut off that it takes for past the
end, and `t` has the new size as well. -/
structure SetsSize (D : Prop) (f : Nat) (w : Word) (s u t : Cache) : Prop where
  shrinks : Shrinks f (sizeBlocks w).toNat s u
  kept : w.slt (s.view.word (fSize f)) = false → Loads s u
  cut : w.slt (s.view.word (fSize f)) = true →
    (∀ j, blockOf u.view f j = if j < (sizeBlocks w).toNat then blockOf s.view f j else none) ∧
      ((sizeBlocks w).toNat ≤ ndirect → ptrAt u.view (fIndirect f) = none)
  store : ∃ v, Writes (fSize f) 4 (byteAt w) u v ∧ t = v.flushed (f / blksize)
  view : t.view = u.view.putWord (fSize f) w
  up : Up D t

theorem fileSetSize_any {w : Word} (hs : Ready D s) (hf : Node s.view f)
    (htype : s.view.word (fType f) ≠ ftypeDir) :
    Wp D (fileSetSize f w) s fun _ t => ∃ u, SetsSize D f w s u t := by
  refine .bind ((hs.loadWord_node hf (by decide) (by decide)).mono fun size u hu => ?_)
  obtain ⟨hu, rfl⟩ := hu
  have hready := hs.loads hu
  have hfu : Node u.view f := hu.view.symm ▸ hf
  have htypeu : u.view.word (fType f) ≠ ftypeDir := hu.view.symm ▸ htype
  have hcut : Wp D (if w.slt (s.view.word (f + 128)) then fileTruncateBlocks f w else return ()) u
      fun _ t => Shrinks f (sizeBlocks w).toNat s t ∧
        (w.slt (s.view.word (fSize f)) = false → Loads s t) ∧
        (w.slt (s.view.word (fSize f)) = true →
          (∀ j, blockOf t.view f j =
            if j < (sizeBlocks w).toNat then blockOf s.view f j else none) ∧
          ((sizeBlocks w).toNat ≤ ndirect → ptrAt t.view (fIndirect f) = none)) := by
    refine .ite (fun hsl => ?_) fun hsl => .pure ⟨⟨u, .loads hu, .refl⟩, fun _ => hu, fun h => ?_⟩
    · refine (fileTruncateBlocks_wp hready hfu htypeu rfl).mono fun _ v hv => ?_
      rw [hu.view] at hv
      refine ⟨hv.1.of_loads hu, fun h => ?_, fun _ => hv.2⟩
      rw [fSize, hsl] at h
      cases h
    · exact absurd h hsl
  refine .bind (hcut.mono fun _ t ht => ?_)
  obtain ⟨hsh, hkept, hcut⟩ := ht
  have ht := hsh.ready hs hf htype
  have hft := (hsh.trimmed hs hf htype).node.2 hf
  have hf4 : (f + 128) % 4 = 0 := by
    obtain rfl | ⟨hf, -⟩ := ht.owned.aligned hft
    all_goals omega
  refine .bind ((ht.up.storeWord hf4 (ht.served_node hft (by decide))).mono fun _ v hv => ?_)
  have hr := ht.owned.field_range hft (y := 128) (by omega)
  have hup : Up D v := ht.up.stage (hv.stage_of_disjoint (.inr hr.1) hr.2 ht.mounted.bitmapEnd_le)
  have hnv : nblocksOf v.view = nblocksOf t.view := by
    rw [hv.view]
    exact (ht.owned.sameTree_size hft).nblocks
  refine (hup.flushBlock (hnv.symm ▸ ht.node_block hft) rfl).mono fun _ z hz => ?_
  subst hz
  refine ⟨t, hsh, hkept, hcut, ⟨v, hv, rfl⟩, ?_, hup.stage stage_flushed⟩
  rw [view_flushed hup.coherent, hv.view]
  rfl

theorem fileSetSize_wp {w : Word} (hs : Ready D s) (hf : Node s.view f)
    (htype : s.view.word (fType f) ≠ ftypeDir) (hw : w.toNat ≤ maxfilesize) :
    Wp D (fileSetSize f w) s fun _ t => Step (.resize f) s t ∧ Resized f w s.view t.view := by
  refine (fileSetSize_any hs hf htype).mono fun _ t ht => ?_
  obtain ⟨u, ht⟩ := ht
  have hsh := ht.shrinks
  have hkept := ht.kept
  have hcut := ht.cut
  have hlt := slt_iff_of_sized hw (hs.sized f hf)
  rw [sizeBlocks_toNat hw] at hsh hcut
  have hblock : ∀ j, blockOf u.view f j =
      if j < blocksFor w.toNat then blockOf s.view f j else none := by
    intro j
    cases hsl : w.slt (s.view.word (fSize f)) with
    | true => exact (hcut hsl).1 j
    | false =>
      rw [(hkept hsl).view]
      split
      · rfl
      · next hj =>
        refine hs.owned.blockOf_past hf ?_
        rw [← Bool.not_eq_true, hlt] at hsl
        rw [blocksFor] at hj ⊢
        omega
  have hlarger : (s.view.word (fSize f)).toNat ≤ w.toNat → u.view = s.view := by
    intro hle
    refine (hkept ?_).view
    rw [← Bool.not_eq_true, hlt]
    omega
  have hend : ∀ j b, blockOf u.view f j = some b → j < blocksFor w.toNat := by
    intro j b hb
    rw [hblock j] at hb
    by_contra hj
    rw [if_neg hj] at hb
    cases hb
  refine ⟨?_, ?_⟩
  · obtain ⟨t₀, htrims, hl⟩ := hsh
    obtain ⟨v, hv, rfl⟩ := ht.store
    exact .resize hf htype hw htrims (fun j b hb => hend j b (hl.view.symm ▸ hb)) (hv.of_loads hl)
  · rw [ht.view]
    exact (hsh.trim hs hf htype).1.resized hs.owned hf htype hblock hlarger

end Jos.Fs
