import Mathlib.Logic.Relation
import Jos.Fs.Change

/-! The steps of the file system: what its functions do to the cache, one file at a time, and
what every step keeps. -/

namespace Jos.Fs

open Kern Lib Cache

def Writes (a n : Nat) (f : Nat → Byte) (s t : Cache) : Prop :=
  ∃ u, Loads s u ∧ (∀ b ∈ blocksOf a n, u.Mapped b) ∧ t = u.stored a n f

inductive Trims (f n : Nat) : Cache → Cache → Prop
  | loads {s t} : Loads s t → Trims f n s t
  | slot {s t u v i a b} : Trims f n s t → n ≤ i → slot t.view f i = some a →
      ptrAt t.view a = some b →
      Writes (bitmapWord b) 4 (byteAt (t.view.word (bitmapWord b) ||| 1#32 <<< (b % 32))) t u →
      Writes a 4 (byteAt 0) u v → Trims f n s v
  | indirect {s t u v b} : Trims f n s t → n ≤ ndirect → ptrAt t.view (fIndirect f) = some b →
      (∀ i, n ≤ i → blockOf t.view f i = none) →
      Writes (bitmapWord b) 4 (byteAt (t.view.word (bitmapWord b) ||| 1#32 <<< (b % 32))) t u →
      Writes (fIndirect f) 4 (byteAt 0) u v → Trims f n s v

inductive Step : Label → Cache → Cache → Prop
  | loads {s t} : Loads s t → Step .quiet s t
  | flush {s b} : Step .quiet s (s.flushed b)
  | grow {s t u v f a b} : Node s.view f → PlaceOf s.view f a → s.view.word a = 0 →
      bitmapEnd (nblocksOf s.view) ≤ b → b < nblocksOf s.view → freeBit s.view b = true →
      (∀ i, slot s.view f i = some a → i * blksize < (s.view.word (fSize f)).toNat) →
      Writes (bitmapWord b) 4 (byteAt (s.view.word (bitmapWord b) ^^^ 1#32 <<< (b % 32))) s t →
      Writes a 4 (byteAt (BitVec.ofNat 32 b)) (t.flushed 2) u →
      Writes (b * blksize) blksize (fun _ => 0) u v → Step (.grow f) s (v.flushed b)
  | name {s t f n bs} : Node s.view f → f ≠ sRoot → s.view f = 0 → n ≤ maxnamelen →
      Writes f n bs s t → Step (.name f) s t
  | enlarge {s t d} : Node s.view d → s.view.word (fType d) = ftypeDir →
      (s.view.word (fSize d)).toNat + blksize ≤ maxfilesize →
      Writes (fSize d) 4 (byteAt (s.view.word (fSize d) + 4096)) s t → Step (.enlarge d) s t
  | data {s t f i b off n bs} : Node s.view f → s.view.word (fType f) ≠ ftypeDir →
      blockOf s.view f i = some b → off + n ≤ blksize →
      Writes (b * blksize + off) n bs s t → Step (.data f) s t
  | resize {s t u f w} : Node s.view f → s.view.word (fType f) ≠ ftypeDir →
      w.toNat ≤ maxfilesize → Trims f (blocksFor w.toNat) s t →
      (∀ i b, blockOf t.view f i = some b → i < blocksFor w.toNat) →
      Writes (fSize f) 4 (byteAt w) t u → Step (.resize f) s (u.flushed (f / blksize))

def Steps (A : Set Label) : Cache → Cache → Prop :=
  Relation.ReflTransGen fun s t => ∃ l ∈ A, Step l s t

structure Sane (s : Cache) : Prop where
  coherent : s.Coherent
  mounted : s.Mounted
  owned : Owned s.view
  sized : Sized s.view

namespace Writes

variable {a n : Nat} {bs : Nat → Byte} {s t u : Cache}

theorem of_loads (h : Loads s t) (h' : Writes a n bs t u) : Writes a n bs s u := by
  obtain ⟨v, hv, hm, rfl⟩ := h'
  exact ⟨v, h.trans hv, hm, rfl⟩

variable (h : Writes a n bs s t)
include h

theorem view : t.view = s.view.put a n bs := by
  obtain ⟨u, hu, hm, rfl⟩ := h
  rw [view_stored hm, hu.view]

theorem coherent (hs : s.Coherent) : t.Coherent := by
  obtain ⟨u, hu, -, rfl⟩ := h
  exact coherent_stored (hu.coherent hs)

theorem mapped {b : Nat} (hb : s.Mapped b) : t.Mapped b := by
  obtain ⟨u, hu, -, rfl⟩ := h
  exact mapped_stored.2 (hu.mapped hb)

theorem super : t.super = s.super := by
  obtain ⟨u, hu, -, rfl⟩ := h
  exact hu.super

theorem bitmap : t.bitmap = s.bitmap := by
  obtain ⟨u, hu, -, rfl⟩ := h
  exact hu.bitmap

theorem mounted (hs : s.Mounted) (hn : nblocksOf t.view = nblocksOf s.view)
    (hr : ∀ b, b < bitmapEnd (nblocksOf s.view) → freeBit s.view b = false →
      freeBit t.view b = false) : t.Mounted where
  super := h.super.trans hs.super
  bitmap := h.bitmap.trans hs.bitmap
  mapped := h.mapped hs.mapped
  two_lt := hn ▸ hs.two_lt
  le_disksize := hn ▸ hs.le_disksize
  reserved b hb := by
    rw [hn] at hb
    exact hr b hb (hs.reserved b hb)

theorem ample (hs : s.Mounted) (ha : s.Ample) (hn : nblocksOf t.view = nblocksOf s.view) :
    t.Ample := by
  obtain ⟨u, hu, -, rfl⟩ := h
  have hu' := hu.ample hs ha
  rw [Ample, ← hu.view] at *
  rw [hn]
  refine Nat.le_trans (Finset.card_le_card fun b hb => ?_) hu'
  obtain ⟨hlt, hb⟩ := Finset.mem_filter.1 hb
  exact Finset.mem_filter.2 ⟨hlt, not_not.1 fun hm => mapped_stored.2 hm hb⟩

end Writes

/-- The cache stays coherent and mounted, with memory for the rest. -/
structure Stage (s t : Cache) : Prop where
  coherent : s.Coherent → t.Coherent
  mounted : s.Coherent → s.Mounted → t.Mounted
  ample : s.Coherent → s.Mounted → s.Ample → t.Ample

section Stage

variable {s t u : Cache} {a b n : Nat} {bs : Nat → Byte}

theorem Stage.trans (h : Stage s t) (h' : Stage t u) : Stage s u where
  coherent hc := h'.coherent (h.coherent hc)
  mounted hc hm := h'.mounted (h.coherent hc) (h.mounted hc hm)
  ample hc hm ha := h'.ample (h.coherent hc) (h.mounted hc hm) (h.ample hc hm ha)

theorem Loads.stage (h : Loads s t) : Stage s t where
  coherent := h.coherent
  mounted _ := h.mounted
  ample _ := h.ample

theorem ample_flushed (hc : s.Coherent) (ha : s.Ample) : (s.flushed b).Ample := by
  rw [Ample, view_flushed hc, pages_flushed]
  rw [Ample] at ha
  refine Nat.le_trans (Finset.card_le_card fun x hx => ?_) ha
  obtain ⟨hlt, hx⟩ := Finset.mem_filter.1 hx
  exact Finset.mem_filter.2 ⟨hlt, not_not.1 fun hm => mapped_flushed.2 hm hx⟩

theorem stage_flushed : Stage s (s.flushed b) where
  coherent := coherent_flushed
  mounted := mounted_flushed
  ample hc _ := ample_flushed hc

theorem Writes.stage (h : Writes a n bs s t) (hn : nblocksOf t.view = nblocksOf s.view)
    (hr : ∀ b, b < bitmapEnd (nblocksOf s.view) → freeBit s.view b = false →
      freeBit t.view b = false) : Stage s t where
  coherent := h.coherent
  mounted _ hm := h.mounted hm hn hr
  ample _ hm ha := h.ample hm ha hn

theorem Writes.stage_of_disjoint (h : Writes a n bs s t) (hs : a + n ≤ 4100 ∨ 4104 ≤ a)
    (hb : a + n ≤ 8192 ∨ bitmapEnd (nblocksOf s.view) * 4096 ≤ a)
    (hle : bitmapEnd (nblocksOf s.view) ≤ nblocksOf s.view) : Stage s t := by
  refine h.stage ?_ fun b hlt hfree => ?_
  · rw [h.view]
    exact nblocksOf_congr fun x hx hx' => Lib.Image.put_of_notMem (by omega)
  · rw [h.view, freeBit_congr (Nat.lt_of_lt_of_le hlt hle) fun x hx hx' =>
      Lib.Image.put_of_notMem (by omega)]
    exact hfree

theorem Writes.stage_of_bitmap {w : Word} (h : Writes (bitmapWord b) 4 (byteAt w) s t)
    (hlo : bitmapEnd (nblocksOf s.view) ≤ b)
    (hw : ∀ x, x ≠ b → freeBit (s.view.putWord (bitmapWord b) w) x = freeBit s.view x) :
    Stage s t := by
  refine h.stage ?_ fun x hlt hfree => ?_
  · rw [h.view]
    refine nblocksOf_congr fun x hx hx' => Lib.Image.put_of_notMem ?_
    rw [bitmapWord, bitmapAddr, blksize]
    omega
  · rw [h.view]
    exact (hw x (by omega)).trans hfree

end Stage

theorem Cache.Mounted.bitmapEnd_le {s : Cache} (h : s.Mounted) :
    bitmapEnd (nblocksOf s.view) ≤ nblocksOf s.view := by
  have := h.two_lt
  rw [bitmapEnd]
  omega

section Places

variable {m : Lib.Image} {f : Nat}

theorem Owned.field_range {y : Nat} (h : Owned m) (hf : Node m f) (hy : y ≤ 176) :
    4104 ≤ f + y ∧ (f + y + 4 ≤ 8192 ∨ bitmapEnd (nblocksOf m) * 4096 ≤ f + y) := by
  obtain rfl | ⟨hf, x, hx, hxf⟩ := hf.home
  · omega
  · have := (h.ptr_block hx hxf).1
    rw [bitmapEnd] at *
    omega

end Places

section Edits

variable {s t u v : Cache} {f n a b : Nat} {l : Label}

theorem stage_drop (hm : Owned s.view) (hle : bitmapEnd (nblocksOf s.view) ≤ nblocksOf s.view)
    (ha : Place s.view a) (hb : ptrAt s.view a = some b)
    (hu : Writes (bitmapWord b) 4 (byteAt (s.view.word (bitmapWord b) ||| 1#32 <<< (b % 32))) s u)
    (hv : Writes a 4 (byteAt 0) u v) : v.view = dropped s.view a b ∧ Stage s v := by
  have huv : u.view = s.view.putWord (bitmapWord b)
      (s.view.word (bitmapWord b) ||| 1#32 <<< (b % 32)) := hu.view
  obtain ⟨hlo, hhi, -⟩ := hm.ptr_block ha hb
  have hr := hm.place_range ha
  have hn : nblocksOf u.view = nblocksOf s.view := by
    rw [huv]
    refine nblocksOf_congr fun x hx hx' => Lib.Image.put_of_notMem ?_
    have := bitmapWord_range hhi
    omega
  refine ⟨?_, (hu.stage_of_bitmap hlo fun x hx => ?_).trans
    (hv.stage_of_disjoint hr.1 (hn ▸ hr.2) (hn ▸ hle))⟩
  · rw [hv.view, huv]
    rfl
  · rw [freeBit_or, if_neg hx]

theorem Trims.trim (h : Trims f n s t) (hs : Sane s) (hf : Node s.view f)
    (htype : s.view.word (fType f) ≠ ftypeDir) : Trim f n s.view t.view ∧ Stage s t := by
  induction h with
  | loads h => exact ⟨h.view ▸ .refl, h.stage⟩
  | slot _ hi hsl hb hu hv ih =>
    obtain ⟨htrim, hst⟩ := ih
    have ht := htrim.trimmed hs.owned hf htype
    have hle := (hst.mounted hs.coherent hs.mounted).bitmapEnd_le
    obtain ⟨hview, hst'⟩ := stage_drop ht.owned hle (.slot (ht.node.2 hf) hsl) hb hu hv
    exact ⟨hview ▸ .slot htrim hi hsl hb, hst.trans hst'⟩
  | indirect _ hn hb hnone hu hv ih =>
    obtain ⟨htrim, hst⟩ := ih
    have ht := htrim.trimmed hs.owned hf htype
    have hle := (hst.mounted hs.coherent hs.mounted).bitmapEnd_le
    obtain ⟨hview, hst'⟩ := stage_drop ht.owned hle (.indirect (ht.node.2 hf)) hb hu hv
    exact ⟨hview ▸ .indirect htrim hn hb hnone, hst.trans hst'⟩

theorem stage_grow (hc : s.Coherent) (hm : s.Mounted)
    (hr : (a + 4 ≤ 4100 ∨ 4104 ≤ a) ∧ (a + 4 ≤ 8192 ∨ bitmapEnd (nblocksOf s.view) * 4096 ≤ a))
    (hlo : bitmapEnd (nblocksOf s.view) ≤ b) (hhi : b < nblocksOf s.view)
    (ht : Writes (bitmapWord b) 4 (byteAt (s.view.word (bitmapWord b) ^^^ 1#32 <<< (b % 32))) s t)
    (hu : Writes a 4 (byteAt (BitVec.ofNat 32 b)) (t.flushed 2) u)
    (hv : Writes (b * blksize) blksize (fun _ => 0) u v) :
    (v.flushed b).view = grown s.view a b ∧ Stage s (v.flushed b) := by
  have hle := hm.bitmapEnd_le
  have htv : (t.flushed 2).view = s.view.putWord (bitmapWord b)
      (s.view.word (bitmapWord b) ^^^ 1#32 <<< (b % 32)) := by
    rw [view_flushed (ht.coherent hc)]
    exact ht.view
  have hn : nblocksOf (t.flushed 2).view = nblocksOf s.view := by
    rw [htv]
    refine nblocksOf_congr fun x hx hx' => Lib.Image.put_of_notMem ?_
    have := bitmapWord_range hhi
    omega
  have hn' : nblocksOf u.view = nblocksOf s.view := by
    rw [hu.view, ← hn]
    exact nblocksOf_congr fun x hx hx' => Lib.Image.put_of_notMem (by omega)
  have hst : Stage s (t.flushed 2) := (ht.stage_of_bitmap hlo fun x hx => by
    rw [freeBit_xor, if_neg hx]).trans stage_flushed
  have hst' : Stage (t.flushed 2) u := hu.stage_of_disjoint hr.1 (hn ▸ hr.2) (hn ▸ hle)
  have hb3 : 3 ≤ b := by
    rw [bitmapEnd] at hlo
    omega
  have hst'' : Stage u v := by
    refine hv.stage_of_disjoint (.inr ?_) (.inr ?_) (hn' ▸ hle)
    · rw [blksize]
      omega
    · rw [hn', blksize]
      exact Nat.mul_le_mul_right 4096 hlo
  have hc := ((hst.trans hst').trans hst'').coherent hc
  refine ⟨?_, ((hst.trans hst').trans hst'').trans stage_flushed⟩
  rw [view_flushed hc, hv.view, hu.view, htv]
  rfl

theorem Step.edit (h : Step l s t) (hs : Sane s) : Edit l s.view t.view ∧ Stage s t := by
  have hle := hs.mounted.bitmapEnd_le
  cases h with
  | loads h => exact ⟨h.view ▸ .same, h.stage⟩
  | flush =>
    rw [view_flushed hs.coherent]
    exact ⟨.same, stage_flushed⟩
  | grow hf ha h0 hlo hhi hfree hroom ht hu hv =>
    obtain ⟨hview, hst⟩ := stage_grow hs.coherent hs.mounted (hs.owned.place_range (ha.place hf))
      hlo hhi ht hu hv
    exact ⟨hview ▸ .grow hf ha h0 hlo hhi hfree hroom, hst⟩
  | @name _ _ f n bs hf hne h0 hn hw =>
    rw [hw.view]
    refine ⟨.name hf hne h0 hn, hw.stage_of_disjoint ?_ ?_ hle⟩
    · have := hs.owned.field_range hf (y := 0) (by omega)
      omega
    · obtain hroot | ⟨-, x, hx, hxf⟩ := hf.home
      · exact absurd hroot hne
      · have := (hs.owned.ptr_block hx hxf).1
        omega
  | enlarge hd htype hmax hw =>
    have hr := hs.owned.field_range hd (y := 128) (by omega)
    rw [hw.view]
    exact ⟨.enlarge hd htype hmax, hw.stage_of_disjoint (.inr hr.1) hr.2 hle⟩
  | @data _ _ f i b off n bs hf htype hb hoff hw =>
    obtain ⟨a, ha, hab⟩ := blockOf_eq_some.1 hb
    have hlo := (hs.owned.ptr_block (.slot hf ha) hab).1
    have hb3 := (hs.owned.block_range hf hb).1
    rw [hw.view]
    refine ⟨.data hf htype hb hoff, hw.stage_of_disjoint (.inr ?_) (.inr ?_) hle⟩
    · rw [blksize]
      omega
    · rw [blksize]
      omega
  | @resize _ t' u f w hf htype hw ht hend hwr =>
    obtain ⟨htrim, hst⟩ := ht.trim hs hf htype
    have ht' := htrim.trimmed hs.owned hf htype
    have hr := ht'.owned.field_range (ht'.node.2 hf) (y := 128) (by omega)
    have hle' := (hst.mounted hs.coherent hs.mounted).bitmapEnd_le
    have hst' := hst.trans (hwr.stage_of_disjoint (.inr hr.1) hr.2 hle')
    have hview : (u.flushed (f / blksize)).view = t'.view.putWord (fSize f) w := by
      rw [view_flushed (hst'.coherent hs.coherent)]
      exact hwr.view
    exact ⟨hview ▸ .resize hf htype hw htrim hend, hst'.trans stage_flushed⟩

theorem Step.carries (h : Step l s t) (hs : Sane s) : Carries l s.view t.view :=
  (h.edit hs).1.carries hs.owned

theorem Step.sane (h : Step l s t) (hs : Sane s) : Sane t where
  coherent := (h.edit hs).2.coherent hs.coherent
  mounted := (h.edit hs).2.mounted hs.coherent hs.mounted
  owned := (h.carries hs).owned
  sized := (h.carries hs).sized hs.sized

end Edits

/-- A sane server that has all it needs to go on, unless `D` lets it panic. -/
structure Ready (D : Prop) (s : Cache) : Prop extends Sane s where
  live : D ∨ s.Ample ∧ Tidy s.view

theorem Step.ready {s t : Cache} {l : Label} {D : Prop} (h : Step l s t) (hs : Ready D s) :
    Ready D t where
  toSane := h.sane hs.toSane
  live := hs.live.imp id fun hl => ⟨(h.edit hs.toSane).2.ample hs.coherent hs.mounted hl.1,
    (h.carries hs.toSane).tidy hl.2⟩

namespace Steps

variable {s t u : Cache} {A B : Set Label} {D : Prop} {f i b : Nat} {l : Label}

theorem refl : Steps A s s := Relation.ReflTransGen.refl

theorem single (hl : l ∈ A) (h : Step l s t) : Steps A s t :=
  Relation.ReflTransGen.single ⟨l, hl, h⟩

theorem trans (h : Steps A s t) (h' : Steps A t u) : Steps A s u := Relation.ReflTransGen.trans h h'

theorem mono (hAB : A ⊆ B) (h : Steps A s t) : Steps B s t := by
  induction h with
  | refl => exact refl
  | tail _ hst ih =>
    obtain ⟨l, hl, hst⟩ := hst
    exact ih.trans (single (hAB hl) hst)

theorem loads (hl : .quiet ∈ A) (h : Loads s t) : Steps A s t := single hl (.loads h)

theorem invariant (I : Cache → Prop) (h : Steps A s t) (hs : Ready D s)
    (hstep : ∀ {l s t}, l ∈ A → Ready D s → Step l s t → I s → I t) (hi : I s) : I t := by
  suffices Ready D t ∧ I t from this.2
  induction h with
  | refl => exact ⟨hs, hi⟩
  | tail _ hst ih =>
    obtain ⟨l, hl, hst⟩ := hst
    exact ⟨hst.ready ih.1, hstep hl ih.1 hst ih.2⟩

theorem ready (h : Steps A s t) (hs : Ready D s) : Ready D t :=
  h.invariant (Ready D) hs (fun _ hs hst _ => hst.ready hs) hs

theorem node (h : Steps A s t) (hs : Ready D s) (hf : Node s.view f) : Node t.view f :=
  h.invariant (fun t => Node t.view f) hs (fun _ hs hst hf => (hst.carries hs.toSane).node hf) hf

theorem type (h : Steps A s t) (hs : Ready D s) (hf : Node s.view f) :
    t.view.word (fType f) = s.view.word (fType f) :=
  (h.invariant (fun t => Node t.view f ∧ t.view.word (fType f) = s.view.word (fType f)) hs
    (fun _ hs hst hf => ⟨(hst.carries hs.toSane).node hf.1,
      ((hst.carries hs.toSane).type hf.1).trans hf.2⟩) ⟨hf, rfl⟩).2

theorem size (h : Steps A s t) (hs : Ready D s) (hf : Node s.view f) (he : .enlarge f ∉ A)
    (hr : .resize f ∉ A) : t.view.word (fSize f) = s.view.word (fSize f) := by
  refine (h.invariant (fun t => Node t.view f ∧ t.view.word (fSize f) = s.view.word (fSize f)) hs
    (fun {l _ _} hl hs hst hf => ⟨(hst.carries hs.toSane).node hf.1, ?_⟩) ⟨hf, rfl⟩).2
  refine ((hst.carries hs.toSane).size hf.1 ?_ ?_).trans hf.2
  · rintro rfl
    exact he hl
  · rintro rfl
    exact hr hl

theorem block (h : Steps A s t) (hs : Ready D s) (hf : Node s.view f) (hr : .resize f ∉ A)
    (hb : blockOf s.view f i = some b) : blockOf t.view f i = some b := by
  refine (h.invariant (fun t => Node t.view f ∧ blockOf t.view f i = some b) hs
    (fun {l _ _} hl hs hst hf => ⟨(hst.carries hs.toSane).node hf.1, ?_⟩) ⟨hf, hb⟩).2
  refine (hst.carries hs.toSane).block hf.1 ?_ hf.2
  rintro rfl
  exact hr hl

end Steps

end Jos.Fs
