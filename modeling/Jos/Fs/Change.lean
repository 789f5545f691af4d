import Jos.Fs.Writes

/-! The changes the file system makes to an image, one file at a time, and what each of them
keeps. -/

namespace Jos.Fs

open Kern Lib

inductive Label
  | quiet
  | grow (f : Nat)
  | name (f : Nat)
  | enlarge (f : Nat)
  | data (f : Nat)
  | resize (f : Nat)

def PlaceOf (m : Lib.Image) (f a : Nat) : Prop := a = fIndirect f ∨ ∃ i, slot m f i = some a

def blocksFor (size : Nat) : Nat := (size + 4095) / 4096

inductive Trim (f n : Nat) : Lib.Image → Lib.Image → Prop
  | refl {m} : Trim f n m m
  | slot {m m' i a b} : Trim f n m m' → n ≤ i → slot m' f i = some a → ptrAt m' a = some b →
      Trim f n m (dropped m' a b)
  | indirect {m m' b} : Trim f n m m' → n ≤ ndirect → ptrAt m' (fIndirect f) = some b →
      (∀ i, n ≤ i → blockOf m' f i = none) → Trim f n m (dropped m' (fIndirect f) b)

inductive Edit : Label → Lib.Image → Lib.Image → Prop
  | same {m} : Edit .quiet m m
  | grow {m f a b} : Node m f → PlaceOf m f a → m.word a = 0 → bitmapEnd (nblocksOf m) ≤ b →
      b < nblocksOf m → freeBit m b = true →
      (∀ i, slot m f i = some a → i * blksize < (m.word (fSize f)).toNat) →
      Edit (.grow f) m (grown m a b)
  | name {m f n bs} : Node m f → f ≠ sRoot → m f = 0 → n ≤ maxnamelen →
      Edit (.name f) m (m.put f n bs)
  | enlarge {m d} : Node m d → m.word (fType d) = ftypeDir →
      (m.word (fSize d)).toNat + blksize ≤ maxfilesize →
      Edit (.enlarge d) m (m.putWord (fSize d) (m.word (fSize d) + 4096))
  | data {m f i b off n bs} : Node m f → m.word (fType f) ≠ ftypeDir → blockOf m f i = some b →
      off + n ≤ blksize → Edit (.data f) m (m.put (b * blksize + off) n bs)
  /-- A new size for a regular file, which has no block past its end then. -/
  | resize {m m' f w} : Node m f → m.word (fType f) ≠ ftypeDir → w.toNat ≤ maxfilesize →
      Trim f (blocksFor w.toNat) m m' →
      (∀ i b, blockOf m' f i = some b → i < blocksFor w.toNat) →
      Edit (.resize f) m (m'.putWord (fSize f) w)

variable {m m' : Lib.Image} {a b c d f g i j k n x : Nat} {l : Label}

section Places

theorem PlaceOf.place (hf : Node m f) (h : PlaceOf m f a) : Place m a := by
  obtain rfl | ⟨i, hi⟩ := h
  · exact .indirect hf
  · exact .slot hf hi

theorem Owned.placeOf_inj (h : Owned m) (hf : Node m f) (hg : Node m g) (ha : PlaceOf m f a)
    (ha' : PlaceOf m g a) : f = g := by
  obtain rfl | ⟨i, hi⟩ := ha
  · obtain hx | ⟨j, hj⟩ := ha'
    · rw [fIndirect, fIndirect] at hx
      omega
    · exact absurd rfl (h.slot_ne_indirect hg hj hf)
  · obtain rfl | ⟨j, hj⟩ := ha'
    · exact absurd rfl (h.slot_ne_indirect hf hi hg)
    · exact (h.slot_inj hf hg hi hj).1

end Places

structure Trimmed (f n : Nat) (m m' : Lib.Image) : Prop where
  owned : Owned m'
  nblocks : nblocksOf m' = nblocksOf m
  node : ∀ {g}, Node m' g ↔ Node m g
  type : ∀ {g}, Node m g → m'.word (fType g) = m.word (fType g)
  size : ∀ {g}, Node m g → m'.word (fSize g) = m.word (fSize g)
  slot : ∀ {i a}, slot m' f i = some a → slot m f i = some a
  block : ∀ {g i c}, Node m g → blockOf m' g i = some c → blockOf m g i = some c
  kept : ∀ {g i c}, Node m g → g ≠ f ∨ i < n → blockOf m g i = some c → blockOf m' g i = some c
  reserved : ∀ {x}, x < bitmapEnd (nblocksOf m) → x < nblocksOf m → freeBit m' x = freeBit m x
  bytes : ∀ {x}, x < 8192 ∨ bitmapEnd (nblocksOf m) * 4096 ≤ x →
    (∀ a, PlaceOf m f a → x < a ∨ a + 4 ≤ x) → m' x = m x

theorem Trimmed.drop {m₀ : Lib.Image} (h : Trimmed f n m₀ m) (hf : Node m f) (ha : PlaceOf m f a)
    (hd : Drops m (dropped m a b) a b) (hlo : bitmapEnd (nblocksOf m) ≤ b) (hhi : b < nblocksOf m)
    (hplace : PlaceOf m₀ f a) (hkept : ∀ i, i < n → Fs.slot m f i ≠ some a) :
    Trimmed f n m₀ (dropped m a b) where
  owned := hd.owned h.owned
  nblocks := hd.nblocks.trans h.nblocks
  node := hd.node_iff.trans h.node
  type hg := (hd.type (h.node.2 hg)).trans (h.type hg)
  size hg := (hd.size (h.node.2 hg)).trans (h.size hg)
  slot hs := h.slot (hd.slot hf hs)
  block hg hc := h.block hg (hd.blockOf (h.node.2 hg) hc)
  kept := by
    intro g i c hg hgi hc
    have hc := h.kept hg hgi hc
    refine hd.blockOf_kept (h.node.2 hg) (fun hs => ?_) hc
    obtain hne | hi := hgi
    · exact hne (h.owned.placeOf_inj (h.node.2 hg) hf (.inr ⟨i, hs⟩) ha)
    · have hgf := h.owned.placeOf_inj (h.node.2 hg) hf (.inr ⟨i, hs⟩) ha
      subst hgf
      exact hkept i hi hs
  reserved := by
    intro x hx hlt
    rw [hd.freed (h.nblocks ▸ hlt), if_neg, h.reserved hx hlt]
    rw [h.nblocks] at hlo
    omega
  bytes := by
    intro x hx hout
    have hr := bitmapWord_range hhi
    rw [h.nblocks] at hr
    have hxa := hout a hplace
    rw [← h.bytes hx hout, dropped, Lib.Image.putWord, Lib.Image.put_of_notMem (by omega), Lib.Image.putWord,
      Lib.Image.put_of_notMem (by omega)]

theorem Owned.drops_slot (hm : Owned m) (hf : Node m f) (htype : m.word (fType f) ≠ ftypeDir)
    (hs : slot m f i = some a) (hb : ptrAt m a = some b) : Drops m (dropped m a b) a b := by
  refine hm.drops (.slot hf hs) hb (fun hg ha => ?_) fun hg ha => ?_
  · rw [(hm.slot_inj hg hf ha hs).1]
    exact htype
  · exact absurd ha.symm (hm.slot_ne_indirect hf hs hg)

theorem Owned.drops_indirect (hm : Owned m) (hf : Node m f) (hb : ptrAt m (fIndirect f) = some b)
    (hnone : ∀ i, ndirect ≤ i → blockOf m f i = none) :
    Drops m (dropped m (fIndirect f) b) (fIndirect f) b := by
  refine hm.drops (.indirect hf) hb (fun hg ha => ?_) fun {g i} hg ha hi => ?_
  · exact absurd rfl (hm.slot_ne_indirect hg ha hf)
  · have hgf : g = f := by
      rw [fIndirect, fIndirect] at ha
      omega
    rw [hgf]
    exact hnone i hi

theorem Trim.trimmed (h : Trim f n m m') (hm : Owned m) (hf : Node m f)
    (htype : m.word (fType f) ≠ ftypeDir) : Trimmed f n m m' := by
  induction h with
  | refl =>
    exact ⟨hm, rfl, .rfl, fun _ => rfl, fun _ => rfl, fun h => h, fun _ h => h,
      fun _ _ h => h, fun _ _ => rfl,
      fun _ _ => rfl⟩
  | @slot m' i a b _ hi hs hb ih =>
    have hf' := ih.node.2 hf
    have hr := ih.owned.ptr_block (.slot hf' hs) hb
    have hd := ih.owned.drops_slot hf' ((ih.type hf).symm ▸ htype) hs hb
    refine ih.drop hf' (.inr ⟨i, hs⟩) hd hr.1 hr.2.1 ?_ fun j hj hja => ?_
    · exact .inr ⟨i, ih.slot hs⟩
    · have := (ih.owned.slot_inj hf' hf' hs hja).2
      omega
  | @indirect m' b _ hn hb hnone ih =>
    have hf' := ih.node.2 hf
    have hr := ih.owned.ptr_block (.indirect hf') hb
    have hd := ih.owned.drops_indirect hf' hb fun i hi => hnone i (Nat.le_trans hn hi)
    refine ih.drop hf' (.inl rfl) hd hr.1 hr.2.1 (.inl rfl) fun j _ hja => ?_
    exact ih.owned.slot_ne_indirect hf' hja hf' rfl

structure Carries (l : Label) (m m' : Lib.Image) : Prop where
  owned : Owned m'
  nblocks : nblocksOf m' = nblocksOf m
  reserved : ∀ {x}, x < bitmapEnd (nblocksOf m) → x < nblocksOf m → freeBit m' x = false →
    freeBit m x = false
  kept : ∀ {x}, x < bitmapEnd (nblocksOf m) → x < nblocksOf m → freeBit m x = false →
    freeBit m' x = false
  node : ∀ {g}, Node m g → Node m' g
  fresh : ∀ {g}, Node m' g → Node m g ∨ m'.word (fType g) = 0 ∧ m'.word (fSize g) = 0
  type : ∀ {g}, Node m g → m'.word (fType g) = m.word (fType g)
  size : ∀ {g}, Node m g → l ≠ .enlarge g → l ≠ .resize g →
    m'.word (fSize g) = m.word (fSize g)
  enlarged : ∀ {g}, Node m g → l = .enlarge g → m'.word (fSize g) = m.word (fSize g) + 4096 ∧
    (m.word (fSize g)).toNat + blksize ≤ maxfilesize
  resized : ∀ {g}, Node m g → l = .resize g → m.word (fType g) ≠ ftypeDir ∧
    (m'.word (fSize g)).toNat ≤ maxfilesize
  block : ∀ {g i b}, Node m g → l ≠ .resize g → blockOf m g i = some b → blockOf m' g i = some b

theorem SameTree.carries (h : SameTree m m') (hm : Owned m)
    (hsize : ∀ {g}, Node m g → m'.word (fSize g) = m.word (fSize g))
    (hl : ∀ g, l ≠ .enlarge g) (hl' : ∀ g, l ≠ .resize g) : Carries l m m' where
  owned := h.owned hm fun hg hb => by
    rw [hsize hg]
    exact hm.fits hg hb
  nblocks := h.nblocks
  reserved _ hlt hfree := h.free hlt ▸ hfree
  kept _ hlt hfree := (h.free hlt).trans hfree
  node := h.node_iff.2
  fresh hg := .inl (h.node_iff.1 hg)
  type := h.type
  size hg _ _ := hsize hg
  enlarged _ he := absurd he (hl _)
  resized _ he := absurd he (hl' _)
  block hg _ hb := (h.blockOf hg).trans hb

theorem Owned.edit_grows (hm : Owned m) (hf : Node m f) (ha : PlaceOf m f a) (h0 : m.word a = 0)
    (hlo : bitmapEnd (nblocksOf m) ≤ b) (hhi : b < nblocksOf m) (hfree : freeBit m b = true)
    (hroom : ∀ i, slot m f i = some a → i * blksize < (m.word (fSize f)).toNat) :
    Grows m (grown m a b) a b := by
  refine hm.grows (ha.place hf) h0 hlo hhi hfree fun {g i} hg hs => ?_
  have hgf := hm.placeOf_inj hg hf (.inr ⟨i, hs⟩) ha
  subst hgf
  exact hroom i hs

theorem Grows.carries (h : Grows m m' a b) (hm : Owned m) (hl : ∀ g, l ≠ .enlarge g)
    (hl' : ∀ g, l ≠ .resize g) : Carries l m m' where
  owned := h.owned hm
  nblocks := h.nblocks
  reserved hx hlt hfree := by
    have := h.lo
    rwa [h.used hlt, if_neg (by omega)] at hfree
  kept hx hlt hfree := by
    have := h.lo
    rwa [h.used hlt, if_neg (by omega)]
  node := h.node
  fresh hg := by
    refine (h.node_cases hg).imp id fun hb => ?_
    rw [fType, fSize]
    exact ⟨h.word_zero (by omega) (by omega), h.word_zero (by omega) (by omega)⟩
  type := h.type
  size hg _ _ := h.size hg
  enlarged _ he := absurd he (hl _)
  resized _ he := absurd he (hl' _)
  block hg _ hb := h.blockOf_kept hg hb

theorem toNat_add_block {w : Word} (h : w.toNat + blksize ≤ maxfilesize) :
    (w + 4096).toNat = w.toNat + 4096 := by
  have hw : (4096 : Word).toNat = 4096 := rfl
  rw [blksize, maxfilesize, ndirect, nindirect, blksize] at h
  rw [BitVec.toNat_add, hw]
  omega

theorem Owned.enlarge (hm : Owned m) (hd : Node m d) (htype : m.word (fType d) = ftypeDir)
    (hle : (m.word (fSize d)).toNat + blksize ≤ maxfilesize) :
    Carries (.enlarge d) m (m.putWord (fSize d) (m.word (fSize d) + 4096)) := by
  have h := hm.sameTree_size (w := m.word (fSize d) + 4096) hd
  refine ⟨h.owned hm fun {g i b} hg hb => ?_, h.nblocks, fun _ hlt hfree => h.free hlt ▸ hfree,
    fun _ hlt hfree => (h.free hlt).trans hfree, h.node_iff.2, fun hg => .inl (h.node_iff.1 hg),
    h.type, fun hg hne _ => hm.size_putWord_of_ne hd hg fun hgd => hne (hgd ▸ rfl), ?_, nofun,
    fun hg _ hb => (h.blockOf hg).trans hb⟩
  · have hfit := hm.fits hg hb
    by_cases hgd : g = d
    · subst hgd
      rw [Lib.Image.word_putWord, toNat_add_block hle]
      omega
    · rw [hm.size_putWord_of_ne hd hg hgd]
      exact hfit
  · rintro g - ⟨⟩
    exact ⟨Lib.Image.word_putWord, hle⟩

theorem lt_of_lt_blocksFor {n : Nat} (h : i < blocksFor n) : i * blksize < n := by
  rw [blocksFor] at h
  rw [blksize]
  omega

theorem Trimmed.resize {w : Word} (ht : Trimmed f (blocksFor w.toNat) m m') (hf : Node m f)
    (htype : m.word (fType f) ≠ ftypeDir) (hle : w.toNat ≤ maxfilesize)
    (hend : ∀ i b, blockOf m' f i = some b → i < blocksFor w.toNat) :
    Carries (.resize f) m (m'.putWord (fSize f) w) := by
  have hf' := ht.node.2 hf
  have h := ht.owned.sameTree_size (w := w) hf'
  have hn : nblocksOf (m'.putWord (fSize f) w) = nblocksOf m := h.nblocks.trans ht.nblocks
  refine ⟨h.owned ht.owned fun {g i b} hg hb => ?_, hn, fun hx hlt hfree => ?_,
    fun hx hlt hfree => ?_, fun hg => h.node_iff.2 (ht.node.2 hg),
    fun hg => .inl (ht.node.1 (h.node_iff.1 hg)),
    fun hg => (h.type (ht.node.2 hg)).trans (ht.type hg), fun {g} hg _ hne => ?_, nofun, ?_,
    fun {g i b} hg hne hb => ?_⟩
  · by_cases hgf : g = f
    · subst hgf
      rw [Lib.Image.word_putWord]
      exact lt_of_lt_blocksFor (hend i b hb)
    · rw [ht.owned.size_putWord_of_ne hf' hg hgf]
      exact ht.owned.fits hg hb
  · rw [← ht.reserved hx hlt, ← h.free (ht.nblocks ▸ hlt)]
    exact hfree
  · rw [h.free (ht.nblocks ▸ hlt), ht.reserved hx hlt]
    exact hfree
  · rw [ht.owned.size_putWord_of_ne hf' (ht.node.2 hg) fun hgf => hne (hgf ▸ rfl), ht.size hg]
  · rintro g - ⟨⟩
    rw [Lib.Image.word_putWord]
    exact ⟨htype, hle⟩
  · rw [h.blockOf (ht.node.2 hg)]
    exact ht.kept hg (.inl fun hgf => hne (hgf ▸ rfl)) hb

theorem Edit.carries (h : Edit l m m') (hm : Owned m) : Carries l m m' := by
  cases h with
  | same =>
    exact SameTree.carries ⟨rfl, fun _ => rfl, fun _ => rfl, fun _ => rfl⟩ hm (fun _ => rfl) (by rintro g ⟨⟩)
      (by rintro g ⟨⟩)
  | grow hf ha h0 hlo hhi hfree hroom =>
    exact (hm.edit_grows hf ha h0 hlo hhi hfree hroom).carries hm (by rintro g ⟨⟩) (by rintro g ⟨⟩)
  | @name _ f n bs hf hne _ hn =>
    rw [maxnamelen] at hn
    have hput : ∀ x, x < f ∨ f + 128 ≤ x → m.put f n bs x = m x := fun x hx =>
      Lib.Image.put_of_notMem (by omega)
    have h := hm.sameTree_name hf hne hput
    exact h.1.carries hm h.2 (by rintro g ⟨⟩) (by rintro g ⟨⟩)
  | enlarge hd htype hle => exact hm.enlarge hd htype hle
  | @data _ f i b off n bs hf htype hb hoff =>
    have hput : ∀ x, x / 4096 ≠ b → m.put (b * blksize + off) n bs x = m x := by
      intro x hx
      rw [blksize] at hoff ⊢
      exact Lib.Image.put_of_notMem (by omega)
    have h := hm.sameTree_data hf htype hb hput
    exact h.1.carries hm h.2 (by rintro g ⟨⟩) (by rintro g ⟨⟩)
  | resize hf htype hle ht hend => exact (ht.trimmed hm hf htype).resize hf htype hle hend

/-- Directories have whole blocks only. -/
def Tidy (m : Lib.Image) : Prop :=
  ∀ f, Node m f → m.word (fType f) = ftypeDir → (m.word (fSize f)).toNat % blksize = 0

def Sized (m : Lib.Image) : Prop := ∀ f, Node m f → (m.word (fSize f)).toNat ≤ maxfilesize

theorem Carries.size_cases (h : Carries l m m') (hg : Node m g) :
    m'.word (fSize g) = m.word (fSize g) ∨ l = .enlarge g ∨ l = .resize g := by
  by_cases he : l = .enlarge g
  · exact .inr (.inl he)
  · by_cases hr : l = .resize g
    · exact .inr (.inr hr)
    · exact .inl (h.size hg he hr)

theorem Carries.sized (h : Carries l m m') (hm : Sized m) : Sized m' := by
  intro g hg
  obtain hg | ⟨-, hz⟩ := h.fresh hg
  · obtain hs | he | hr := h.size_cases hg
    · rw [hs]
      exact hm g hg
    · have := h.enlarged hg he
      rw [this.1, toNat_add_block this.2]
      exact this.2
    · exact (h.resized hg hr).2
  · rw [hz]
    exact Nat.zero_le _

theorem Carries.tidy (h : Carries l m m') (hm : Tidy m) : Tidy m' := by
  intro g hg htype
  obtain hg | ⟨hz, -⟩ := h.fresh hg
  · rw [h.type hg] at htype
    have ht := hm g hg htype
    obtain hs | he | hr := h.size_cases hg
    · rw [hs]
      exact ht
    · have := h.enlarged hg he
      rw [this.1, toNat_add_block this.2, blksize]
      rw [blksize] at ht
      omega
    · exact absurd htype (h.resized hg hr).1
  · rw [hz] at htype
    exact absurd htype (by decide)

end Jos.Fs
