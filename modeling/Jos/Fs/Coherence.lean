import Mathlib.Data.Finset.Card
import Jos.Fs.Cache

/-! The block cache keeps to one image: what a program reads through it is the last byte
written to that place, whatever has been loaded or flushed in between. -/

namespace Jos.Fs

open Kern Lib

def freeBit (m : Lib.Image) (b : Nat) : Bool := (m.word (bitmapAddr + 4 * (b / 32))).getLsbD (b % 32)

def nblocksOf (m : Lib.Image) : Nat := (m.word sNblocks).toNat

def bitmapEnd (n : Nat) : Nat := 2 + (n + 32767) / 32768

namespace Cache

variable (c : Cache)

def Mapped (b : Nat) : Prop := c.pte b &&& pteP ≠ 0

def Dirty (b : Nat) : Prop := c.pte b &&& pteD ≠ 0

instance {b : Nat} : Decidable (c.Mapped b) := inferInstanceAs (Decidable (_ ≠ _))

instance {b : Nat} : Decidable (c.Dirty b) := inferInstanceAs (Decidable (_ ≠ _))

def view : Lib.Image := fun a => if c.vaIsMapped a then c.mem a else c.disk a

structure Mounted : Prop where
  super : c.super = true
  bitmap : c.bitmap = true
  mapped : c.Mapped 1
  two_lt : 2 < nblocksOf c.view
  le_disksize : nblocksOf c.view * blksize ≤ disksize
  reserved : ∀ b, b < bitmapEnd (nblocksOf c.view) → freeBit c.view b = false

/-- The kernel has a page for every block that is not in the cache yet. -/
def Ample : Prop :=
  ((Finset.range (nblocksOf c.view)).filter fun b => c.pte b &&& pteP = 0).card ≤ c.pages

def InUse (b : Nat) : Prop := b < nblocksOf c.view ∧ freeBit c.view b = false

def Coherent : Prop := ∀ a, c.Mapped (a / blksize) → ¬ c.Dirty (a / blksize) → c.mem a = c.disk a

variable {c}

theorem vaIsMapped_iff {a : Nat} : c.vaIsMapped a = true ↔ c.Mapped (a / blksize) := by
  rw [vaIsMapped, bne_iff_ne, Cache.Mapped]

theorem vaIsDirty_iff {a : Nat} : c.vaIsDirty a = true ↔ c.Dirty (a / blksize) := by
  rw [vaIsDirty, bne_iff_ne, Dirty]

theorem view_of_mapped {a : Nat} (h : c.Mapped (a / blksize)) : c.view a = c.mem a :=
  if_pos (vaIsMapped_iff.2 h)

theorem view_of_not_mapped {a : Nat} (h : ¬ c.Mapped (a / blksize)) : c.view a = c.disk a :=
  if_neg fun hm => h (vaIsMapped_iff.1 hm)

theorem div_blksize {a x : Nat} (ha : a % 4 = 0) (h : a ≤ x) (h' : x < a + 4) :
    x / blksize = a / blksize := by
  rw [blksize]
  omega

theorem word_view {a : Nat} (ha : a % 4 = 0) (h : c.Mapped (a / blksize)) :
    c.view.word a = c.mem.word a :=
  Lib.Image.word_congr fun _ hx hx' => view_of_mapped (div_blksize ha hx hx' ▸ h)

end Cache

structure Loads (s t : Cache) : Prop where
  disk : t.disk = s.disk
  history : t.history = s.history
  super : t.super = s.super
  bitmap : t.bitmap = s.bitmap
  kept : ∀ b, s.Mapped b → t.pte b = s.pte b
  fresh : ∀ b, ¬ s.Mapped b → t.pte b = s.pte b ∨ t.Mapped b ∧ ¬ t.Dirty b
  mem : ∀ a, s.Mapped (a / blksize) → t.mem a = s.mem a
  loaded : ∀ a, ¬ s.Mapped (a / blksize) → t.Mapped (a / blksize) → t.mem a = s.disk a
  ample : s.Mounted → s.Ample → t.Ample

namespace Loads

open Cache

variable {s t u : Cache} {b : Nat}

theorem refl : Loads s s where
  disk := rfl
  history := rfl
  super := rfl
  bitmap := rfl
  kept _ _ := rfl
  fresh _ _ := .inl rfl
  mem _ _ := rfl
  loaded _ h h' := absurd h' h
  ample _ h := h

theorem mapped (h : Loads s t) (hb : s.Mapped b) : t.Mapped b := by
  rw [Cache.Mapped, h.kept b hb]
  exact hb

theorem dirty (h : Loads s t) (hb : s.Mapped b) : t.Dirty b ↔ s.Dirty b := by
  rw [Dirty, Dirty, h.kept b hb]

theorem view (h : Loads s t) : t.view = s.view := by
  funext a
  by_cases hs : s.Mapped (a / blksize)
  · rw [view_of_mapped hs, view_of_mapped (h.mapped hs), h.mem a hs]
  · rw [view_of_not_mapped hs]
    by_cases ht : t.Mapped (a / blksize)
    · rw [view_of_mapped ht, h.loaded a hs ht]
    · rw [view_of_not_mapped ht, h.disk]

theorem mounted (h : Loads s t) (hs : s.Mounted) : t.Mounted where
  super := h.super.trans hs.super
  bitmap := h.bitmap.trans hs.bitmap
  mapped := h.mapped hs.mapped
  two_lt := h.view ▸ hs.two_lt
  le_disksize := h.view ▸ hs.le_disksize
  reserved := h.view ▸ hs.reserved

theorem inUse (h : Loads s t) (hb : s.InUse b) : t.InUse b := by
  rw [Cache.InUse, h.view]
  exact hb

theorem trans (h : Loads s t) (h' : Loads t u) : Loads s u where
  disk := h'.disk.trans h.disk
  history := h'.history.trans h.history
  super := h'.super.trans h.super
  bitmap := h'.bitmap.trans h.bitmap
  kept b hb := (h'.kept b (h.mapped hb)).trans (h.kept b hb)
  fresh b hb := by
    obtain hpte | ⟨hm, hd⟩ := h.fresh b hb
    · rw [← hpte]
      exact h'.fresh b (by rwa [Cache.Mapped, hpte])
    · exact .inr ⟨h'.mapped hm, fun hu => hd ((h'.dirty hm).1 hu)⟩
  mem a ha := (h'.mem a (h.mapped ha)).trans (h.mem a ha)
  loaded a ha hu := by
    by_cases ht : t.Mapped (a / blksize)
    · rw [h'.mem a ht, h.loaded a ha ht]
    · rw [h'.loaded a ht hu, h.disk]
  ample hs ha := h'.ample (h.mounted hs) (h.ample hs ha)

theorem coherent (h : Loads s t) (hs : s.Coherent) : t.Coherent := by
  intro a hm hd
  by_cases ha : s.Mapped (a / blksize)
  · rw [h.mem a ha, h.disk]
    exact hs a ha fun hd' => hd ((h.dirty ha).2 hd')
  · rw [h.loaded a ha hm, h.disk]

end Loads

section Sectors

variable {m m' : Lib.Image} {a a' n b : Nat}

theorem moveSectors_eq (n : Nat) :
    moveSectors m m' a a' n = m.put a (sectsize * n) fun i => m' (a' + i) := by
  induction n with
  | zero => rw [moveSectors, Nat.mul_zero, Lib.Image.put_zero]
  | succ n ih =>
    rw [moveSectors, ih]
    funext x
    rw [Lib.Image.put, Lib.Image.put, Lib.Image.put, Nat.mul_succ]
    by_cases hlo : a ≤ x ∧ x < a + sectsize * n
    · rw [if_neg (by omega), if_pos hlo, if_pos (by omega)]
    · by_cases hin : a + sectsize * n ≤ x ∧ x < a + sectsize * n + sectsize
      · rw [if_pos hin, if_pos (by omega)]
        congr 1
        omega
      · rw [if_neg hin, if_neg hlo, if_neg (by omega)]

theorem sector_of_block (hb : b * blksize < disksize) :
    sectsize * lba (b * blksects) = b * blksize := by
  rw [lba, Nat.mod_eq_of_lt, blksects, sectsize, blksize]
  · omega
  · rw [blksize, disksize] at hb
    rw [blksects, blksize, sectsize]
    omega

theorem ideRead_block (hb : b * blksize < disksize) :
    ideRead m m' (b * blksects) (b * blksize) blksects =
      m'.put (b * blksize) blksize fun i => m (b * blksize + i) := by
  rw [ideRead, moveSectors_eq, sector_of_block hb]
  rfl

theorem ideWrite_block (hb : b * blksize < disksize) :
    ideWrite m m' (b * blksects) (b * blksize) blksects =
      m.put (b * blksize) blksize fun i => m' (b * blksize + i) := by
  rw [ideWrite, moveSectors_eq, sector_of_block hb]
  rfl

end Sectors

theorem and_pteSyscall_pteP (w : Word) : w &&& pteSyscall &&& pteP = w &&& pteP := by
  rw [BitVec.and_assoc]
  rfl

def Cache.loadBlock (c : Cache) (b : Nat) : Cache :=
  { c.setPte b (pteU ||| pteP ||| pteW) with
    mem := c.mem.put (b * blksize) blksize fun i => c.disk (b * blksize + i)
    pages := c.pages - 1 }

section Fault

open Cache

variable {s t : Cache} {b a n : Nat} {D : Prop} {touch : Nat → Act Unit}

theorem pte_loadBlock : (s.loadBlock b).pte b = pteU ||| pteP ||| pteW := Function.update_self _ _ _

theorem pte_loadBlock_of_ne {b' : Nat} (h : b' ≠ b) : (s.loadBlock b).pte b' = s.pte b' :=
  Function.update_of_ne h _ _

theorem mapped_loadBlock : (s.loadBlock b).Mapped b := by
  rw [Cache.Mapped, pte_loadBlock]
  decide

theorem mem_loadBlock (h : a / blksize = b) : (s.loadBlock b).mem a = s.disk a := by
  subst h
  have hlo : a / blksize * blksize ≤ a := Nat.div_mul_le_self a blksize
  have hhi : a < a / blksize * blksize + blksize := Nat.lt_div_mul_add (by decide)
  rw [loadBlock]
  dsimp only
  rw [Lib.Image.put_of_mem hlo hhi]
  congr 1
  omega

theorem mem_loadBlock_of_ne (h : a / blksize ≠ b) : (s.loadBlock b).mem a = s.mem a := by
  have hout : a < b * blksize ∨ b * blksize + blksize ≤ a := by
    rw [blksize] at h ⊢
    omega
  rw [loadBlock]
  dsimp only
  exact Lib.Image.put_of_notMem hout

theorem view_loadBlock (h : ¬ s.Mapped b) : (s.loadBlock b).view = s.view := by
  funext a
  by_cases hb : a / blksize = b
  · subst hb
    rw [view_of_mapped mapped_loadBlock, view_of_not_mapped h, mem_loadBlock rfl]
  · have hiff : (s.loadBlock b).Mapped (a / blksize) ↔ s.Mapped (a / blksize) := by
      rw [Cache.Mapped, Cache.Mapped, pte_loadBlock_of_ne hb]
    by_cases hm : s.Mapped (a / blksize)
    · rw [view_of_mapped hm, view_of_mapped (hiff.2 hm), mem_loadBlock_of_ne hb]
    · rw [view_of_not_mapped hm, view_of_not_mapped fun h => hm (hiff.1 h)]
      rfl

theorem ample_loadBlock (h : ¬ s.Mapped b) (hb : b < nblocksOf s.view) (hs : s.Ample) :
    (s.loadBlock b).Ample := by
  rw [Ample, view_loadBlock h]
  have hmem : b ∈ (Finset.range (nblocksOf s.view)).filter fun b => s.pte b &&& pteP = 0 :=
    Finset.mem_filter.2 ⟨Finset.mem_range.2 hb, not_not.1 h⟩
  have hsub : (Finset.range (nblocksOf s.view)).filter
      (fun b' => (s.loadBlock b).pte b' &&& pteP = 0) ⊆
      ((Finset.range (nblocksOf s.view)).filter fun b => s.pte b &&& pteP = 0).erase b := by
    intro x hx
    obtain ⟨hlt, hx⟩ := Finset.mem_filter.1 hx
    have hne : x ≠ b := by
      rintro rfl
      exact mapped_loadBlock hx
    rw [pte_loadBlock_of_ne hne] at hx
    exact Finset.mem_erase.2 ⟨hne, Finset.mem_filter.2 ⟨hlt, hx⟩⟩
  have hle := Finset.card_le_card hsub
  rw [Finset.card_erase_of_mem hmem] at hle
  have hpages : (s.loadBlock b).pages = s.pages - 1 := rfl
  rw [Ample] at hs
  omega

theorem loads_loadBlock (h : ¬ s.Mapped b) (hb : s.super = true → b < nblocksOf s.view) :
    Loads s (s.loadBlock b) where
  disk := rfl
  history := rfl
  super := rfl
  bitmap := rfl
  kept b' hb' := pte_loadBlock_of_ne fun hbb => h (hbb ▸ hb')
  fresh b' hb' := by
    by_cases hbb : b' = b
    · subst hbb
      refine .inr ⟨mapped_loadBlock, ?_⟩
      rw [Dirty, pte_loadBlock]
      decide
    · exact .inl (pte_loadBlock_of_ne hbb)
  mem a ha := mem_loadBlock_of_ne fun hab => h (hab ▸ ha)
  loaded a ha ha' := by
    by_cases hab : a / blksize = b
    · exact mem_loadBlock hab
    · rw [Cache.Mapped, pte_loadBlock_of_ne hab] at ha'
      exact absurd ha' ha
  ample hs ha := ample_loadBlock h (hb hs.super) ha

/-- How many faults inside one another an access to block `b` may take. -/
def rank (b : Nat) : Nat := if b = 2 then 2 else if b < 32768 then 3 else 4

def Reaches (n : Nat) (s : Cache) (b : Nat) : Prop :=
  1 ≤ n ∧ (s.Mapped b ∨ s.Mounted ∧ s.Ample ∧ s.InUse b ∧ rank b ≤ n)

theorem mul_div_blksize (b : Nat) : b * blksize / blksize = b := Nat.mul_div_cancel b (by decide)

theorem touchAt_mapped (hn : D ∨ 1 ≤ n) (h : s.Mapped b) : Wp D (touchAt n b) s fun _ t => t = s := by
  cases n with
  | zero => exact hn.resolve_right (by decide)
  | succ n =>
    refine .bind (.get (.ite (fun _ => .pure rfl) fun hm => ?_))
    rw [vaIsMapped_iff, mul_div_blksize] at hm
    exact absurd h hm

theorem loadVia_sNblocks (hn : D ∨ 1 ≤ n) (h : s.Mapped 1) :
    Wp D (loadVia (touchAt n) sNblocks) s fun w t => t = s ∧ w.toNat = nblocksOf s.view := by
  refine .bind ((touchAt_mapped hn h).mono fun _ t ht => .bind (.get (.pure ⟨ht, ?_⟩)))
  rw [ht, nblocksOf, word_view (by decide) h]

theorem loadVia_wp (ha : a % 4 = 0)
    (ht : Wp D (touch (a / blksize)) s fun _ t => Loads s t ∧ t.Mapped (a / blksize)) :
    Wp D (loadVia touch a) s fun w t => Loads s t ∧ w = s.view.word a := by
  refine .bind (ht.mono fun _ t h => ?_)
  refine .bind (.get (.pure ⟨h.1, ?_⟩))
  rw [← word_view ha h.2, h.1.view]

theorem pastEndVia_wp (hn : D ∨ 1 ≤ n) (hs : s.super = true → s.Mapped 1) :
    Wp D (pastEndVia (touchAt n) b) s fun bad t =>
      t = s ∧ (bad = false → s.super = true → b < nblocksOf s.view) ∧
        (b < nblocksOf s.view → bad = false) := by
  refine .bind (.get (.ite (fun h => ?_) fun h => ?_))
  · refine .bind ((loadVia_sNblocks hn (hs h)).mono fun w t ht => .pure ⟨ht.1, ?_, ?_⟩)
    · intro hbad _
      have := of_decide_eq_false hbad
      omega
    · intro hlt
      exact decide_eq_false (by omega)
  · exact .pure ⟨rfl, fun _ h' => absurd h' h, fun _ => rfl⟩

theorem bitmap_block (b : Nat) : (bitmapAddr + 4 * (b / 32)) / blksize = 2 + b / 32768 := by
  rw [bitmapAddr, blksize]
  omega

theorem blockIsFreeVia_wp (hn : D ∨ 1 ≤ n) (hs : s.super = true → s.Mapped 1)
    (ht : s.super = true → b < nblocksOf s.view → Wp D (touchAt n (2 + b / 32768)) s
      fun _ u => Loads s u ∧ u.Mapped (2 + b / 32768)) :
    Wp D (blockIsFreeVia (touchAt n) b) s fun free t => Loads s t ∧
      free = (s.super && decide (b < nblocksOf s.view) && freeBit s.view b) := by
  refine .bind (.get (.ite (fun h => ?_) fun h => ?_))
  · refine .bind ((loadVia_sNblocks hn (hs h)).mono fun w t hw => ?_)
    obtain ⟨rfl, hw⟩ := hw
    refine .ite (fun hlt => .pure ⟨.refl, ?_⟩) fun hlt => ?_
    · rw [decide_eq_false (by omega), Bool.and_false, Bool.false_and]
    · have ht := ht h (by omega)
      rw [← bitmap_block] at ht
      refine .bind ((loadVia_wp ?_ ht).mono fun w' u h' => .pure ⟨h'.1, ?_⟩)
      · rw [bitmapAddr, blksize]
        omega
      · rw [h, decide_eq_true (by omega), h'.2, Bool.true_and, Bool.true_and, freeBit]
  · refine .pure ⟨.refl, ?_⟩
    rw [Bool.eq_false_of_not_eq_true h, Bool.false_and, Bool.false_and]

theorem sysPageAlloc_wp {perm : Word} (h : D ∨ s.pages ≠ 0) :
    Wp D (sysPageAlloc b perm) s fun _ t => t = { s.setPte b perm with
      mem := s.mem.put (b * blksize) blksize fun _ => 0, pages := s.pages - 1 } :=
  .bind (.get (.bind (.require (fun _ => .modify rfl) fun hp => h.resolve_right hp)))

theorem Cache.Ample.pages_ne_zero (h : s.Ample) (hb : b < nblocksOf s.view) (hm : ¬ s.Mapped b) :
    s.pages ≠ 0 := by
  have hmem : b ∈ (Finset.range (nblocksOf s.view)).filter fun b => s.pte b &&& pteP = 0 :=
    Finset.mem_filter.2 ⟨Finset.mem_range.2 hb, not_not.1 hm⟩
  have hpos := Finset.card_pos.2 ⟨b, hmem⟩
  rw [Ample] at h
  omega

theorem put_put {m : Lib.Image} {f g : Nat → Byte} : (m.put a n f).put a n g = m.put a n g := by
  funext x
  by_cases hx : a ≤ x ∧ x < a + n
  · rw [Lib.Image.put_of_mem hx.1 hx.2, Lib.Image.put_of_mem hx.1 hx.2]
  · rw [Lib.Image.put_of_notMem (by omega), Lib.Image.put_of_notMem (by omega), Lib.Image.put_of_notMem (by omega)]

theorem setPte_fill (hb : b * blksize < disksize)
    (ht : t = { s.setPte b (pteU ||| pteP ||| pteW) with
      mem := s.mem.put (b * blksize) blksize fun _ => 0, pages := s.pages - 1 }) :
    (t.fill b (ideRead t.disk t.mem (b * blksects) (b * blksize) blksects)).setPte b
      ((t.fill b (ideRead t.disk t.mem (b * blksects) (b * blksize) blksects)).pte b &&&
        pteSyscall) = s.loadBlock b := by
  have hpte : Function.update (Function.update t.pte b (t.pte b ||| pteD)) b
      (Function.update t.pte b (t.pte b ||| pteD) b &&& pteSyscall) =
      Function.update s.pte b (pteU ||| pteP ||| pteW) := by
    subst ht
    rw [Function.update_self, setPte]
    dsimp only
    rw [Function.update_self, Function.update_idem, Function.update_idem]
    rfl
  have hmem : ideRead t.disk t.mem (b * blksects) (b * blksize) blksects =
      s.mem.put (b * blksize) blksize fun i => s.disk (b * blksize + i) := by
    have hm : t.mem = s.mem.put (b * blksize) blksize fun _ => 0 := by rw [ht]
    have hd : t.disk = s.disk := by
      rw [ht]
      rfl
    rw [ideRead_block hb, hm, hd, put_put]
  rw [setPte, fill, hmem]
  dsimp only
  rw [hpte, ht]
  rfl

theorem two_le_rank (b : Nat) : 2 ≤ rank b := by
  rw [rank]
  split_ifs
  all_goals decide

theorem reaches_bitmap (hload : Loads s (s.loadBlock b)) (hs : s.Mounted) (ha : s.Ample)
    (hb : s.InUse b) (hn : rank b ≤ n + 1) : Reaches n (s.loadBlock b) (2 + b / 32768) := by
  have h2 := two_le_rank b
  refine ⟨by omega, ?_⟩
  by_cases hb2 : b = 2
  · subst hb2
    exact .inl mapped_loadBlock
  · have hlt := hb.1
    have htwo := hs.two_lt
    have hle := hs.le_disksize
    rw [blksize, disksize] at hle
    refine .inr ⟨hload.mounted hs, hload.ample hs ha, hload.inUse ⟨?_, hs.reserved _ ?_⟩, ?_⟩
    · omega
    · rw [bitmapEnd]
      omega
    · rw [rank, if_neg hb2] at hn
      rw [rank]
      split at hn
      · rw [if_pos (by omega)]
        omega
      · rw [if_neg (by omega), if_pos (by omega)]
        omega

theorem touchAt_wp : ∀ {s : Cache} {b : Nat}, (s.super = true → s.Mapped 1) → D ∨ Reaches n s b →
    Wp D (touchAt n b) s fun _ t => Loads s t ∧ t.Mapped b := by
  induction n with
  | zero =>
    intro s b _ h
    exact h.resolve_right fun hr => absurd hr.1 (by decide)
  | succ n ih =>
    intro s b hs h
    refine .bind (.get (.ite (fun hm => .pure ⟨.refl, ?_⟩) fun hm => ?_))
    all_goals rw [vaIsMapped_iff, mul_div_blksize] at hm
    · exact hm
    have h : D ∨ s.Mounted ∧ s.Ample ∧ s.InUse b ∧ rank b ≤ n + 1 :=
      h.imp id fun hr => hr.2.resolve_left hm
    have hn : D ∨ 1 ≤ n := h.imp id fun hr => by
      have := two_le_rank b
      omega
    rw [bcPgfault, mul_div_blksize]
    refine .bind (.require (fun hd => ?_) fun hd => h.resolve_right fun hr => hd ?_)
    rotate_left
    · exact Nat.lt_of_lt_of_le (Nat.mul_lt_mul_of_pos_right hr.2.2.1.1 (by decide)) hr.1.le_disksize
    refine .bind ((pastEndVia_wp hn hs).mono fun bad t hbad => ?_)
    obtain ⟨rfl, hlt, hbad⟩ := hbad
    refine .bind (.require (fun hb => ?_) fun hb => h.resolve_right fun hr => hb (hbad hr.2.2.1.1))
    have hpages : D ∨ t.pages ≠ 0 := h.imp id fun hr => hr.2.1.pages_ne_zero hr.2.2.1.1 hm
    refine .bind ((sysPageAlloc_wp hpages).mono fun _ u hu => ?_)
    refine .bind (.modify (.bind (.get (.bind (.modify (.bind (.get ?_)))))))
    rw [setPte_fill hd hu]
    have hload : Loads t (t.loadBlock b) := loads_loadBlock hm (hlt hb)
    -- the handler looks the block up in the bitmap after it has mapped it
    have hfree : Wp D (if (t.loadBlock b).bitmap = true then blockIsFreeVia (touchAt n) b
        else return false) (t.loadBlock b) fun free v => Loads (t.loadBlock b) v ∧
          (t.InUse b → free = false) := by
      refine .ite (fun _ => ?_) fun _ => .pure ⟨.refl, fun _ => rfl⟩
      refine (blockIsFreeVia_wp hn (fun h => hload.mapped (hs h)) fun hsup hlt => ?_).mono ?_
      · exact ih (fun h => hload.mapped (hs h)) (h.imp id fun hr =>
          reaches_bitmap hload hr.1 hr.2.1 hr.2.2.1 hr.2.2.2)
      · rintro free v ⟨hv, hfree⟩
        refine ⟨hv, fun huse => ?_⟩
        rw [hfree, hload.view, huse.2, Bool.and_false]
    refine .bind (hfree.mono fun free v hv => ?_)
    refine .require (fun _ => ⟨hload.trans hv.1, hv.1.mapped mapped_loadBlock⟩) fun hf =>
      h.resolve_right fun hr => hf (hv.2 hr.2.2.1)

theorem blockIsFreeVia_mapped {P : Nat → Prop} (hs : s.Mounted)
    (ht : ∀ b, Wp True (touchAt n b) s fun _ t => ∀ x, t.Mapped x → P x)
    (hP : ∀ x, s.Mapped x → P x) :
    Wp True (blockIsFreeVia (touchAt n) b) s fun _ t => ∀ x, t.Mapped x → P x := by
  refine .bind (.get (.ite (fun _ => ?_) fun _ => .pure hP))
  refine .bind ((loadVia_sNblocks (.inl trivial) hs.mapped).mono fun w t hw => ?_)
  obtain ⟨rfl, -⟩ := hw
  refine .ite (fun _ => .pure hP) fun _ => ?_
  exact .bind (.bind ((ht _).mono fun _ u hu => .bind (.get (.pure (.pure hu)))))

/-- An access that comes back was to a block in the cache or in use, and so was each block it
has loaded. -/
theorem touchAt_inUse (hs : s.Mounted) : Wp True (touchAt n b) s fun _ t =>
    (s.Mapped b ∨ s.InUse b) ∧ ∀ x, t.Mapped x → s.Mapped x ∨ s.InUse x := by
  induction n generalizing s b with
  | zero => exact trivial
  | succ n ih =>
    refine .bind (.get (.ite (fun hm => .pure ⟨?_, fun _ => .inl⟩) fun hm => ?_))
    all_goals rw [vaIsMapped_iff, mul_div_blksize] at hm
    · exact .inl hm
    rw [bcPgfault, mul_div_blksize]
    refine .bind (.require (fun hd => ?_) fun _ => trivial)
    refine .bind ((pastEndVia_wp (.inl trivial) fun _ => hs.mapped).mono fun bad t hbad => ?_)
    obtain ⟨rfl, hlt, -⟩ := hbad
    refine .bind (.require (fun hb => ?_) fun _ => trivial)
    have hlt := hlt hb hs.super
    refine .bind ((sysPageAlloc_wp (.inl trivial)).mono fun _ u hu => ?_)
    refine .bind (.modify (.bind (.get (.bind (.modify (.bind (.get ?_)))))))
    rw [setPte_fill hd hu]
    have hload : Loads t (t.loadBlock b) := loads_loadBlock hm fun _ => hlt
    have hfree := blockIsFreeVia_wp (.inl trivial) (n := n) (b := b) (fun _ => hload.mapped hs.mapped)
      fun _ _ => touchAt_wp (fun _ => hload.mapped hs.mapped) (.inl trivial)
    have hmapped := blockIsFreeVia_mapped (b := b) (hload.mounted hs)
      (fun b => (ih (b := b) (hload.mounted hs)).mono fun _ _ h => h.2) fun _ => .inl
    rw [if_pos (show (t.loadBlock b).bitmap = true from hs.bitmap)]
    refine .bind ((hfree.and hmapped).mono fun free v hv => .require (fun hno => ?_) fun _ => trivial)
    obtain ⟨⟨-, hfree⟩, hv⟩ := hv
    have huse : t.InUse b := by
      rw [hload.view, show (t.loadBlock b).super = true from hs.super, decide_eq_true hlt, hno] at hfree
      exact ⟨hlt, hfree.symm⟩
    refine ⟨.inr huse, fun x hx => (hv x hx).elim (fun hx => ?_) fun hx => .inr ?_⟩
    · by_cases hxb : x = b
      · exact .inr (hxb ▸ huse)
      · rw [Cache.Mapped, pte_loadBlock_of_ne hxb] at hx
        exact .inl hx
    · rwa [Cache.InUse, hload.view] at hx

theorem rank_le (b : Nat) : rank b ≤ faultDepth := by
  rw [rank]
  split_ifs
  all_goals decide

end Fault

def Cache.Served (s : Cache) (b : Nat) : Prop := s.Mapped b ∨ s.Mounted ∧ s.Ample ∧ s.InUse b

section Primitives

open Cache

variable {s t : Cache} {a b n : Nat} {D : Prop} {f : Nat → Byte}

theorem touch_wp (hs : s.super = true → s.Mapped 1) (h : D ∨ s.Served b) :
    Wp D (touch b) s fun _ t => Loads s t ∧ t.Mapped b :=
  touchAt_wp hs (h.imp id fun hb => ⟨by decide, hb.imp id fun hb =>
    ⟨hb.1, hb.2.1, hb.2.2, rank_le b⟩⟩)

theorem Cache.Served.loads (h : s.Served b) (hl : Loads s t) : t.Served b :=
  h.imp hl.mapped fun h => ⟨hl.mounted h.1, hl.ample h.1 h.2.1, hl.inUse h.2.2⟩

theorem load_wp (hs : s.super = true → s.Mapped 1) (h : D ∨ s.Served (a / blksize)) :
    Wp D (load a) s fun v t => Loads s t ∧ v = s.view a := by
  refine .bind ((touch_wp hs h).mono fun _ t ht => .bind (.get (.pure ⟨ht.1, ?_⟩)))
  rw [← ht.1.view, view_of_mapped ht.2]

theorem loadWord_wp (hs : s.super = true → s.Mapped 1) (ha : a % 4 = 0)
    (h : D ∨ s.Served (a / blksize)) :
    Wp D (loadWord a) s fun w t => Loads s t ∧ w = s.view.word a :=
  loadVia_wp ha (touch_wp hs h)

theorem touch_all_wp (hs : s.super = true → s.Mapped 1) {bs : List Nat}
    (h : ∀ b ∈ bs, D ∨ s.Served b) :
    Wp D (bs.forM touch) s fun _ t => Loads s t ∧ ∀ b ∈ bs, t.Mapped b := by
  induction bs generalizing s with
  | nil => exact .pure ⟨.refl, fun b hb => absurd hb List.not_mem_nil⟩
  | cons b bs ih =>
    change Wp D (touch b >>= fun _ => bs.forM touch) s _
    refine .bind ((touch_wp hs (h b List.mem_cons_self)).mono fun _ t ht => ?_)
    have hs' : t.super = true → t.Mapped 1 := fun hsup => ht.1.mapped (hs (ht.1.super ▸ hsup))
    refine (ih hs' fun b' hb' => (h b' (List.mem_cons_of_mem b hb')).imp id (·.loads ht.1)).mono
      fun _ u hu => ⟨ht.1.trans hu.1, fun b' hb' => ?_⟩
    cases hb' with
    | head => exact hu.1.mapped ht.2
    | tail _ hb' => exact hu.2 b' hb'

theorem mem_blocksOf : b ∈ blocksOf a n ↔ ∃ x, a ≤ x ∧ x < a + n ∧ x / blksize = b := by
  rw [blocksOf]
  split
  · next hn => exact ⟨fun h => absurd h List.not_mem_nil, fun ⟨x, hx⟩ => by omega⟩
  · rw [List.mem_range'_1, blksize]
    constructor
    · intro h
      obtain hlt | hge := Nat.lt_or_ge a (b * 4096)
      · exact ⟨b * 4096, by omega, by omega, by omega⟩
      · exact ⟨a, by omega, by omega, by omega⟩
    · rintro ⟨x, hx⟩
      omega

def Cache.stored (c : Cache) (a n : Nat) (f : Nat → Byte) : Cache :=
  { c with
    mem := c.mem.put a n f
    pte := fun b => if b ∈ blocksOf a n then c.pte b ||| pteD else c.pte b }

theorem store_wp (hs : s.super = true → s.Mapped 1) (h : ∀ b ∈ blocksOf a n, D ∨ s.Served b) :
    Wp D (store a n f) s fun _ t => ∃ u, Loads s u ∧ (∀ b ∈ blocksOf a n, u.Mapped b) ∧
      t = u.stored a n f :=
  .bind ((touch_all_wp hs h).mono fun _ u hu => .modify ⟨u, hu.1, hu.2, rfl⟩)

theorem or_pteD_pteP (w : Word) : (w ||| pteD) &&& pteP = w &&& pteP := by
  rw [BitVec.and_or_distrib_right, (by decide : pteD &&& pteP = 0#32), BitVec.or_zero]

theorem or_pteD_pteD (w : Word) : (w ||| pteD) &&& pteD ≠ 0 := by
  intro h
  have hbit := congrArg (fun w : Word => w.getLsbD 6) h
  simp [pteD] at hbit

theorem mapped_stored : (s.stored a n f).Mapped b ↔ s.Mapped b := by
  rw [Cache.Mapped, Cache.Mapped, stored]
  dsimp only
  split
  · rw [or_pteD_pteP]
  · rfl

theorem dirty_stored : (s.stored a n f).Dirty b ↔ b ∈ blocksOf a n ∨ s.Dirty b := by
  rw [Dirty, Dirty, stored]
  dsimp only
  split
  · next hb => exact ⟨fun _ => .inl hb, fun _ => or_pteD_pteD _⟩
  · next hb => exact ⟨.inr, fun h => h.resolve_left hb⟩

theorem view_stored (h : ∀ b ∈ blocksOf a n, s.Mapped b) :
    (s.stored a n f).view = s.view.put a n f := by
  funext x
  by_cases hx : a ≤ x ∧ x < a + n
  · have hm := h (x / blksize) (mem_blocksOf.2 ⟨x, hx.1, hx.2, rfl⟩)
    rw [view_of_mapped (mapped_stored.2 hm), Lib.Image.put_of_mem hx.1 hx.2]
    exact Lib.Image.put_of_mem hx.1 hx.2
  · rw [Lib.Image.put_of_notMem (by omega)]
    by_cases hm : s.Mapped (x / blksize)
    · rw [view_of_mapped hm, view_of_mapped (mapped_stored.2 hm)]
      exact Lib.Image.put_of_notMem (by omega)
    · rw [view_of_not_mapped hm, view_of_not_mapped fun h => hm (mapped_stored.1 h)]
      rfl

theorem coherent_stored (hs : s.Coherent) : (s.stored a n f).Coherent := by
  intro x hm hd
  have hout : ¬ (a ≤ x ∧ x < a + n) := fun hx =>
    hd (dirty_stored.2 (.inl (mem_blocksOf.2 ⟨x, hx.1, hx.2, rfl⟩)))
  have hkept : (s.stored a n f).mem x = s.mem x := Lib.Image.put_of_notMem (by omega)
  rw [hkept]
  exact hs x (mapped_stored.1 hm) fun h => hd (dirty_stored.2 (.inr h))

def Cache.flushed (c : Cache) (b : Nat) : Cache :=
  if c.Mapped b ∧ c.Dirty b then
    let disk := c.disk.put (b * blksize) blksize fun i => c.mem (b * blksize + i)
    { c.setPte b (c.pte b &&& pteSyscall) with disk, history := disk :: c.history }
  else c

theorem flushBlock_wp (h : D ∨ a < disksize) :
    Wp D (flushBlock a) s fun _ t => t = s.flushed (a / blksize) := by
  refine .bind (.require (fun ha => .bind (.get (.ite (fun hc => ?_) fun hc => .pure ?_))) fun ha =>
    h.resolve_right ha)
  all_goals rw [Bool.and_eq_true, vaIsMapped_iff, vaIsDirty_iff, mul_div_blksize] at hc
  · refine .bind (.modify (.modify ?_))
    have hb : a / blksize * blksize < disksize :=
      Nat.lt_of_le_of_lt (Nat.div_mul_le_self a blksize) ha
    rw [flushed, if_pos hc, ideWrite_block hb]
    rfl
  · rw [flushed, if_neg hc]

theorem mem_flushed : (s.flushed b).mem = s.mem := by
  rw [flushed]
  split
  · rfl
  · rfl

theorem super_flushed : (s.flushed b).super = s.super := by
  rw [flushed]
  split
  · rfl
  · rfl

theorem bitmap_flushed : (s.flushed b).bitmap = s.bitmap := by
  rw [flushed]
  split
  · rfl
  · rfl

theorem mapped_flushed {b' : Nat} : (s.flushed b).Mapped b' ↔ s.Mapped b' := by
  rw [flushed]
  split
  · rw [Cache.Mapped, Cache.Mapped, setPte]
    dsimp only
    by_cases hb : b' = b
    · subst hb
      rw [Function.update_self, and_pteSyscall_pteP]
    · rw [Function.update_of_ne hb]
  · rfl

theorem disk_flushed_of_ne (h : a / blksize ≠ b) : (s.flushed b).disk a = s.disk a := by
  rw [flushed]
  split
  · have hout : a < b * blksize ∨ b * blksize + blksize ≤ a := by
      rw [blksize] at h ⊢
      omega
    dsimp only
    exact Lib.Image.put_of_notMem hout
  · rfl

theorem disk_flushed (hs : s.Coherent) (h : a / blksize = b) : (s.flushed b).disk a = s.view a := by
  subst h
  rw [flushed]
  split
  · next hc =>
    have hlo : a / blksize * blksize ≤ a := Nat.div_mul_le_self a blksize
    have hhi : a < a / blksize * blksize + blksize := Nat.lt_div_mul_add (by decide)
    dsimp only
    rw [view_of_mapped hc.1, Lib.Image.put_of_mem hlo hhi, Nat.add_sub_cancel' hlo]
  · next hc =>
    by_cases hm : s.Mapped (a / blksize)
    · rw [view_of_mapped hm]
      exact (hs a hm fun hd => hc ⟨hm, hd⟩).symm
    · rw [view_of_not_mapped hm]

theorem view_flushed (hs : s.Coherent) : (s.flushed b).view = s.view := by
  funext a
  by_cases hm : s.Mapped (a / blksize)
  · rw [view_of_mapped hm, view_of_mapped (mapped_flushed.2 hm), mem_flushed]
  · rw [view_of_not_mapped fun h => hm (mapped_flushed.1 h)]
    by_cases hb : a / blksize = b
    · exact disk_flushed hs hb
    · rw [disk_flushed_of_ne hb, view_of_not_mapped hm]

theorem coherent_flushed (hs : s.Coherent) : (s.flushed b).Coherent := by
  intro a hm hd
  rw [mem_flushed]
  have hm := mapped_flushed.1 hm
  by_cases hb : a / blksize = b
  · rw [disk_flushed hs hb, view_of_mapped hm]
  · rw [disk_flushed_of_ne hb]
    refine hs a hm fun hd' => hd ?_
    rw [flushed]
    split
    · rw [Dirty, setPte]
      dsimp only
      rwa [Function.update_of_ne hb]
    · exact hd'

theorem pages_flushed : (s.flushed b).pages = s.pages := by
  rw [flushed]
  split
  · rfl
  · rfl

theorem mounted_flushed (hc : s.Coherent) (hs : s.Mounted) : (s.flushed b).Mounted where
  super := super_flushed.trans hs.super
  bitmap := bitmap_flushed.trans hs.bitmap
  mapped := mapped_flushed.2 hs.mapped
  two_lt := view_flushed hc ▸ hs.two_lt
  le_disksize := view_flushed hc ▸ hs.le_disksize
  reserved := view_flushed hc ▸ hs.reserved

end Primitives

section Sync

open Cache

variable {s t : Cache} {a b n i : Nat} {D : Prop}

theorem superNblocks_wp (hsup : D ∨ s.super = true) (hs : s.super = true → s.Mapped 1) :
    Wp D superNblocks s fun w t => t = s ∧ s.super = true ∧ w.toNat = nblocksOf s.view :=
  .bind (.get (.bind (.require (fun h => (loadVia_sNblocks (.inr (by decide)) (hs h)).mono
    fun _ _ ht => ⟨ht.1, h, ht.2⟩) fun h => hsup.resolve_right h)))

theorem diskaddr_wp (hs : s.super = true → s.Mapped 1)
    (h : D ∨ b ≠ 0 ∧ b < nblocksOf s.view) :
    Wp D (diskaddr b) s fun addr t => t = s ∧ addr = b * blksize ∧ b ≠ 0 ∧
      (s.super = true → b < nblocksOf s.view) := by
  refine .bind (.require (fun hb => ?_) fun hb => h.resolve_right fun h => hb h.1)
  refine .bind ((pastEndVia_wp (.inr (by decide)) hs).mono fun bad t ht => ?_)
  refine .bind (.require (fun hbad => .pure ⟨ht.1, rfl, hb, ht.2.1 hbad⟩) fun hbad =>
    h.resolve_right fun h => hbad (ht.2.2 h.2))

structure Synced (i : Nat) (s t : Cache) : Prop where
  coherent : t.Coherent
  super : t.super = s.super
  mapped : ∀ b, t.Mapped b ↔ s.Mapped b
  view : t.view = s.view
  below : ∀ a, a / blksize < i → t.disk a = s.disk a
  same : ∀ a, i ≤ a / blksize → a / blksize < nblocksOf s.view → t.disk a = s.view a

theorem fsSyncFrom_wp (hsup : D ∨ s.super = true) (hs : s.super = true → s.Mapped 1)
    (hc : s.Coherent) (hle : D ∨ nblocksOf s.view * blksize ≤ disksize) (hi : i ≠ 0)
    (hn : nblocksOf s.view ≤ i + n) : Wp D (fsSyncFrom n i) s fun _ t => Synced i s t := by
  induction n generalizing s i with
  | zero =>
    exact .pure ⟨hc, rfl, fun _ => .rfl, rfl, fun _ _ => rfl, fun a ha ha' => by omega⟩
  | succ n ih =>
    refine .bind ((superNblocks_wp hsup hs).mono fun w t hw => ?_)
    obtain ⟨rfl, hsup', hw⟩ := hw
    refine .ite (fun hlt => ?_) fun hge =>
      .pure ⟨hc, rfl, fun _ => .rfl, rfl, fun _ _ => rfl, fun a ha ha' => by omega⟩
    refine .bind ((diskaddr_wp hs (.inr ⟨hi, hw ▸ hlt⟩)).mono fun addr u hu => ?_)
    obtain ⟨rfl, rfl, -⟩ := hu
    have hd : D ∨ i * blksize < disksize := hle.imp id fun h =>
      Nat.lt_of_lt_of_le (Nat.mul_lt_mul_of_pos_right (hw ▸ hlt) (by decide)) h
    refine .bind ((flushBlock_wp hd).mono fun _ v hv => ?_)
    rw [mul_div_blksize] at hv
    subst hv
    have hview := view_flushed (b := i) hc
    refine (ih (s := u.flushed i) (i := i + 1) (.inr (super_flushed.trans hsup'))
      (fun _ => mapped_flushed.2 (hs hsup')) (coherent_flushed hc) (hview ▸ hle) (by omega)
      (by rw [hview]; omega)).mono fun _ v hv => ?_
    refine ⟨hv.coherent, hv.super.trans super_flushed,
      fun b => (hv.mapped b).trans mapped_flushed, hv.view.trans hview, fun a ha => ?_,
      fun a ha ha' => ?_⟩
    · rw [hv.below a (by omega), disk_flushed_of_ne (by omega)]
    · obtain heq | hlt := Nat.eq_or_lt_of_le ha
      · rw [hv.below a (by omega), disk_flushed hc heq.symm]
      · rw [hv.same a (by omega) (by rwa [hview]), hview]

end Sync

end Jos.Fs
