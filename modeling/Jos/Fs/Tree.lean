import Jos.Fs.Coherence
import Jos.Fs.Model
import Jos.Lib.Ledger

/-! The files of an image: which structures and block pointers can be reached from the root,
and that they own the blocks in use. -/

namespace Jos.Fs

open Kern Lib

def ptrAt (m : Lib.Image) (a : Nat) : Option Nat := if m.word a = 0 then none else some (m.word a).toNat

def slot (m : Lib.Image) (f i : Nat) : Option Nat :=
  if i < ndirect then some (fDirect f i)
  else if i < ndirect + nindirect then
    (ptrAt m (fIndirect f)).map fun b => b * blksize + 4 * (i - ndirect)
  else none

def blockOf (m : Lib.Image) (f i : Nat) : Option Nat := (slot m f i).bind (ptrAt m)

/-- The file structures that can be reached: the root's, and those in the blocks of a
directory, whether they have a name or not. -/
inductive Node (m : Lib.Image) : Nat → Prop
  | root : Node m sRoot
  | entry {d i b j} : Node m d → m.word (fType d) = ftypeDir → blockOf m d i = some b →
      j < blkfiles → Node m (b * blksize + filesize * j)

inductive Place (m : Lib.Image) : Nat → Prop
  | indirect {f} : Node m f → Place m (fIndirect f)
  | slot {f i a} : Node m f → slot m f i = some a → Place m a

structure Owned (m : Lib.Image) : Prop where
  balanced : Tallied {a | Place m a} (ptrAt m) {b | b < nblocksOf m ∧ freeBit m b = false}
    {b | b < bitmapEnd (nblocksOf m)}
  fits : ∀ {f i b}, Node m f → blockOf m f i = some b → i * blksize < (m.word (fSize f)).toNat

variable {m m' : Lib.Image} {a b c d f g i j k : Nat}

theorem ptrAt_eq_some : ptrAt m a = some b ↔ m.word a ≠ 0 ∧ (m.word a).toNat = b := by
  rw [ptrAt]
  split
  · next h => exact ⟨nofun, fun hx => absurd h hx.1⟩
  · next h => exact ⟨fun hx => ⟨h, Option.some.inj hx⟩, fun hx => congrArg some hx.2⟩

theorem ptrAt_eq_none : ptrAt m a = none ↔ m.word a = 0 := by
  rw [ptrAt]
  split
  · next h => exact ⟨fun _ => h, fun _ => rfl⟩
  · next h => exact ⟨nofun, fun hx => absurd hx h⟩

theorem ptrAt_congr (h : m'.word a = m.word a) : ptrAt m' a = ptrAt m a := by
  rw [ptrAt, ptrAt, h]

theorem blockOf_eq_some : blockOf m f i = some b ↔ ∃ a, slot m f i = some a ∧ ptrAt m a = some b :=
  Option.bind_eq_some_iff

theorem slot_cases (h : slot m f i = some a) :
    (i < 10 ∧ a = f + 136 + 4 * i) ∨
      ∃ c, ptrAt m (fIndirect f) = some c ∧ 10 ≤ i ∧ i < 1034 ∧ a = c * 4096 + 4 * (i - 10) := by
  rw [slot] at h
  split_ifs at h with h1 h2
  · cases h
    exact .inl ⟨h1, rfl⟩
  · obtain ⟨c, hc, rfl⟩ := Option.map_eq_some_iff.1 h
    exact .inr ⟨c, hc, Nat.not_lt.1 h1, h2, rfl⟩

theorem slot_direct (hi : i < 10) : slot m f i = some (f + 136 + 4 * i) := if_pos hi

theorem slot_indirect (hc : ptrAt m (fIndirect f) = some c) (hi : 10 ≤ i) (hi' : i < 1034) :
    slot m f i = some (c * 4096 + 4 * (i - 10)) := by
  have hd : ¬ i < ndirect := Nat.not_lt.2 hi
  have hlt : i < ndirect + nindirect := hi'
  rw [slot, if_neg hd, if_pos hlt, hc]
  rfl

theorem slot_congr (h : m'.word (fIndirect f) = m.word (fIndirect f)) : slot m' f i = slot m f i := by
  rw [slot, slot, ptrAt_congr h]

def Aligned (f : Nat) : Prop := f = 4104 ∨ f % 256 = 0 ∧ 12288 ≤ f

theorem Aligned.field_inj {x y : Nat} (hf : Aligned f) (hg : Aligned g) (hx : 128 ≤ x) (hx' : x < 180)
    (hy : 128 ≤ y) (hy' : y < 180) (h : f + x = g + y) : f = g ∧ x = y := by
  obtain rfl | ⟨hf, hf'⟩ := hf
  all_goals
    obtain rfl | ⟨hg, hg'⟩ := hg
    all_goals omega

theorem Aligned.field_block {x : Nat} (hf : Aligned f) (hx : x < 180) (hc : 3 ≤ c) (hk : k < 1024)
    (h : f + x = c * 4096 + 4 * k) : f ≠ 4104 ∧ f / 4096 = c := by
  obtain rfl | ⟨hf, hf'⟩ := hf
  all_goals omega

namespace Owned

variable (h : Owned m)
include h

theorem ptr_range (ha : Place m a) (hb : ptrAt m a = some b) : 3 ≤ b ∧ b < nblocksOf m := by
  obtain ⟨⟨hlt, -⟩, hk⟩ := h.balanced.inUse ha hb
  have hk : ¬ b < bitmapEnd (nblocksOf m) := hk
  rw [bitmapEnd] at hk
  omega

theorem block_range (hf : Node m f) (hb : blockOf m f i = some b) : 3 ≤ b ∧ b < nblocksOf m := by
  obtain ⟨a, ha, hb⟩ := blockOf_eq_some.1 hb
  exact h.ptr_range (.slot hf ha) hb

theorem aligned (hf : Node m f) : Aligned f := by
  cases hf with
  | root => exact .inl rfl
  | entry hd _ hb _ =>
    have := h.block_range hd hb
    rw [Aligned, blksize, filesize]
    omega

theorem in_indirect (hd : Node m d) (hb : blockOf m d i = some c) (hg : Node m g)
    (hc : ptrAt m (fIndirect g) = some c) :
    g ≠ 4104 ∧ ptrAt m (fIndirect d) = some (g / 4096) := by
  obtain ⟨a, ha, hac⟩ := blockOf_eq_some.1 hb
  have hag : a = g + 176 := h.balanced.once (.slot hd ha) (.indirect hg) hac hc
  obtain ⟨hi, ha⟩ | ⟨e, he, hi, hi', ha⟩ := slot_cases ha
  · have := (h.aligned hd).field_inj (h.aligned hg) (x := 136 + 4 * i) (y := 176) (by omega)
      (by omega) (by omega) (by omega) (by omega)
    omega
  · have he3 := (h.ptr_range (.indirect hd) he).1
    obtain ⟨hne, hblk⟩ := (h.aligned hg).field_block (x := 176) (k := i - 10) (by omega) he3
      (by omega) (by omega)
    exact ⟨hne, hblk ▸ he⟩

theorem not_indirect (hf : Node m f) : f ≠ 4104 → ∀ {g}, Node m g →
    ptrAt m (fIndirect g) ≠ some (f / 4096) := by
  induction hf with
  | root => exact fun hne => absurd rfl hne
  | @entry d i b j hd htype hb hj ih =>
    intro hne g hg hc
    have hblk : (b * blksize + filesize * j) / 4096 = b := by
      rw [blkfiles, blksize, filesize] at hj
      rw [blksize, filesize]
      omega
    rw [hblk] at hc
    obtain ⟨hgr, hind⟩ := h.in_indirect hd hb hg hc
    -- the same argument once more, one level up
    cases hg with
    | root => exact hgr rfl
    | @entry d' i' b' j' hd' _ hb' hj' =>
      have hblk' : (b' * blksize + filesize * j') / 4096 = b' := by
        rw [blkfiles, blksize, filesize] at hj'
        rw [blksize, filesize]
        omega
      rw [hblk'] at hind
      obtain ⟨hdr, hind'⟩ := h.in_indirect hd' hb' hd hind
      exact ih hdr hd' hind'

theorem slot_ne_indirect (hf : Node m f) (ha : slot m f i = some a) (hg : Node m g) :
    a ≠ fIndirect g := by
  intro hag
  rw [fIndirect] at hag
  obtain ⟨hi, ha⟩ | ⟨c, hc, hi, hi', ha⟩ := slot_cases ha
  · have := (h.aligned hf).field_inj (h.aligned hg) (x := 136 + 4 * i) (y := 176) (by omega)
      (by omega) (by omega) (by omega) (by omega)
    omega
  · obtain ⟨hne, hblk⟩ := (h.aligned hg).field_block (x := 176) (k := i - 10) (by omega)
      (h.ptr_range (.indirect hf) hc).1 (by omega) (by omega)
    exact h.not_indirect hg hne hf (hblk ▸ hc)

theorem indirect_inj (hf : Node m f) (hg : Node m g) (hc : ptrAt m (fIndirect f) = some c)
    (hc' : ptrAt m (fIndirect g) = some c) : f = g := by
  have := h.balanced.once (.indirect hf) (.indirect hg) hc hc'
  rw [fIndirect, fIndirect] at this
  omega

theorem slot_inj (hf : Node m f) (hg : Node m g) (ha : slot m f i = some a)
    (ha' : slot m g j = some a) : f = g ∧ i = j := by
  obtain ⟨hi, ha⟩ | ⟨c, hc, hi, hi', ha⟩ := slot_cases ha
  · obtain ⟨hj, ha'⟩ | ⟨c', hc', hj, hj', ha'⟩ := slot_cases ha'
    · have := (h.aligned hf).field_inj (h.aligned hg) (x := 136 + 4 * i) (y := 136 + 4 * j)
        (by omega) (by omega) (by omega) (by omega) (by omega)
      omega
    · obtain ⟨hne, hblk⟩ := (h.aligned hf).field_block (x := 136 + 4 * i) (k := j - 10) (by omega)
        (h.ptr_range (.indirect hg) hc').1 (by omega) (by omega)
      exact absurd (hblk ▸ hc') (h.not_indirect hf hne hg)
  · obtain ⟨hj, ha'⟩ | ⟨c', hc', hj, hj', ha'⟩ := slot_cases ha'
    · obtain ⟨hne, hblk⟩ := (h.aligned hg).field_block (x := 136 + 4 * j) (k := i - 10) (by omega)
        (h.ptr_range (.indirect hf) hc).1 (by omega) (by omega)
      exact absurd (hblk ▸ hc) (h.not_indirect hg hne hf)
    · have hcc : c = c' := by omega
      subst hcc
      exact ⟨h.indirect_inj hf hg hc hc', by omega⟩

theorem block_inj (hf : Node m f) (hg : Node m g) (hb : blockOf m f i = some b)
    (hb' : blockOf m g j = some b) : f = g ∧ i = j := by
  obtain ⟨a, ha, hab⟩ := blockOf_eq_some.1 hb
  obtain ⟨a', ha', hab'⟩ := blockOf_eq_some.1 hb'
  have := h.balanced.once (.slot hf ha) (.slot hg ha') hab hab'
  subst this
  exact h.slot_inj hf hg ha ha'

theorem block_ne_indirect (hf : Node m f) (hb : blockOf m f i = some b) (hg : Node m g) :
    ptrAt m (fIndirect g) ≠ some b := by
  intro hc
  obtain ⟨a, ha, hab⟩ := blockOf_eq_some.1 hb
  exact h.slot_ne_indirect hf ha hg (h.balanced.once (.slot hf ha) (.indirect hg) hab hc)

end Owned

end Jos.Fs
