import Jos.Fs.Truncate
import Jos.Fs.Demo

/-! The pointers that `file_block_walk` hands out belong to the file and the index it was asked
for, except at the one index that its bound lets through by mistake. -/

namespace Jos.Fs

open Kern Lib Cache

variable {D : Prop} {s t u v : Cache} {m m' : Lib.Image} {a b c f g i j p x : Nat}

def OwnByte (f : Nat) (m : Lib.Image) (x : Nat) : Prop :=
  8192 ≤ x ∧ x < bitmapEnd (nblocksOf m) * 4096 ∨ (∃ a, PlaceOf m f a ∧ a ≤ x ∧ x < a + 4) ∨
    x / 4096 < nblocksOf m ∧ freeBit m (x / 4096) = true

structure Spread (f : Nat) (m m' : Lib.Image) : Prop where
  nblocks : nblocksOf m' = nblocksOf m
  free : ∀ {b}, b < nblocksOf m → freeBit m' b = true → freeBit m b = true
  place : ∀ {a}, PlaceOf m' f a → PlaceOf m f a ∨ a % 4 = 0 ∧ a / 4096 < nblocksOf m ∧
    freeBit m (a / 4096) = true
  changed : ∀ {x}, m' x ≠ m x → OwnByte f m x

theorem Spread.refl : Spread f m m := ⟨rfl, fun _ h => h, .inl, fun h => absurd rfl h⟩

theorem Spread.grown (h : Spread f m m') (ha : PlaceOf m' f a) (hhi : b < nblocksOf m')
    (hfree : freeBit m' b = true) (hx : grown m' a b x ≠ m x) : OwnByte f m x := by
  by_cases hm : m' x = m x
  · rw [h.nblocks] at hhi
    have hw := bitmapWord_range hhi
    by_cases hxw : x < bitmapWord b ∨ bitmapWord b + 4 ≤ x
    · by_cases hxa : x < a ∨ a + 4 ≤ x
      · by_cases hxb : x / 4096 = b
        · exact .inr (.inr ⟨hxb ▸ hhi, hxb ▸ h.free hhi hfree⟩)
        · exact absurd ((grown_of_notMem hxw hxa hxb).trans hm) hx
      · obtain ha | ⟨ha4, hlt, hold⟩ := h.place ha
        · exact .inr (.inl ⟨a, ha, by omega, by omega⟩)
        · have hxa : x / 4096 = a / 4096 := by omega
          exact .inr (.inr ⟨hxa ▸ hlt, hxa ▸ hold⟩)
    · exact .inl ⟨by omega, by omega⟩
  · exact h.changed hm

theorem Grows.placeOf (h : Grows m m' a b) (hf : Node m f) (hx : PlaceOf m' f x) :
    PlaceOf m f x ∨ x % 4 = 0 ∧ x / 4096 = b := by
  obtain rfl | ⟨i, hi⟩ := hx
  · exact .inl (.inl rfl)
  · exact (h.slot_cases hf hi).imp (fun hi => .inr ⟨i, hi⟩) id

theorem Steps.spread (h : Steps {.quiet, .grow f} s t) (hs : Ready D s) (hf : Node s.view f) :
    Spread f s.view t.view := by
  refine (h.invariant (fun t => Node t.view f ∧ Spread f s.view t.view) hs
    (fun {l u v} hl hu hst hi => ⟨(hst.carries hu.toSane).node hi.1, ?_⟩) ⟨hf, .refl⟩).2
  obtain ⟨hfu, hi⟩ := hi
  have hedit := (hst.edit hu.toSane).1
  obtain rfl | rfl := hl
  · rw [hedit.eq_of_quiet]
    exact hi
  generalize v.view = m' at hedit ⊢
  cases hedit with
  | grow _ ha h0 hlo hhi hfree hroom =>
    have hg := hu.owned.edit_grows hfu ha h0 hlo hhi hfree hroom
    refine ⟨hg.nblocks.trans hi.nblocks, fun {x} hx hfx => ?_, fun {x} hx => ?_,
      hi.grown ha hhi hfree⟩
    · rw [hg.used (hi.nblocks.symm ▸ hx)] at hfx
      split at hfx
      · cases hfx
      · exact hi.free hx hfx
    · obtain hx | ⟨hx4, rfl⟩ := hg.placeOf hfu hx
      · exact hi.place hx
      · exact .inr ⟨hx4, hi.nblocks ▸ hhi, hi.free (hi.nblocks ▸ hhi) hfree⟩

theorem Steps.slot_kept (h : Steps {.quiet, .grow g} s t) (hs : Ready D s) (hf : Node s.view f)
    (ha : slot s.view f i = some a) : slot t.view f i = some a := by
  refine (h.invariant (fun t => Node t.view f ∧ slot t.view f i = some a) hs
    (fun {l u v} hl hu hst hi => ⟨(hst.carries hu.toSane).node hi.1, ?_⟩) ⟨hf, ha⟩).2
  have hedit := (hst.edit hu.toSane).1
  obtain rfl | rfl := hl
  · rw [hedit.eq_of_quiet]
    exact hi.2
  generalize v.view = m' at hedit ⊢
  cases hedit with
  | grow hg ha h0 hlo hhi hfree hroom =>
    exact (hu.owned.edit_grows hg ha h0 hlo hhi hfree hroom).slot_kept hi.1 hi.2

theorem fileGetBlock_ownByte (h : Ready D s) (hf : Node s.view f) (hi : i < ndirect + nindirect) :
    Wp D (fileGetBlock f i).run s fun _ t => ∀ x, t.view x ≠ s.view x → OwnByte f s.view x := by
  refine (fileGetBlock_fill h hf hi).mono fun r t hr x hx => ?_
  cases r with
  | error e => exact (hr.2.2.1.spread h hf).changed hx
  | ok blk =>
    obtain ⟨u, v, p, b, hreach, hp, hfill, hl, -⟩ := hr
    have hspread := hreach.steps.spread h hf
    rw [hl.view] at hx
    obtain ⟨-, hv⟩ | ⟨-, c, hc⟩ := hfill
    · rw [hv.view] at hx
      exact hspread.changed hx
    · have hu := hreach.steps.ready h
      have hplace : PlaceOf u.view f p := .inr ⟨i, hp⟩
      rw [(hc.stage hu.up (hu.toSane.cell (hplace.place (hreach.steps.node h hf)))).1] at hx
      exact hspread.grown hplace hc.hi hc.free hx

theorem fileFreeBlock_ownByte (h : Ready D s) (hf : Node s.view f) (hi : i < ndirect + nindirect) :
    Wp D (fileFreeBlock f i).run s fun _ t => ∀ x, t.view x ≠ s.view x → OwnByte f s.view x := by
  refine (fileFreeBlock_wp h hf hi).mono fun r t hr x hx => ?_
  obtain ⟨-, hl⟩ | ⟨a, b, ha, hb, hc⟩ := hr
  · rw [hl.view] at hx
    exact absurd rfl hx
  · have hw := bitmapWord_range (h.owned.ptr_block (.slot hf ha) hb).2.1
    rw [hc.view h (.slot hf ha) hb, dropped] at hx
    by_cases hxa : x < a ∨ a + 4 ≤ x
    · rw [Lib.Image.putWord, Lib.Image.put_of_notMem hxa] at hx
      by_cases hxw : x < bitmapWord b ∨ bitmapWord b + 4 ≤ x
      · exact absurd (Lib.Image.put_of_notMem hxw) hx
      · exact .inl ⟨by omega, by omega⟩
    · exact .inr (.inl ⟨a, .inr ⟨i, ha⟩, by omega, by omega⟩)

theorem fileBlockWalk_slot (h : Ready D s) (hf : Node s.view f) (hi : i < ndirect + nindirect)
    (alloc : Bool) :
    Wp D (fileBlockWalk f i alloc).run s fun r t => Steps {.quiet, .grow f} s t ∧
      match r with
      | .ok a => slot t.view f i = some a
      | .error e => e ≠ -eInval := by
  cases alloc with
  | true =>
    refine (fileBlockWalk_wp h hf hi).mono fun r t hr => ?_
    cases r with
    | ok a => exact ⟨hr.2.steps, hr.1⟩
    | error e =>
      obtain ⟨rfl, hl, -⟩ := hr
      exact ⟨.loads (.inl rfl) hl, show -eNoDisk ≠ -eInval by decide⟩
  | false =>
    refine (fileBlockWalk_find h hf hi).mono fun r t hr => ⟨.loads (.inl rfl) hr.1, ?_⟩
    obtain ⟨hl, hr⟩ := hr
    cases r with
    | ok a =>
      rw [hl.view]
      exact hr
    | error e =>
      obtain ⟨rfl, -⟩ := hr
      exact show -eNotFound ≠ -eInval by decide

/-- The walk at index `i` of file `f`: it fails for an index out of range, the pointer it finds
is that of the block and of no other one, and what is done through it stays with the file. -/
structure SlotPrivate (s : Cache) (f i : Nat) : Prop where
  inval : ∀ alloc r t, (fileBlockWalk f i alloc).run s = some (r, t) →
    (r = .error (-eInval) ↔ ndirect + nindirect ≤ i)
  slot : ∀ alloc a t, (fileBlockWalk f i alloc).run s = some (.ok a, t) →
    i < ndirect ∧ a = fDirect f i ∨ ∃ k c, k < nindirect ∧ i = ndirect + k ∧
      ptrAt t.view (fIndirect f) = some c ∧ a = c * blksize + 4 * k
  distinct : ∀ alloc a t, (fileBlockWalk f i alloc).run s = some (.ok a, t) →
    ∀ g j alloc' t', Node t.view g → j ≠ ndirect + nindirect →
      (fileBlockWalk g j alloc').run t = some (.ok a, t') → g = f ∧ j = i
  getBlock : ∀ r t, (fileGetBlock f i).run s = some (r, t) →
    ∀ x, t.view x ≠ s.view x → OwnByte f s.view x
  freeBlock : ∀ r t, (fileFreeBlock f i).run s = some (r, t) →
    ∀ x, t.view x ≠ s.view x → OwnByte f s.view x

theorem slotPrivate_of_lt (h : Ready D s) (hf : Node s.view f) (hi : i < ndirect + nindirect) :
    SlotPrivate s f i where
  inval alloc r t hr := by
    have hw := ((fileBlockWalk_slot h hf hi alloc).ends hr).2
    refine ⟨fun he => ?_, fun hge => absurd hge (Nat.not_le.2 hi)⟩
    subst he
    exact absurd rfl hw
  slot alloc a t hr := by
    have hw : Fs.slot t.view f i = some a := ((fileBlockWalk_slot h hf hi alloc).ends hr).2
    obtain ⟨hi, rfl⟩ | ⟨c, hc, hge, hi', rfl⟩ := slot_cases hw
    · exact .inl ⟨hi, rfl⟩
    · refine .inr ⟨i - 10, c, ?_, ?_, hc, rfl⟩
      · rw [nindirect, blksize]
        omega
      · rw [ndirect]
        omega
  distinct alloc a t hr g j alloc' t' hg hj hr' := by
    have hw := (fileBlockWalk_slot h hf hi alloc).ends hr
    have ht := hw.1.ready h
    obtain hlt | hgt := Nat.lt_or_gt_of_ne hj
    · have hw' := (fileBlockWalk_slot ht hg hlt alloc').ends hr'
      have hft := hw.1.node h hf
      have hslot := hw'.1.slot_kept ht hft hw.2
      exact (hw'.1.ready ht).owned.slot_inj (hw'.1.node ht hg) (hw'.1.node ht hft) hw'.2 hslot
    · have hx := ((fileBlockWalk_past (D := False) hgt alloc').ends hr').1
      cases hx
  getBlock r t hr := (fileGetBlock_ownByte h hf hi).ends hr
  freeBlock r t hr := (fileFreeBlock_ownByte h hf hi).ends hr

theorem slotPrivate_of_gt (hi : ndirect + nindirect < i) : SlotPrivate s f i where
  inval alloc r t hr := by
    obtain ⟨rfl, -⟩ := (fileBlockWalk_past (D := False) hi alloc).ends hr
    exact ⟨fun _ => Nat.le_of_lt hi, fun _ => rfl⟩
  slot alloc a t hr := nomatch ((fileBlockWalk_past (D := False) hi alloc).ends hr).1
  distinct alloc a t hr := nomatch ((fileBlockWalk_past (D := False) hi alloc).ends hr).1
  getBlock r t hr := by
    have hw : Wp False (fileGetBlock f i).run s fun _ t => t = s :=
      .bindE ((fileBlockWalk_past hi true).mono fun r t hr => by
        obtain ⟨rfl, rfl⟩ := hr
        rfl)
    intro x hx
    rw [hw.ends hr] at hx
    exact absurd rfl hx
  freeBlock r t hr := by
    have hw : Wp False (fileFreeBlock f i).run s fun _ t => t = s :=
      .bindE ((fileBlockWalk_past hi false).mono fun r t hr => by
        obtain ⟨rfl, rfl⟩ := hr
        rfl)
    intro x hx
    rw [hw.ends hr] at hx
    exact absurd rfl hx

theorem not_slotPrivate_end (h : Ready False s) (hf : Node s.view f) :
    ¬ SlotPrivate s f (ndirect + nindirect) := by
  intro hp
  obtain ⟨r, t, hrun, -, hr⟩ := (fileBlockWalk_seek h hf (Nat.le_refl _)).exists_run
  have he := (hp.inval false r t hrun).2 (Nat.le_refl _)
  subst he
  exact absurd hr.1 (by decide)

theorem slotPrivate_iff (h : Ready False s) (hf : Node s.view f) :
    SlotPrivate s f i ↔ i ≠ ndirect + nindirect := by
  constructor
  · rintro hp rfl
    exact not_slotPrivate_end h hf hp
  · intro hne
    obtain hlt | hgt := Nat.lt_or_gt_of_ne hne
    · exact slotPrivate_of_lt h hf hlt
    · exact slotPrivate_of_gt hgt

theorem slotPrivate_last : SlotPrivate (Demo.cache 8 0xF0 0) Demo.file 1033 :=
  (slotPrivate_iff (Demo.fits_eight.ready (by decide)) Demo.node_cache).2
    (by decide)

theorem not_slotPrivate_past : ¬ SlotPrivate (Demo.cache 8 0xF0 0) Demo.file 1034 :=
  not_slotPrivate_end (Demo.fits_eight.ready (by decide)) Demo.node_cache

end Jos.Fs
