import Jos.Fs.Ops
import Jos.Fs.Contents

/-! The block pointers of a file on a sane server: what `file_block_walk`, `file_get_block` and
`file_free_block` come back with. -/

namespace Jos.Fs

open Kern Lib Cache

variable {D : Prop} {s t u : Cache} {A : Set Label} {a b c f g i j n x : Nat}

namespace Up

theorem cell_congr (ha : s.Cell a) (hv : t.view = s.view) : t.Cell a where
  aligned := ha.aligned
  range := hv ▸ ha.range
  home := ha.home.imp id fun h => ⟨hv.symm ▸ h.1, hv.symm ▸ h.2⟩

variable (h : Up D s) (ha : s.Cell a)
include h ha

theorem served_cell : D ∨ s.Served (a / blksize) := by
  rw [blksize]
  obtain hblk | hin := ha.home
  · rw [hblk]
    exact .inr (.inl h.mounted.mapped)
  · exact h.served hin

theorem loadWord_cell : Wp D (loadWord a) s fun w t => Loads s t ∧ w = s.view.word a :=
  loadWord_wp h.super_mapped ha.aligned (h.served_cell ha)

end Up

def Fill (a : Nat) (s t : Cache) : Prop :=
  s.view.word a ≠ 0 ∧ Loads s t ∨ s.view.word a = 0 ∧ ∃ b, Alloc a b s t

theorem Up.allocIfNull (h : Up D s) (ha : s.Cell a) :
    Wp D (allocIfNull a).run s fun r t =>
      match r with
      | .ok _ => Fill a s t
      | .error e => e = -eNoDisk ∧ Loads s t ∧ Full s.view ∧ s.view.word a = 0 := by
  refine .bindL ((h.loadWord_cell ha).mono fun w t hw => ?_)
  obtain ⟨hl, rfl⟩ := hw
  refine .ite (fun h0 => ?_) fun h0 => .pureE (.inl ⟨h0, hl⟩)
  refine ((h.loads hl).allocInto (cell_congr ha hl.view)).mono fun r u hr => ?_
  cases r with
  | ok _ =>
    obtain ⟨b, hb⟩ := hr
    exact .inr ⟨h0, b, hb.of_loads hl⟩
  | error e =>
    obtain ⟨rfl, hl', hfull⟩ := hr
    exact ⟨rfl, hl.trans hl', hl.view ▸ hfull, h0⟩

theorem Fill.cases (h : Fill a s t) (hs : Ready D s) (hf : Node s.view f) (ha : PlaceOf s.view f a)
    (hroom : ∀ i, slot s.view f i = some a → i * blksize < (s.view.word (fSize f)).toNat) :
    s.view.word a ≠ 0 ∧ Loads s t ∨ Step (.grow f) s t ∧ ∃ b, Grows s.view t.view a b := by
  refine h.imp id fun ⟨h0, b, hb⟩ => ⟨hb.step hf ha h0 hroom, b, ?_⟩
  rw [(hb.stage hs.up (hs.toSane.cell (ha.place hf))).1]
  exact hs.owned.edit_grows hf ha h0 hb.lo hb.hi hb.free hroom

section Grown

variable {m : Lib.Image} (hlo : bitmapEnd (nblocksOf m) ≤ b)
include hlo

theorem nblocksOf_grown (hhi : b < nblocksOf m) (hr : a + 4 ≤ 4100 ∨ 4104 ≤ a) :
    nblocksOf (grown m a b) = nblocksOf m := by
  have hw := bitmapWord_range hhi
  refine nblocksOf_congr fun x hx hx' => grown_of_notMem (by omega) (by omega) ?_
  rw [bitmapEnd] at hlo
  omega

theorem freeBit_grown (hr : a + 4 ≤ 8192 ∨ bitmapEnd (nblocksOf m) * 4096 ≤ a) (hx : x < nblocksOf m) :
    freeBit (grown m a b) x = if x = b then !freeBit m b else freeBit m x := by
  rw [← freeBit_xor]
  refine freeBit_congr hx fun y hy hy' => ?_
  rw [grown, Lib.Image.put_of_notMem (by rw [blksize]; omega), Lib.Image.putWord,
    Lib.Image.put_of_notMem (by omega)]

theorem ptrAt_grown (hhi : b < nblocksOf m) (ha4 : a % 4 = 0) (hab : a / 4096 ≠ b) :
    ptrAt (grown m a b) a = some b := by
  have hlt : b < 2 ^ 32 := Nat.lt_trans hhi (m.word sNblocks).isLt
  have hword : ((grown m a b).word a).toNat = b := by
    rw [grown, blksize, Lib.Image.word_put_of_disjoint (by omega), Lib.Image.word_putWord,
      BitVec.toNat_ofNat, Nat.mod_eq_of_lt hlt]
  refine ptrAt_eq_some.2 ⟨fun h0 => ?_, hword⟩
  rw [h0] at hword
  have hword : 0 = b := hword
  rw [bitmapEnd] at hlo
  omega

end Grown

namespace Alloc

variable (h : Alloc a b s t) (hs : Up D s) (ha : s.Cell a)
include h hs ha

theorem up : Up D t := hs.stage (h.stage hs ha).2

theorem nblocks : nblocksOf t.view = nblocksOf s.view := by
  rw [(h.stage hs ha).1]
  exact nblocksOf_grown h.lo h.hi ha.range.1

theorem freeBit (hx : x < nblocksOf s.view) :
    freeBit t.view x = if x = b then false else freeBit s.view x := by
  rw [(h.stage hs ha).1, freeBit_grown h.lo ha.range.2 hx, h.free]
  rfl

theorem inUse (hx : s.InUse x) : t.InUse x := by
  refine ⟨h.nblocks hs ha ▸ hx.1, ?_⟩
  rw [h.freeBit hs ha hx.1, hx.2, ite_self]

theorem cell (hx : s.Cell x) : t.Cell x where
  aligned := hx.aligned
  range := h.nblocks hs ha ▸ hx.range
  home := hx.home.imp id (h.inUse hs ha)

theorem link : ptrAt t.view a = some b := by
  rw [(h.stage hs ha).1]
  refine ptrAt_grown h.lo h.hi ha.aligned fun hab => ?_
  have hlo := h.lo
  rw [bitmapEnd] at hlo
  obtain h1 | hin := ha.home
  · omega
  · have := hin.2
    rw [hab, h.free] at this
    cases this

end Alloc

theorem Up.fetch (h : Up D s) (ha : s.Cell a)
    (hrange : ∀ b, ptrAt s.view a = some b → b < nblocksOf s.view) :
    Wp D (do Fs.allocIfNull a; let bno ← loadWord a; Fs.diskaddr bno.toNat : Try Nat).run s fun r t =>
      match r with
      | .ok blk => ∃ v b, Fill a s v ∧ Loads v t ∧ ptrAt v.view a = some b ∧ blk = b * blksize
      | .error e => e = -eNoDisk ∧ Loads s t ∧ Full s.view ∧ s.view.word a = 0 := by
  refine .bindE ((h.allocIfNull ha).mono fun r v hr => ?_)
  cases r with
  | error e => exact hr
  | ok _ =>
    have hv : Up D v ∧ v.Cell a ∧ ∃ b, ptrAt v.view a = some b ∧ b < nblocksOf v.view := by
      obtain ⟨hne, hl⟩ | ⟨-, b, hb⟩ := id hr
      · have hb : ptrAt s.view a = some (s.view.word a).toNat := if_neg hne
        exact ⟨h.loads hl, cell_congr ha hl.view, _, hl.view.symm ▸ hb, hl.view.symm ▸ hrange _ hb⟩
      · exact ⟨hb.up h ha, hb.cell h ha ha, b, hb.link h ha, (hb.nblocks h ha).symm ▸ hb.hi⟩
    obtain ⟨hup, hcell, b, hb, hlt⟩ := hv
    refine .bindL ((hup.loadWord_cell hcell).mono fun bno w hw => ?_)
    obtain ⟨hw, rfl⟩ := hw
    obtain ⟨hne, htoNat⟩ := ptrAt_eq_some.1 hb
    rw [htoNat]
    have hb0 : b ≠ 0 := fun hb0 => hne (BitVec.eq_of_toNat_eq (htoNat.trans hb0))
    refine .liftE (((hup.loads hw).diskaddr hb0 (hw.view.symm ▸ hlt)).mono fun addr z hz => ?_)
    obtain ⟨rfl, rfl⟩ := hz
    exact ⟨v, b, hr, hw, hb, rfl⟩

section Grows

variable {m m' : Lib.Image}

theorem Grows.blockOf_indirect (h : Grows m m' (fIndirect f) b) (hm : Owned m) (hf : Node m f) :
    blockOf m' f j = blockOf m f j := by
  cases hc : blockOf m f j with
  | some c => exact h.blockOf_kept hf hc
  | none =>
    cases hc' : blockOf m' f j with
    | none => rfl
    | some c =>
      obtain hc' | ⟨hs, -⟩ := h.blockOf_cases hf hc'
      · rw [hc] at hc'
        cases hc'
      · exact absurd rfl (hm.slot_ne_indirect hf hs hf)

theorem Grows.blockOf_other (h : Grows m m' a b) (hm : Owned m) (hf : Node m f)
    (ha : slot m f i = some a) (hj : j ≠ i) : blockOf m' f j = blockOf m f j := by
  cases hc : blockOf m f j with
  | some c => exact h.blockOf_kept hf hc
  | none =>
    cases hc' : blockOf m' f j with
    | none => rfl
    | some c =>
      obtain hc' | ⟨hs, -⟩ := h.blockOf_cases hf hc'
      · rw [hc] at hc'
        cases hc'
      · exact absurd (hm.slot_inj hf hf hs ha).2 hj

theorem Grows.blockOf_slot (h : Grows m m' a b) (hf : Node m f) (ha : slot m f i = some a) :
    blockOf m' f i = some b :=
  blockOf_eq_some.2 ⟨a, h.slot_kept hf ha, h.ptrAt_link⟩

theorem Grows.indirect_other (h : Grows m m' a b) (hm : Owned m) (hf : Node m f)
    (ha : slot m f i = some a) : ptrAt m' (fIndirect f) = ptrAt m (fIndirect f) :=
  ptrAt_congr (h.ptr (.indirect hf) fun he => hm.slot_ne_indirect hf ha hf he.symm)

end Grows

structure Reached (f i : Nat) (s t : Cache) : Prop where
  steps : Steps {.quiet, .grow f} s t
  blocks : ∀ j, blockOf t.view f j = blockOf s.view f j
  indirect : ptrAt t.view (fIndirect f) = none ↔ ptrAt s.view (fIndirect f) = none ∧ i < ndirect
  free : freeCount t.view + (if ndirect ≤ i ∧ ptrAt s.view (fIndirect f) = none then 1 else 0) =
    freeCount s.view
  idle : i < ndirect ∨ ptrAt s.view (fIndirect f) ≠ none → Loads s t

theorem Loads.reached (h : Loads s t) (hi : i < ndirect ∨ ptrAt s.view (fIndirect f) ≠ none) :
    Reached f i s t where
  steps := .loads (.inl rfl) h
  blocks _ := by rw [h.view]
  indirect := by
    rw [h.view]
    exact ⟨fun h0 => ⟨h0, hi.resolve_right fun hne => hne h0⟩, fun h0 => h0.1⟩
  free := by
    rw [h.view, if_neg, Nat.add_zero]
    rintro ⟨hge, h0⟩
    exact hi.elim (fun hlt => by omega) fun hne => hne h0
  idle _ := h

theorem Reached.loads (h : Reached f i s t) (hl : Loads t u) : Reached f i s u where
  steps := h.steps.trans (.loads (.inl rfl) hl)
  blocks := hl.view.symm ▸ h.blocks
  indirect := hl.view.symm ▸ h.indirect
  free := hl.view.symm ▸ h.free
  idle hi := (h.idle hi).trans hl

theorem Fill.reached (h : Fill (fIndirect f) s t) (hs : Ready D s) (hf : Node s.view f)
    (hi : ndirect ≤ i) : Reached f i s t ∧ ∃ c, ptrAt t.view (fIndirect f) = some c := by
  have hroom : ∀ j, slot s.view f j = some (fIndirect f) →
      j * blksize < (s.view.word (fSize f)).toNat :=
    fun j hj => absurd rfl (hs.owned.slot_ne_indirect hf hj hf)
  obtain ⟨hne, hl⟩ | ⟨hstep, b, hb⟩ := h.cases hs hf (.inl rfl) hroom
  · have hp : ptrAt s.view (fIndirect f) ≠ none := fun h0 => hne (ptrAt_eq_none.1 h0)
    refine ⟨hl.reached (.inr hp), ?_⟩
    rw [hl.view]
    exact Option.ne_none_iff_exists'.1 hp
  · have h0 := ptrAt_eq_none.2 hb.null
    refine ⟨⟨.single (.inr rfl) hstep, fun j => hb.blockOf_indirect hs.owned hf, ?_, ?_, ?_⟩, b,
      hb.ptrAt_link⟩
    · rw [hb.ptrAt_link]
      exact ⟨nofun, fun hlt => absurd hlt.2 (Nat.not_lt.2 hi)⟩
    · rw [if_pos ⟨hi, h0⟩]
      exact hb.freeCount
    · rintro (hlt | hne)
      · exact absurd hlt (Nat.not_lt.2 hi)
      · exact absurd h0 hne

theorem fileBlockWalk_wp (h : Ready D s) (hf : Node s.view f) (hi : i < ndirect + nindirect) :
    Wp D (fileBlockWalk f i true).run s fun r t =>
      match r with
      | .ok p => slot t.view f i = some p ∧ Reached f i s t
      | .error e => e = -eNoDisk ∧ Loads s t ∧ Full s.view ∧ ndirect ≤ i ∧
        ptrAt s.view (fIndirect f) = none := by
  refine .ite (fun hbad => by omega) fun _ => ?_
  refine .ite (fun hd => ?_) fun hd => ?_
  · exact .pureE ⟨slot_direct hd, Loads.refl.reached (.inl hd)⟩
  have hge : ndirect ≤ i := Nat.not_lt.1 hd
  refine .bindL ((h.loadWord_place (.indirect hf)).mono fun ind u hu => ?_)
  refine .ite (fun hbad => nomatch hbad.1) fun _ => ?_
  have hready := h.loads hu.1
  have hfu : Node u.view f := hu.1.view.symm ▸ hf
  refine .bindE ((hready.up.allocIfNull (hready.toSane.cell (.indirect hfu))).mono fun r v hr => ?_)
  cases r with
  | error e =>
    obtain ⟨rfl, hl, hfull, h0⟩ := hr
    rw [hu.1.view] at hfull h0
    exact ⟨rfl, hu.1.trans hl, hfull, hge, ptrAt_eq_none.2 h0⟩
  | ok _ =>
    obtain ⟨hreach, c, hc⟩ := hr.reached hready hfu hge
    have hv := hreach.steps.ready hready
    have hfv := hreach.steps.node hready hfu
    refine .bindL ((hv.loadWord_place (.indirect hfv)).mono fun ind w hw => ?_)
    obtain ⟨hw, rfl⟩ := hw
    have hcw : ptrAt w.view (fIndirect f) = some c := hw.view.symm ▸ hc
    have hind : (v.view.word (fIndirect f)).toNat = c := (ptrAt_eq_some.1 hc).2
    rw [hind]
    refine .bindL (((hv.loads hw).diskaddr (.indirect (hw.view.symm ▸ hfv)) hcw).mono
      fun addr z hz => ?_)
    obtain ⟨rfl, rfl⟩ := hz
    refine .pureE ⟨slot_indirect hcw hge hi, ?_⟩
    have hr := hreach.loads hw
    exact ⟨.trans (.loads (.inl rfl) hu.1) hr.steps, hu.1.view ▸ hr.blocks, hu.1.view ▸ hr.indirect,
      hu.1.view ▸ hr.free, fun hi => hu.1.trans (hr.idle (hu.1.view.symm ▸ hi))⟩

structure Fetched (f i b : Nat) (s t : Cache) : Prop where
  steps : Steps {.quiet, .grow f} s t
  block : blockOf t.view f i = some b
  other : ∀ j, j ≠ i → blockOf t.view f j = blockOf s.view f j
  indirect : ptrAt t.view (fIndirect f) = none ↔ ptrAt s.view (fIndirect f) = none ∧ i < ndirect
  free : freeCount t.view + need s.view f i 1 = freeCount s.view
  idle : blockOf s.view f i ≠ none → Loads s t

theorem need_one {m : Lib.Image} : need m f i 1 = (if (blockOf m f i).isNone then 1 else 0) +
    if ndirect ≤ i ∧ ptrAt m (fIndirect f) = none then 1 else 0 := by
  have h : (0 < 1 ∧ ndirect < i + 1 ∧ ptrAt m (fIndirect f) = none) ↔
      (ndirect ≤ i ∧ ptrAt m (fIndirect f) = none) :=
    ⟨fun h => ⟨Nat.lt_succ_iff.1 h.2.1, h.2.2⟩, fun h => ⟨by decide, Nat.lt_succ_iff.2 h.1, h.2⟩⟩
  rw [need, holes_succ, holes_zero, Nat.zero_add, if_congr h rfl rfl]

theorem indirect_of_block {m : Lib.Image} (hb : blockOf m f i ≠ none) :
    i < ndirect ∨ ptrAt m (fIndirect f) ≠ none := by
  by_contra hno
  rw [not_or, not_not, Nat.not_lt] at hno
  exact hb (blockOf_none_of_indirect hno.2 hno.1)

theorem Fill.fetched (h : Fill a t u) (hr : Reached f i s t) (hs : Ready D t) (hf : Node t.view f)
    (ha : slot t.view f i = some a) (hroom : i * blksize < (t.view.word (fSize f)).toNat)
    (hub : ptrAt u.view a = some b) : Fetched f i b s u := by
  have hroom' : ∀ j, slot t.view f j = some a → j * blksize < (t.view.word (fSize f)).toNat := by
    intro j hj
    rw [(hs.owned.slot_inj hf hf hj ha).2]
    exact hroom
  have hblock : blockOf t.view f i = ptrAt t.view a := by
    rw [blockOf, ha]
    rfl
  obtain ⟨hne, hl⟩ | ⟨hstep, c, hb⟩ := h.cases hs hf (.inr ⟨i, ha⟩) hroom'
  · rw [hl.view] at hub
    have hold : blockOf s.view f i = some b := (hr.blocks i).symm.trans (hblock.trans hub)
    have hne : blockOf s.view f i ≠ none := fun h0 =>
      Option.some_ne_none _ (hold.symm.trans h0)
    have hidle := (hr.idle (indirect_of_block hne)).trans hl
    refine ⟨.loads (.inl rfl) hidle, ?_, fun j _ => by rw [hidle.view],
      (hl.view.symm ▸ hr.indirect), ?_, fun _ => hidle⟩
    · rw [hidle.view]
      exact hold
    · rw [hidle.view, need_eq_zero.2 fun j hj hj' => ?_, Nat.add_zero]
      rwa [show j = i by omega]
  · have h0 := hblock.trans (ptrAt_eq_none.2 hb.null)
    obtain rfl : c = b := Option.some.inj (hb.ptrAt_link.symm.trans hub)
    refine ⟨hr.steps.trans (.single (.inr rfl) hstep), hb.blockOf_slot hf ha, fun j hj => ?_, ?_,
      ?_, fun hne => ?_⟩
    · rw [hb.blockOf_other hs.owned hf ha hj]
      exact hr.blocks j
    · rw [hb.indirect_other hs.owned hf ha]
      exact hr.indirect
    · have hfree := hb.freeCount
      have hfree' := hr.free
      rw [need_one, ← hr.blocks i, h0]
      simp only [Option.isNone_none, if_true]
      omega
    · exact absurd ((hr.blocks i).symm.trans h0) hne

theorem fileGetBlock_fill (h : Ready D s) (hf : Node s.view f) (hi : i < ndirect + nindirect) :
    Wp D (fileGetBlock f i).run s fun r t =>
      match r with
      | .ok blk => ∃ u v p b, Reached f i s u ∧ slot u.view f i = some p ∧ Fill p u v ∧
        Loads v t ∧ ptrAt v.view p = some b ∧ blk = b * blksize
      | .error e => e = -eNoDisk ∧ freeCount s.view < need s.view f i 1 ∧
        Steps {.quiet, .grow f} s t ∧ freeCount t.view = 0 ∧
        ∀ j, blockOf t.view f j = blockOf s.view f j := by
  refine .bindE ((fileBlockWalk_wp h hf hi).mono fun r u hr => ?_)
  cases r with
  | error e =>
    obtain ⟨rfl, hl, hfull, hge, h0⟩ := hr
    refine ⟨rfl, ?_, .loads (.inl rfl) hl, hl.view ▸ freeCount_eq_zero hfull, fun j => by rw [hl.view]⟩
    rw [freeCount_eq_zero hfull, need_one, if_pos (show ndirect ≤ i ∧ _ from ⟨hge, h0⟩)]
    omega
  | ok p =>
    obtain ⟨hp, hreach⟩ := hr
    have hu := hreach.steps.ready h
    have hplace : Place u.view p := .slot (hreach.steps.node h hf) hp
    refine (hu.up.fetch (hu.toSane.cell hplace) fun b hb => (hu.owned.ptr_range hplace hb).2).mono
      fun r t hr => ?_
    cases r with
    | error e =>
      obtain ⟨rfl, hl, hfull, h0⟩ := hr
      have hfree := hreach.free
      rw [freeCount_eq_zero hfull] at hfree
      have hblock : blockOf s.view f i = none := by
        rw [← hreach.blocks i, blockOf, hp]
        exact ptrAt_eq_none.2 h0
      refine ⟨rfl, ?_, hreach.steps.trans (.loads (.inl rfl) hl), hl.view ▸ freeCount_eq_zero hfull,
        hl.view.symm ▸ hreach.blocks⟩
      rw [need_one, hblock]
      simp only [Option.isNone_none, if_true]
      omega
    | ok blk =>
      obtain ⟨v, b, hfill, hl, hb, hblk⟩ := hr
      exact ⟨u, v, p, b, hreach, hp, hfill, hl, hb, hblk⟩

theorem fileGetBlock_wp (h : Ready D s) (hf : Node s.view f) (hi : i < ndirect + nindirect)
    (hroom : i * blksize < (s.view.word (fSize f)).toNat) :
    Wp D (fileGetBlock f i).run s fun r t =>
      match r with
      | .ok blk => ∃ b, blk = b * blksize ∧ Fetched f i b s t
      | .error e => e = -eNoDisk ∧ freeCount s.view < need s.view f i 1 ∧
        Steps {.quiet, .grow f} s t ∧ freeCount t.view = 0 ∧
        ∀ j, blockOf t.view f j = blockOf s.view f j := by
  refine (fileGetBlock_fill h hf hi).mono fun r t hr => ?_
  cases r with
  | error e => exact hr
  | ok blk =>
    obtain ⟨u, v, p, b, hreach, hp, hfill, hl, hb, hblk⟩ := hr
    have hu := hreach.steps.ready h
    have hfu := hreach.steps.node h hf
    rw [← hreach.steps.size h hf (by simp) (by simp)] at hroom
    refine ⟨b, hblk, ?_⟩
    have hfetch := hfill.fetched hreach hu hfu hp hroom hb
    exact ⟨hfetch.steps.trans (.loads (.inl rfl) hl), hl.view.symm ▸ hfetch.block,
      hl.view.symm ▸ hfetch.other, hl.view.symm ▸ hfetch.indirect, hl.view.symm ▸ hfetch.free,
      fun hne => (hfetch.idle hne).trans hl⟩

/-- The walk that allocates nothing.  The bound of the source lets it go one past the end of the
indirect block. -/
theorem fileBlockWalk_seek (h : Ready D s) (hf : Node s.view f) (hi : i ≤ ndirect + nindirect) :
    Wp D (fileBlockWalk f i false).run s fun r t => Loads s t ∧
      match r with
      | .ok p => i < ndirect ∧ p = fDirect f i ∨ ∃ c, ndirect ≤ i ∧
        ptrAt s.view (fIndirect f) = some c ∧ p = c * blksize + 4 * (i - ndirect)
      | .error e => e = -eNotFound ∧ ndirect ≤ i ∧ ptrAt s.view (fIndirect f) = none := by
  refine .ite (fun hbad => by omega) fun _ => ?_
  refine .ite (fun hd => ?_) fun hd => ?_
  · exact .pureE ⟨.refl, .inl ⟨hd, rfl⟩⟩
  have hge : ndirect ≤ i := Nat.not_lt.1 hd
  refine .bindL ((h.loadWord_place (.indirect hf)).mono fun ind u hu => ?_)
  obtain ⟨hu, rfl⟩ := hu
  refine .ite (fun h0 => ?_) fun hne => ?_
  · exact .throwE ⟨hu, rfl, hge, ptrAt_eq_none.2 h0.2⟩
  have hne : s.view.word (fIndirect f) ≠ 0 := fun h0 => hne ⟨rfl, h0⟩
  have hready := h.loads hu
  have hfu : Node u.view f := hu.view.symm ▸ hf
  refine .bindE ((hready.up.allocIfNull (hready.toSane.cell (.indirect hfu))).mono fun r v hr => ?_)
  cases r with
  | error e => exact absurd (hu.view ▸ hr.2.2.2) hne
  | ok _ =>
    obtain ⟨-, hv⟩ | ⟨h0, -⟩ := hr
    rotate_left
    · exact absurd (hu.view ▸ h0) hne
    have hv := hu.trans hv
    have hready' := h.loads hv
    have hfv : Node v.view f := hv.view.symm ▸ hf
    refine .bindL ((hready'.loadWord_place (.indirect hfv)).mono fun ind w hw => ?_)
    obtain ⟨hw, rfl⟩ := hw
    have hc : ptrAt s.view (fIndirect f) = some (s.view.word (fIndirect f)).toNat := if_neg hne
    have hcw : ptrAt w.view (fIndirect f) = some (v.view.word (fIndirect f)).toNat := by
      rw [hw.view, hv.view]
      exact hc
    refine .bindL (((hready'.loads hw).diskaddr (.indirect (hw.view.symm ▸ hfv)) hcw).mono
      fun addr z hz => ?_)
    obtain ⟨rfl, rfl⟩ := hz
    refine .pureE ⟨hv.trans hw, .inr ⟨_, hge, hc, ?_⟩⟩
    rw [hv.view]

theorem fileBlockWalk_find (h : Ready D s) (hf : Node s.view f) (hi : i < ndirect + nindirect) :
    Wp D (fileBlockWalk f i false).run s fun r t => Loads s t ∧
      match r with
      | .ok p => slot s.view f i = some p
      | .error e => e = -eNotFound ∧ slot s.view f i = none := by
  refine (fileBlockWalk_seek h hf (Nat.le_of_lt hi)).mono fun r t hr => ⟨hr.1, ?_⟩
  obtain ⟨-, hr⟩ := hr
  cases r with
  | ok p =>
    obtain ⟨hd, rfl⟩ | ⟨c, hge, hc, rfl⟩ := hr
    · exact slot_direct hd
    · exact slot_indirect hc hge hi
  | error e =>
    obtain ⟨rfl, hge, h0⟩ := hr
    refine ⟨rfl, ?_⟩
    rw [slot, if_neg (Nat.not_lt.2 hge), if_pos hi, h0]
    rfl

theorem fileBlockWalk_past (hi : ndirect + nindirect < i) (alloc : Bool) :
    Wp D (fileBlockWalk f i alloc).run s fun r t => r = .error (-eInval) ∧ t = s := by
  refine .ite (fun _ => .throwE ⟨rfl, rfl⟩) fun hno => ?_
  omega

theorem fileGetBlock_past (hi : ndirect + nindirect < i) :
    Wp D (fileGetBlock f i).run s fun r t => r = .error (-eInval) ∧ t = s := by
  refine .bindE ((fileBlockWalk_past hi true).mono fun r t hr => ?_)
  obtain ⟨rfl, rfl⟩ := hr
  exact ⟨rfl, rfl⟩

end Jos.Fs
