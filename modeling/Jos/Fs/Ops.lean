import Jos.Fs.Steps

/-! The functions of `fs.c` on a sane server: which steps they take and what they return. -/

namespace Jos.Fs

open Kern Lib Cache

variable {D : Prop} {s t : Cache} {A : Set Label} {a b d f g i j k n y : Nat}

/-- A mounted cache with memory left, in the middle of a step. -/
structure Up (D : Prop) (s : Cache) : Prop where
  coherent : s.Coherent
  mounted : s.Mounted
  ample : D ∨ s.Ample

namespace Up

variable (h : Up D s)
include h

theorem stage (hst : Stage s t) : Up D t where
  coherent := hst.coherent h.coherent
  mounted := hst.mounted h.coherent h.mounted
  ample := h.ample.imp id (hst.ample h.coherent h.mounted)

theorem super_mapped : s.super = true → s.Mapped 1 := fun _ => h.mounted.mapped

theorem served (hb : s.InUse b) : D ∨ s.Served b :=
  h.ample.imp id fun hl => .inr ⟨h.mounted, hl, hb⟩

theorem superNblocks : Wp D superNblocks s fun w t => t = s ∧ w.toNat = nblocksOf s.view :=
  (superNblocks_wp (.inr h.mounted.super) h.super_mapped).mono fun _ _ ht => ⟨ht.1, ht.2.2⟩

theorem diskaddr (hb : b ≠ 0) (hlt : b < nblocksOf s.view) :
    Wp D (diskaddr b) s fun addr t => t = s ∧ addr = b * blksize :=
  (diskaddr_wp h.super_mapped (.inr ⟨hb, hlt⟩)).mono fun _ _ ht => ⟨ht.1, ht.2.1⟩

theorem served_bitmap (hb : b < nblocksOf s.view) : D ∨ s.Served (bitmapWord b / blksize) := by
  rw [bitmapWord, bitmap_block]
  have := h.mounted.two_lt
  refine h.served ⟨by omega, h.mounted.reserved _ ?_⟩
  rw [bitmapEnd]
  omega

theorem blockIsFree (hb : b < nblocksOf s.view) :
    Wp D (blockIsFree b) s fun free t => Loads s t ∧ free = freeBit s.view b := by
  refine (blockIsFreeVia_wp (.inr (by decide)) h.super_mapped fun _ _ => ?_).mono fun free t ht => ?_
  · have hserved := h.served_bitmap hb
    rw [bitmapWord, bitmap_block] at hserved
    exact touch_wp h.super_mapped hserved
  · rw [h.mounted.super, decide_eq_true hb, Bool.true_and, Bool.true_and] at ht
    exact ht

theorem store {bs : Nat → Byte} (hb : ∀ x, a ≤ x → x < a + n → D ∨ s.Served (x / blksize)) :
    Wp D (store a n bs) s fun _ t => Writes a n bs s t := by
  refine store_wp h.super_mapped fun b hb' => ?_
  obtain ⟨x, hx, hx', rfl⟩ := mem_blocksOf.1 hb'
  exact hb x hx hx'

theorem storeWord {w : Word} (ha : a % 4 = 0) (hb : D ∨ s.Served (a / blksize)) :
    Wp D (storeWord a w) s fun _ t => Writes a 4 (byteAt w) s t :=
  h.store fun x hx hx' => by rwa [div_blksize ha hx hx']

theorem flushBlock (hb : b < nblocksOf s.view) (ha : a / blksize = b) :
    Wp D (flushBlock a) s fun _ t => t = s.flushed b := by
  have hle := h.mounted.le_disksize
  have hlt : a < disksize := by
    rw [blksize] at *
    omega
  subst ha
  exact flushBlock_wp (.inr hlt)

end Up

namespace Ready

variable (h : Ready D s)
include h

theorem up : Up D s := ⟨h.coherent, h.mounted, h.live.imp id fun hl => hl.1⟩

theorem served_ptr (ha : Place s.view a) (hb : ptrAt s.view a = some b) : D ∨ s.Served b :=
  h.up.served (h.owned.ptr_block ha hb).2

theorem served_node (hf : Node s.view f) (hy : y < 256) : D ∨ s.Served ((f + y) / blksize) := by
  rw [blksize]
  obtain rfl | ⟨hf, x, hx, hxf⟩ := hf.home
  · have hblk : (4104 + y) / 4096 = 1 := by omega
    rw [hblk]
    exact .inr (.inl h.mounted.mapped)
  · have hblk : (f + y) / 4096 = f / 4096 := by omega
    rw [hblk]
    exact h.served_ptr hx hxf

theorem served_place (ha : Place s.view a) : D ∨ s.Served (a / blksize) := by
  rw [blksize]
  obtain ⟨-, hlo | ⟨x, hx, hxa⟩⟩ := ha.home
  · have hblk : a / 4096 = 1 := by omega
    rw [hblk]
    exact .inr (.inl h.mounted.mapped)
  · exact h.served_ptr hx hxa

theorem loadWord_node (hf : Node s.view f) (hy : y < 256) (hy4 : y % 4 = 0) :
    Wp D (loadWord (f + y)) s fun w t => Loads s t ∧ w = s.view.word (f + y) := by
  refine loadWord_wp h.up.super_mapped ?_ (h.served_node hf hy)
  obtain rfl | ⟨hf, -⟩ := h.owned.aligned hf
  all_goals omega

theorem loadWord_place (ha : Place s.view a) :
    Wp D (loadWord a) s fun w t => Loads s t ∧ w = s.view.word a :=
  loadWord_wp h.up.super_mapped ha.home.1 (h.served_place ha)

theorem diskaddr (ha : Place s.view a) (hb : ptrAt s.view a = some b) :
    Wp D (diskaddr b) s fun addr t => t = s ∧ addr = b * blksize := by
  have hr := h.owned.ptr_range ha hb
  exact h.up.diskaddr (by omega) hr.2

theorem loads (hl : Loads s t) : Ready D t := (Step.loads hl).ready h

end Ready

theorem Up.loads (h : Up D s) (hl : Loads s t) : Up D t := h.stage hl.stage

def Full (m : Lib.Image) : Prop := ∀ b, b < nblocksOf m → freeBit m b = false

def Takes (b : Nat) (s t : Cache) : Prop :=
  ∃ u, Writes (bitmapWord b) 4 (byteAt (s.view.word (bitmapWord b) ^^^ 1#32 <<< (b % 32))) s u ∧
    t = u.flushed 2

/-- Block `b`, the first one that is free, put behind the pointer at `a` and cleared. -/
structure Alloc (a b : Nat) (s t : Cache) : Prop where
  lo : bitmapEnd (nblocksOf s.view) ≤ b
  hi : b < nblocksOf s.view
  free : freeBit s.view b = true
  first : ∀ x, x < b → freeBit s.view x = false
  stores : ∃ u v w, Takes b s u ∧ Writes a 4 (byteAt (BitVec.ofNat 32 b)) u v ∧
    Writes (b * blksize) blksize (fun _ => 0) v w ∧ t = w.flushed b

section Alloc

variable {n : Nat}

theorem Takes.of_loads {u : Cache} (hl : Loads s t) (h : Takes b t u) : Takes b s u := by
  obtain ⟨v, hv, rfl⟩ := h
  rw [hl.view] at hv
  exact ⟨v, hv.of_loads hl, rfl⟩

theorem Alloc.of_loads {u : Cache} (hl : Loads s t) (h : Alloc a b t u) : Alloc a b s u where
  lo := hl.view ▸ h.lo
  hi := hl.view ▸ h.hi
  free := hl.view ▸ h.free
  first := hl.view ▸ h.first
  stores := by
    obtain ⟨u, v, w, hu, hv, hw, rfl⟩ := h.stores
    exact ⟨u, v, w, hu.of_loads hl, hv, hw, rfl⟩

theorem Up.lo_of_free (h : Up D s) (hb : freeBit s.view b = true) :
    bitmapEnd (nblocksOf s.view) ≤ b := by
  by_contra hlt
  have := h.mounted.reserved b (by omega)
  rw [hb] at this
  cases this

theorem allocBlockFrom_wp (h : Up D s) (hn : nblocksOf s.view ≤ b + n) :
    Wp D (allocBlockFrom n b).run s fun r t =>
      match r with
      | .ok c => c < nblocksOf s.view ∧ freeBit s.view c = true ∧
        (∀ x, b ≤ x → x < c → freeBit s.view x = false) ∧ Takes c s t
      | .error e => e = -eNoDisk ∧ Loads s t ∧
        ∀ x, b ≤ x → x < nblocksOf s.view → freeBit s.view x = false := by
  induction n generalizing s b with
  | zero => exact .throwE ⟨rfl, .refl, fun x hx hx' => by omega⟩
  | succ n ih =>
    refine .bindL (h.superNblocks.mono fun w t hw => ?_)
    obtain ⟨rfl, hw⟩ := hw
    refine .ite (fun hlt => ?_) fun hge => .throwE ⟨rfl, .refl, fun x hx hx' => by omega⟩
    rw [hw] at hlt
    refine .bindL ((h.blockIsFree hlt).mono fun free u hu => ?_)
    obtain ⟨hu, hfree⟩ := hu
    refine .ite (fun hf => ?_) fun hf => ?_
    · have hb : freeBit t.view b = true := hfree ▸ hf
      have hu' := h.loads hu
      have hserved := hu'.served_bitmap (b := b) (hu.view.symm ▸ hlt)
      have h4 := (bitmapWord_range hlt).2.2
      refine .bindL ((loadWord_wp hu'.super_mapped h4 hserved).mono fun w v hv => ?_)
      have hv' := hu'.loads hv.1
      have hserved' := hv'.served_bitmap (b := b) (hv.1.view.symm ▸ hu.view.symm ▸ hlt)
      refine .bindL ((hv'.storeWord h4 hserved').mono fun _ x hx => ?_)
      refine .bindL ((flushBlock_wp (.inr (by decide))).mono fun _ z hz => ?_)
      refine .pureE ⟨hlt, hb, fun x hx hx' => by omega, x, ?_, hz⟩
      have hw : w = t.view.word (bitmapWord b) := by rw [hv.2, hu.view]
      rw [hw] at hx
      exact (hx.of_loads hv.1).of_loads hu
    · have hb : freeBit t.view b = false := hfree ▸ Bool.eq_false_of_not_eq_true hf
      refine (ih (h.loads hu) (by rw [hu.view]; omega)).mono fun r v hr => ?_
      rw [hu.view] at hr
      have hfirst : ∀ {c}, (∀ x, b + 1 ≤ x → x < c → freeBit t.view x = false) →
          ∀ x, b ≤ x → x < c → freeBit t.view x = false := by
        intro c hall x hx hx'
        obtain rfl | hne := Nat.eq_or_lt_of_le hx
        · exact hb
        · exact hall x hne hx'
      cases r with
      | ok c =>
        obtain ⟨hlt', hc, hall, hv⟩ := hr
        exact ⟨hlt', hc, hfirst hall, hv.of_loads hu⟩
      | error e =>
        obtain ⟨he, hv, hall⟩ := hr
        exact ⟨he, hu.trans hv, hfirst hall⟩

theorem allocBlock_wp (h : Up D s) :
    Wp D allocBlock.run s fun r t =>
      match r with
      | .ok b => b < nblocksOf s.view ∧ freeBit s.view b = true ∧
        (∀ x, x < b → freeBit s.view x = false) ∧ Takes b s t
      | .error e => e = -eNoDisk ∧ Loads s t ∧ Full s.view := by
  refine .bindL (h.superNblocks.mono fun w t hw => ?_)
  obtain ⟨rfl, hw⟩ := hw
  refine (allocBlockFrom_wp h (by omega)).mono fun r u hr => ?_
  cases r with
  | ok b => exact ⟨hr.1, hr.2.1, fun x hx => hr.2.2.1 x (Nat.zero_le x) hx, hr.2.2.2⟩
  | error e => exact ⟨hr.1, hr.2.1, fun x hx => hr.2.2 x (Nat.zero_le x) hx⟩

/-- A word outside the super block and the bitmap, in a block that is in use. -/
structure Cache.Cell (s : Cache) (a : Nat) : Prop where
  aligned : a % 4 = 0
  range : (a + 4 ≤ 4100 ∨ 4104 ≤ a) ∧ (a + 4 ≤ 8192 ∨ bitmapEnd (nblocksOf s.view) * 4096 ≤ a)
  home : a / 4096 = 1 ∨ s.InUse (a / 4096)

theorem Sane.cell (h : Sane s) (ha : Place s.view a) : s.Cell a where
  aligned := ha.home.1
  range := h.owned.place_range ha
  home := by
    obtain ⟨-, hlo | ⟨x, hx, hxa⟩⟩ := ha.home
    · left
      omega
    · have := h.owned.ptr_block hx hxa
      exact .inr ⟨this.2.1, this.2.2⟩

theorem Up.allocInto (h : Up D s) (ha : s.Cell a) :
    Wp D (allocInto a).run s fun r t =>
      match r with
      | .ok _ => ∃ b, Alloc a b s t
      | .error e => e = -eNoDisk ∧ Loads s t ∧ Full s.view := by
  refine .bindE ((allocBlock_wp h).mono fun r t hr => ?_)
  cases r with
  | error e => exact hr
  | ok b =>
    obtain ⟨hhi, hfree, hfirst, u, hu, rfl⟩ := hr
    have hlo := h.lo_of_free hfree
    have hview : (u.flushed 2).view = s.view.putWord (bitmapWord b)
        (s.view.word (bitmapWord b) ^^^ 1#32 <<< (b % 32)) := by
      rw [view_flushed (hu.coherent h.coherent)]
      exact hu.view
    have hup : Up D (u.flushed 2) := h.stage ((hu.stage_of_bitmap hlo fun x hx => by
      rw [freeBit_xor, if_neg hx]).trans stage_flushed)
    have hn : nblocksOf (u.flushed 2).view = nblocksOf s.view := by
      rw [hview]
      refine nblocksOf_congr fun x hx hx' => Lib.Image.put_of_notMem ?_
      have := bitmapWord_range hhi
      omega
    have hused : ∀ {x}, x < nblocksOf s.view → x = b ∨ freeBit s.view x = false →
        (u.flushed 2).InUse x := by
      intro x hlt hx
      refine ⟨hn ▸ hlt, ?_⟩
      rw [hview, freeBit_xor, hfree]
      split
      · rfl
      · next hne => exact hx.resolve_left hne
    have hserved : D ∨ (u.flushed 2).Served (a / blksize) := by
      rw [blksize]
      obtain hblk | ⟨hlt, hx⟩ := ha.home
      · rw [hblk]
        exact .inr (.inl hup.mounted.mapped)
      · exact hup.served (hused hlt (.inr hx))
    refine .bindL ((hup.storeWord ha.aligned hserved).mono fun _ v hv => ?_)
    have hr := ha.range
    have hle := h.mounted.bitmapEnd_le
    have hup' : Up D v := hup.stage (hv.stage_of_disjoint hr.1 (hn ▸ hr.2) (hn ▸ hle))
    have hn' : nblocksOf v.view = nblocksOf s.view := by
      rw [hv.view, ← hn]
      exact nblocksOf_congr fun x hx hx' => Lib.Image.put_of_notMem (by omega)
    have hb0 : b ≠ 0 := by
      rw [bitmapEnd] at hlo
      omega
    refine .bindL ((hup'.diskaddr hb0 (hn' ▸ hhi)).mono fun addr v' hv' => ?_)
    obtain ⟨rfl, rfl⟩ := hv'
    have hinUse : v'.InUse b := by
      refine ⟨hn' ▸ hhi, ?_⟩
      have hold := (hused hhi (.inl rfl)).2
      rw [← hold, hv.view]
      exact freeBit_congr hhi fun x hx hx' => Lib.Image.put_of_notMem (by omega)
    have hserved' : ∀ x, b * blksize ≤ x → x < b * blksize + blksize →
        D ∨ v'.Served (x / blksize) := by
      intro x hx hx'
      have hblk : x / blksize = b := by
        rw [blksize] at *
        omega
      exact hblk.symm ▸ hup'.served hinUse
    refine .bindL ((hup'.store hserved').mono fun _ w hw => ?_)
    have hn'' : nblocksOf w.view = nblocksOf s.view := by
      rw [hw.view, ← hn']
      refine nblocksOf_congr fun x hx hx' => Lib.Image.put_of_notMem ?_
      rw [bitmapEnd] at hlo
      rw [blksize]
      omega
    have hup'' : Up D w := hup'.stage (hw.stage_of_disjoint
      (by rw [bitmapEnd] at hlo; rw [blksize]; omega)
      (.inr (by rw [hn', blksize]; exact Nat.mul_le_mul_right 4096 hlo)) (hn' ▸ hle))
    refine .bindL ((hup''.diskaddr hb0 (hn'' ▸ hhi)).mono fun addr w' hw' => ?_)
    obtain ⟨rfl, rfl⟩ := hw'
    refine .liftE ((hup''.flushBlock (hn'' ▸ hhi) (mul_div_blksize b)).mono fun _ x hx => ?_)
    exact ⟨b, hlo, hhi, hfree, hfirst, _, v', w', ⟨u, hu, rfl⟩, hv, hw, hx⟩

theorem Alloc.stage (h : Alloc a b s t) (hs : Up D s) (ha : s.Cell a) :
    t.view = grown s.view a b ∧ Stage s t := by
  obtain ⟨_, v, w, ⟨u, hu, rfl⟩, hv, hw, rfl⟩ := h.stores
  exact stage_grow hs.coherent hs.mounted ha.range h.lo h.hi hu hv hw

theorem Alloc.step (h : Alloc a b s t) (hf : Node s.view f) (ha : PlaceOf s.view f a)
    (h0 : s.view.word a = 0)
    (hroom : ∀ i, slot s.view f i = some a → i * blksize < (s.view.word (fSize f)).toNat) :
    Step (.grow f) s t := by
  obtain ⟨_, v, w, ⟨u, hu, rfl⟩, hv, hw, rfl⟩ := h.stores
  exact .grow hf ha h0 h.lo h.hi h.free hroom hu hv hw

end Alloc

end Jos.Fs
