import Jos.Fs.WriteBack

/-! `file_read` and `file_write` at offsets before the start of a file or past the largest one. -/

namespace Jos.Fs

open Kern Lib Cache

variable {D : Prop} {s t u : Cache} {a b c f i k n x : Nat} {pos stop count offset : Word}
  {buf : Nat → Byte}

section Positions

theorem neg_of_msb (h : 2 ^ 31 ≤ pos.toNat) : pos.msb = true := by
  rw [BitVec.msb_eq_true_iff_two_mul_ge]
  omega

theorem toNat_neg_of_msb (h : 2 ^ 31 ≤ pos.toNat) :
    (-pos).toNat + pos.toNat = 2 ^ 32 ∧ 0 < (-pos).toNat ∧ (-pos).toNat ≤ 2 ^ 31 := by
  have := pos.isLt
  rw [BitVec.toNat_neg]
  omega

theorem toInt_of_msb (h : 2 ^ 31 ≤ pos.toNat) : pos.toInt = -((-pos).toNat : Int) := by
  have := toNat_neg_of_msb h
  rw [BitVec.toInt_eq_msb_cond, neg_of_msb h, if_pos rfl]
  omega

theorem toNat_sdiv_neg (h : 2 ^ 31 ≤ pos.toNat) :
    (pos.sdiv 4096).toNat = (2 ^ 32 - (-pos).toNat / 4096) % 2 ^ 32 := by
  rw [BitVec.sdiv_eq, neg_of_msb h, show (4096 : Word).msb = false from rfl]
  dsimp only
  rw [BitVec.toNat_neg, BitVec.udiv_eq, BitVec.toNat_udiv]
  rfl

theorem srem_neg (h : 2 ^ 31 ≤ pos.toNat) (hk : (-pos).toNat < 4096) : pos.srem 4096 = pos := by
  rw [BitVec.srem_eq, neg_of_msb h, show (4096 : Word).msb = false from rfl]
  dsimp only
  have hmod : (-pos) % 4096 = -pos := by
    refine BitVec.eq_of_toNat_eq ?_
    rw [BitVec.toNat_umod]
    exact Nat.mod_eq_of_lt hk
  rw [hmod, BitVec.neg_neg]

theorem inBlock_neg (h : 2 ^ 31 ≤ pos.toNat) (hk : (-pos).toNat < 4096) :
    inBlock a pos = a - (-pos).toNat := by
  rw [inBlock, srem_neg h hk, toInt_of_msb h]
  omega

theorem chunk_neg (h : 2 ^ 31 ≤ pos.toNat) (hk : (-pos).toNat < 4096)
    (hc : count.toNat < (-pos).toNat) : chunk pos (pos + count) = count := by
  have hsub : pos + count - pos = count := by
    rw [BitVec.add_comm, BitVec.add_sub_cancel]
  have hneg := toNat_neg_of_msb h
  rw [chunk, srem_neg h hk, hsub, if_neg]
  rw [BitVec.le_def, BitVec.toNat_sub, show (4096 : Word).toNat = 4096 from rfl]
  omega

theorem lt_add_neg (h : 2 ^ 31 ≤ pos.toNat) (hc0 : 0 < count.toNat) (hc : count.toNat < (-pos).toNat) :
    pos < pos + count := by
  have hneg := toNat_neg_of_msb h
  rw [BitVec.lt_def, BitVec.toNat_add]
  omega

theorem not_lt_add_neg (h : 2 ^ 31 ≤ pos.toNat)
    (hc : count.toNat = 0 ∨ (-pos).toNat ≤ count.toNat) : ¬ pos < pos + count := by
  have hneg := toNat_neg_of_msb h
  have := count.isLt
  rw [BitVec.lt_def, BitVec.toNat_add]
  omega

theorem past_of_neg (h : 2 ^ 31 ≤ pos.toNat) (hk : 4096 ≤ (-pos).toNat) :
    ndirect + nindirect < (pos.sdiv 4096).toNat := by
  have hneg := toNat_neg_of_msb h
  rw [toNat_sdiv_neg h, ndirect, nindirect, blksize]
  omega

theorem sdiv_neg_small (h : 2 ^ 31 ≤ pos.toNat) (hk : (-pos).toNat < 4096) :
    (pos.sdiv 4096).toNat = 0 := by
  rw [toNat_sdiv_neg h, Nat.div_eq_of_lt hk]
  rfl

end Positions

section Loops

theorem fileReadFrom_of_ge (h : ¬ pos < stop) : fileReadFrom f stop n pos = pure [] := by
  cases n with
  | zero => rfl
  | succ n => exact if_neg h

theorem fileWriteFrom_of_ge (h : ¬ pos < stop) : fileWriteFrom f buf stop n pos i = pure () := by
  cases n with
  | zero => rfl
  | succ n => exact if_neg h

theorem fileReadFrom_below (h : 2 ^ 31 ≤ pos.toNat) (hk : (-pos).toNat < 4096)
    (hc0 : 0 < count.toNat) (hc : count.toNat < (-pos).toNat) :
    fileReadFrom f (pos + count) count.toNat pos = (do
      let blk ← fileGetBlock f 0
      loadBytes (blk - (-pos).toNat) count.toNat : Try (List Byte)) := by
  obtain ⟨n, hn⟩ := Nat.exists_eq_succ_of_ne_zero (Nat.ne_of_gt hc0)
  conv_lhs => rw [hn]
  rw [fileReadFrom, if_pos (lt_add_neg h hc0 hc), sdiv_neg_small h hk, chunk_neg h hk hc]
  refine bind_congr fun blk => ?_
  dsimp only
  rw [inBlock_neg h hk, fileReadFrom_of_ge (BitVec.lt_irrefl _)]
  simp only [pure_bind, List.append_nil, bind_pure]

theorem fileWriteFrom_below (h : 2 ^ 31 ≤ pos.toNat) (hk : (-pos).toNat < 4096)
    (hc0 : 0 < count.toNat) (hc : count.toNat < (-pos).toNat) :
    fileWriteFrom f buf (pos + count) count.toNat pos 0 = (do
      let blk ← fileGetBlock f 0
      store (blk - (-pos).toNat) count.toNat buf : Try Unit) := by
  obtain ⟨n, hn⟩ := Nat.exists_eq_succ_of_ne_zero (Nat.ne_of_gt hc0)
  conv_lhs => rw [hn]
  rw [fileWriteFrom, if_pos (lt_add_neg h hc0 hc), sdiv_neg_small h hk, chunk_neg h hk hc]
  refine bind_congr fun blk => ?_
  dsimp only
  rw [inBlock_neg h hk, fileWriteFrom_of_ge (BitVec.lt_irrefl _)]
  simp only [Nat.zero_add]
  exact bind_pure_unit

end Loops

section First

theorem fileGetBlock_zero : fileGetBlock f 0 = (do
    allocIfNull (fDirect f 0)
    let bno ← loadWord (fDirect f 0)
    diskaddr bno.toNat : Try Nat) := by
  rw [fileGetBlock, fileBlockWalk, if_neg (by decide), if_pos (by decide), pure_bind]

/-- The first block of a file, and that the block before it can be accessed if the first one is
new: there is no free block before a new one. -/
theorem Up.first (h : Up D s) (ha : s.Cell (fDirect f 0))
    (hrange : ∀ b, ptrAt s.view (fDirect f 0) = some b → b < nblocksOf s.view) :
    Wp D (fileGetBlock f 0).run s fun r t =>
      match r with
      | .ok blk => ∃ b, blk = b * blksize ∧ Up D t ∧
        (ptrAt s.view (fDirect f 0) = some b ∧ Loads s t ∨
          ptrAt s.view (fDirect f 0) = none ∧ b < nblocksOf s.view ∧ freeBit s.view b = true ∧
            freeBit t.view b = false ∧ t.InUse (b - 1))
      | .error e => e = -eNoDisk ∧ Full s.view ∧ ptrAt s.view (fDirect f 0) = none := by
  rw [fileGetBlock_zero]
  refine (h.fetch ha hrange).mono fun r t hr => ?_
  cases r with
  | error e => exact ⟨hr.1, hr.2.2.1, ptrAt_eq_none.2 hr.2.2.2⟩
  | ok blk =>
    obtain ⟨v, b, hfill, hl, hb, rfl⟩ := hr
    refine ⟨b, rfl, ?_⟩
    obtain ⟨hne, hv⟩ | ⟨h0, b', hv⟩ := hfill
    · exact ⟨(h.loads hv).loads hl, .inl ⟨hv.view ▸ hb, hv.trans hl⟩⟩
    · obtain rfl : b' = b := Option.some.inj ((hv.link h ha).symm.trans hb)
      have hlo := hv.lo
      have hhi := hv.hi
      rw [bitmapEnd] at hlo
      refine ⟨(hv.up h ha).loads hl, .inr ⟨ptrAt_eq_none.2 h0, hhi, hv.free, ?_, hl.inUse ?_⟩⟩
      · rw [hl.view, hv.freeBit h ha hhi, if_pos rfl]
      · exact hv.inUse h ha ⟨by omega, hv.first _ (by omega)⟩

end First

section Read

def clipped (size count offset : Word) : Word := if count ≤ size - offset then count else size - offset

theorem toNat_clipped {size : Word} (hsize : size.toNat < 2 ^ 31) (h : 2 ^ 31 ≤ offset.toNat) :
    (clipped size count offset).toNat = min count.toNat (size.toNat + (-offset).toNat) := by
  have hneg := toNat_neg_of_msb h
  have hsub : (size - offset).toNat = size.toNat + (-offset).toNat := by
    rw [BitVec.toNat_sub]
    omega
  rw [clipped]
  split
  · next hle =>
    rw [BitVec.le_def, hsub] at hle
    omega
  · next hle =>
    rw [BitVec.le_def, hsub] at hle
    rw [hsub]
    omega

theorem loadWord_mapped (hs : s.Mounted) :
    Wp True (loadWord a) s fun _ t => ∀ x, t.Mapped x → s.Mapped x ∨ s.InUse x :=
  .bind ((touchAt_inUse hs).mono fun _ _ h => .bind (.get (.pure h.2)))

theorem fileRead_neg {Q : Except Word (Word × List Byte) → Cache → Prop} (h : Ready D s)
    (hf : Node s.view f) (hneg : 2 ^ 31 ≤ offset.toNat)
    (hc : c = (clipped (s.view.word (fSize f)) count offset).toNat)
    (hloop : ∀ t, Loads s t → (∀ x, t.Mapped x → s.Mapped x ∨ s.InUse x) → Wp D (fileReadFrom f
      (offset + clipped (s.view.word (fSize f)) count offset) c offset).run t fun r t =>
        match r with
        | .ok bytes => Q (.ok (clipped (s.view.word (fSize f)) count offset, bytes)) t
        | .error e => Q (.error e) t) :
    Wp D (fileRead f count offset).run s Q := by
  have hsize := lt_of_le_maxfilesize (h.sized f hf)
  refine .bindL (((h.loadWord_node hf (by decide) (by decide)).and
    (loadWord_mapped h.mounted)).mono fun size t ht => ?_)
  obtain ⟨⟨ht, rfl⟩, hmap⟩ := ht
  refine .ite (fun hle => ?_) fun _ => ?_
  · rw [BitVec.sle_eq_decide, decide_eq_true_eq, toInt_of_msb hneg,
      BitVec.toInt_eq_toNat_of_lt (by rw [← fSize]; omega)] at hle
    have := toNat_neg_of_msb hneg
    omega
  · subst hc
    refine .bindE ((hloop t ht hmap).mono fun r u hr => ?_)
    cases r with
    | error e => exact hr
    | ok bytes => exact .pureE hr

theorem fileRead_skips (h : Ready D s) (hf : Node s.view f) (hneg : 2 ^ 31 ≤ offset.toNat)
    (hc : count.toNat = 0 ∨ (-offset).toNat ≤ count.toNat) :
    Wp D (fileRead f count offset).run s fun r t => Loads s t ∧
      r = .ok (clipped (s.view.word (fSize f)) count offset, []) := by
  have hsize := lt_of_le_maxfilesize (h.sized f hf)
  refine fileRead_neg h hf hneg rfl fun t ht _ => ?_
  rw [fileReadFrom_of_ge]
  · exact .pureE ⟨ht, rfl⟩
  · refine not_lt_add_neg hneg ?_
    rw [toNat_clipped hsize hneg]
    omega

theorem clipped_of_lt {size : Word} (hsize : size.toNat < 2 ^ 31) (hneg : 2 ^ 31 ≤ offset.toNat)
    (hc : count.toNat < (-offset).toNat) : clipped size count offset = count := by
  refine BitVec.eq_of_toNat_eq ?_
  rw [toNat_clipped hsize hneg]
  omega

theorem fileRead_inval (h : Ready D s) (hf : Node s.view f) (hneg : 2 ^ 31 ≤ offset.toNat)
    (hc0 : 0 < count.toNat) (hc : count.toNat < (-offset).toNat) (hk : 4096 ≤ (-offset).toNat) :
    Wp D (fileRead f count offset).run s fun r t => Loads s t ∧ r = .error (-eInval) := by
  have hsize := lt_of_le_maxfilesize (h.sized f hf)
  refine fileRead_neg h hf hneg rfl fun t ht _ => ?_
  rw [clipped_of_lt hsize hneg hc]
  obtain ⟨n, hn⟩ := Nat.exists_eq_succ_of_ne_zero (Nat.ne_of_gt hc0)
  rw [hn, fileReadFrom, if_pos (lt_add_neg hneg hc0 hc)]
  refine .bindE ((fileGetBlock_past (past_of_neg hneg hk)).mono fun r u hr => ?_)
  obtain ⟨rfl, rfl⟩ := hr
  exact ⟨ht, rfl⟩

theorem blockOf_zero {m : Lib.Image} : blockOf m f 0 = ptrAt m (fDirect f 0) := by
  rw [blockOf, slot, if_pos (by decide)]
  rfl

theorem before_block (hk : k ≤ 4096) (hx : b * blksize - k ≤ x)
    (hx' : x < b * blksize - k + n) (hn : n ≤ k) : x / blksize = b - 1 := by
  rw [blksize] at *
  omega

theorem fileRead_below (h : Ready D s) (hf : Node s.view f) (hneg : 2 ^ 31 ≤ offset.toNat)
    (hc0 : 0 < count.toNat) (hc : count.toNat < (-offset).toNat) (hk : (-offset).toNat < 4096)
    (hserved : ∀ b, blockOf s.view f 0 = some b → D ∨ s.Served (b - 1)) :
    Wp D (fileRead f count offset).run s fun r t =>
      match r with
      | .ok (n, _) => n = count ∧ (blockOf s.view f 0 ≠ none → Loads s t) ∧
        (blockOf s.view f 0 = none → t.view ≠ s.view ∧ ¬ Full s.view)
      | .error e => e = -eNoDisk ∧ Full s.view ∧ blockOf s.view f 0 = none := by
  have hsize := lt_of_le_maxfilesize (h.sized f hf)
  have hplace : Place s.view (fDirect f 0) := .slot hf (slot_direct (by decide))
  refine fileRead_neg h hf hneg rfl fun t ht _ => ?_
  rw [clipped_of_lt hsize hneg hc, fileReadFrom_below hneg hk hc0 hc]
  have hr := h.loads ht
  have hplace' : Place t.view (fDirect f 0) := ht.view.symm ▸ hplace
  refine .bindE ((hr.up.first (hr.toSane.cell hplace') fun b hb =>
    (hr.owned.ptr_range hplace' hb).2).mono fun r u hu => ?_)
  rw [ht.view, ← blockOf_zero] at hu
  cases r with
  | error e => exact hu
  | ok blk =>
    obtain ⟨b, rfl, hup, hcase⟩ := hu
    refine .liftE ((loadBytes_wp hup fun x hx hx' => ?_).mono fun _ v hv => ?_)
    · rw [before_block hk.le hx hx' hc.le]
      obtain ⟨hb, hl⟩ | ⟨-, -, -, -, hin⟩ := hcase
      · exact (hserved b hb).imp id fun hsv => (hsv.loads ht).loads hl
      · exact hup.served hin
    · obtain ⟨hv, -⟩ := hv
      refine ⟨rfl, fun hne => ?_, fun h0 => ?_⟩
      · obtain ⟨-, hl⟩ | ⟨h0, -⟩ := hcase
        · exact (ht.trans hl).trans hv
        · exact absurd h0 hne
      · obtain ⟨hb, -⟩ | ⟨-, hlt, hb, hb', -⟩ := hcase
        · rw [h0] at hb
          cases hb
        · refine ⟨fun heq => ?_, fun hfull => ?_⟩
          · rw [← hv.view, heq, hb] at hb'
            cases hb'
          · rw [hfull b hlt] at hb
            cases hb

theorem loadBytes_inUse (hs : s.Mounted) (hn : 0 < n) :
    Wp True (loadBytes a n) s fun _ _ => s.Mapped (a / blksize) ∨ s.InUse (a / blksize) := by
  rw [loadBytes, blocksOf, if_neg (Nat.ne_of_gt hn), List.range'_succ]
  exact .bind (.bind ((touchAt_inUse hs).mono fun _ _ h => .any fun _ _ => .any fun _ _ => h.1))

theorem Up.first_mapped (h : Up True s) (ha : s.Cell (fDirect f 0))
    (hb : ptrAt s.view (fDirect f 0) = some b) (hlt : b < nblocksOf s.view) :
    Wp True (fileGetBlock f 0).run s fun _ t => ∀ x, t.Mapped x → s.Mapped x ∨ s.InUse x := by
  obtain ⟨hne, htoNat⟩ := ptrAt_eq_some.1 hb
  rw [fileGetBlock_zero]
  refine .bindE (.bindL (((h.loadWord_cell ha).and (loadWord_mapped h.mounted)).mono fun w t ht => ?_))
  obtain ⟨⟨hl, rfl⟩, ht⟩ := ht
  refine .ite (fun h0 => absurd h0 hne) fun _ => .pureE ?_
  have hup := h.loads hl
  refine .bindL (((hup.loadWord_cell (cell_congr ha hl.view)).and
    (loadWord_mapped hup.mounted)).mono fun w u hu => ?_)
  obtain ⟨⟨hl', rfl⟩, hu⟩ := hu
  have hb0 : b ≠ 0 := fun hb0 => hne (BitVec.eq_of_toNat_eq (htoNat.trans hb0))
  rw [hl.view, htoNat]
  refine .liftE (((hup.loads hl').diskaddr hb0 ?_).mono fun addr v hv => ?_)
  · rw [hl'.view, hl.view]
    exact hlt
  · rw [hv.1]
    intro x hx
    refine (hu x hx).elim (ht x) fun hx => .inr ?_
    rwa [Cache.InUse, hl.view] at hx

theorem fileRead_below_inUse (h : Sane s) (hf : Node s.view f) (hneg : 2 ^ 31 ≤ offset.toNat)
    (hc0 : 0 < count.toNat) (hc : count.toNat < (-offset).toNat) (hk : (-offset).toNat < 4096)
    (hb : blockOf s.view f 0 = some b) :
    Wp True (fileRead f count offset).run s fun _ _ => s.Mapped (b - 1) ∨ s.InUse (b - 1) := by
  have hready : Ready True s := ⟨h, .inl trivial⟩
  have hsize := lt_of_le_maxfilesize (h.sized f hf)
  have hrange := h.owned.block_range hf hb
  rw [blockOf_zero] at hb
  refine fileRead_neg hready hf hneg rfl fun t ht hmap => ?_
  rw [clipped_of_lt hsize hneg hc, fileReadFrom_below hneg hk hc0 hc]
  have hr := hready.loads ht
  have hplace : Place t.view (fDirect f 0) :=
    .slot (ht.view.symm ▸ hf) (slot_direct (by decide))
  have hcell := hr.toSane.cell hplace
  have hbt : ptrAt t.view (fDirect f 0) = some b := ht.view.symm ▸ hb
  refine .bindE (((hr.up.first hcell fun b hb => (hr.owned.ptr_range hplace hb).2).and
    (hr.up.first_mapped hcell hbt (ht.view.symm ▸ hrange.2))).mono fun r u hu => ?_)
  obtain ⟨hu, hmap'⟩ := hu
  have hin : ∀ x, u.Mapped x → s.Mapped x ∨ s.InUse x := by
    intro x hx
    refine (hmap' x hx).elim (hmap x) fun hx => .inr ?_
    rwa [Cache.InUse, ht.view] at hx
  cases r with
  | error e =>
    rw [hbt] at hu
    cases hu.2.2
  | ok blk =>
    obtain ⟨b', rfl, hup, ⟨hb', hl⟩ | ⟨h0, -⟩⟩ := hu
    · obtain rfl : b' = b := Option.some.inj (hb'.symm.trans hbt)
      refine .liftE ((loadBytes_inUse hup.mounted hc0).mono fun _ _ hx => ?_)
      rw [before_block hk.le (Nat.le_refl _) (by omega) hc.le] at hx
      refine hx.elim (hin _) fun hx => .inr ?_
      rwa [Cache.InUse, hl.view, ht.view] at hx
    · rw [hbt] at h0
      cases h0

end Read

section Codes

def Coded {α : Type} (m : Try α) : Prop :=
  ∀ s, Wp True m.run s fun r _ => ∀ e, r = .error e → e.toInt < 0

variable {α β : Type} {m : Try α} {g : α → Try β}

namespace Coded

theorem pure {x : α} : Coded (Pure.pure x : Try α) := fun _ => .pureE nofun

theorem lift {m : Act α} : Coded (liftM m : Try α) := fun _ => .liftE (.any fun _ _ => nofun)

theorem throw {e : Word} (h : e.toInt < 0) : Coded (throw e : Try α) :=
  fun _ => .throwE fun e' he => by
    cases he
    exact h

theorem bind (h : Coded m) (h' : ∀ x, Coded (g x)) : Coded (m >>= g) := by
  refine fun s => .bindE ((h s).mono fun r t hr => ?_)
  cases r with
  | ok x => exact h' x t
  | error e =>
    intro e' he
    cases he
    exact hr e rfl

theorem ite {p : Prop} [Decidable p] {m' : Try α} (h : Coded m) (h' : Coded m') :
    Coded (if p then m else m') := by
  split
  · exact h
  · exact h'

end Coded

theorem coded_allocBlockFrom : Coded (allocBlockFrom n b) := by
  induction n generalizing b with
  | zero => exact .throw (by decide)
  | succ n ih =>
    refine .bind .lift fun _ => .ite (.bind .lift fun _ => .ite ?_ ih) (.throw (by decide))
    exact .bind .lift fun _ => .bind .lift fun _ => .bind .lift fun _ => .pure

theorem coded_allocIfNull : Coded (allocIfNull a) := by
  refine .bind .lift fun _ => .ite (.bind (.bind .lift fun _ => coded_allocBlockFrom) fun _ => ?_) .pure
  exact .bind .lift fun _ => .bind .lift fun _ => .bind .lift fun _ => .bind .lift fun _ => .lift

theorem coded_fileGetBlock : Coded (fileGetBlock f i) := by
  refine .bind (.ite (.throw (by decide)) (.ite .pure (.bind .lift fun _ => .ite
    (.throw (by decide)) ?_))) fun _ => .bind coded_allocIfNull fun _ => .bind .lift fun _ => .lift
  exact .bind coded_allocIfNull fun _ => .bind .lift fun _ => .bind .lift fun _ => .pure

theorem coded_fileReadFrom : Coded (fileReadFrom f stop n pos) := by
  induction n generalizing pos with
  | zero => exact .pure
  | succ n ih =>
    refine .ite (.bind coded_fileGetBlock fun blk => ?_) .pure
    generalize chunk pos stop = bn
    generalize inBlock blk pos = a
    exact .bind .lift fun _ => .bind ih fun _ => .pure

theorem coded_fileWriteFrom : Coded (fileWriteFrom f buf stop n pos i) := by
  induction n generalizing pos i with
  | zero => exact .pure
  | succ n ih =>
    refine .ite (.bind coded_fileGetBlock fun blk => ?_) .pure
    generalize chunk pos stop = bn
    generalize inBlock blk pos = a
    exact .bind .lift fun _ => ih

theorem coded_fileRead : Coded (fileRead f count offset) :=
  .bind .lift fun _ => .ite .pure (.bind coded_fileReadFrom fun _ => .pure)

theorem coded_fileWrite : Coded (fileWrite f buf count offset) :=
  .bind .lift fun _ => .bind (.ite .lift .pure) fun _ => .bind coded_fileWriteFrom fun _ => .pure

theorem fileWrite_ok : Wp True (fileWrite f buf count offset).run s fun r _ =>
    ∀ n, r = .ok n → n = count := by
  refine .bindL (.any fun _ _ => .bindE (.any fun r _ => ?_))
  cases r with
  | error e => exact nofun
  | ok _ =>
    refine .bindE (.any fun r _ => ?_)
    cases r with
    | error e => exact nofun
    | ok _ => exact .pureE fun n hn => (Except.ok.inj hn).symm

end Codes

section Write

/-- A write that goes more than a block past the largest file comes to an index that is out of
range. -/
theorem fileWriteFrom_long (hpos : pos.toNat < 2 ^ 31) (hlt : pos.toNat < stop.toNat)
    (hstop : maxfilesize + blksize < stop.toNat) (hn : stop.toNat ≤ pos.toNat + n) :
    Wp True (fileWriteFrom f buf stop n pos i).run s fun r _ => ∀ v, r ≠ .ok v := by
  induction n generalizing s pos i with
  | zero => omega
  | succ n ih =>
    rw [fileWriteFrom, if_pos (BitVec.lt_def.2 hlt)]
    by_cases hi : ndirect + nindirect < pos.toNat / 4096
    · refine .bindE ((fileGetBlock_past ?_).mono fun r t hr => ?_)
      · rwa [toNat_sdiv_block hpos]
      · obtain ⟨rfl, rfl⟩ := hr
        rintro v ⟨⟩
    · rw [maxfilesize, ndirect, nindirect, blksize] at hstop
      rw [ndirect, nindirect, blksize] at hi
      have hrem := toNat_srem_block hpos
      have hchunk : (chunk pos stop).toNat = 4096 - pos.toNat % 4096 := by
        have hsub : (4096 - pos.srem 4096).toNat = 4096 - pos.toNat % 4096 := by
          rw [BitVec.toNat_sub, hrem, show (4096 : Word).toNat = 4096 from rfl]
          omega
        rw [chunk, if_pos, hsub]
        rw [BitVec.le_def, hsub, BitVec.toNat_sub]
        omega
      have hnext : (pos + chunk pos stop).toNat = pos.toNat + (4096 - pos.toNat % 4096) := by
        rw [BitVec.toNat_add, hchunk]
        omega
      generalize chunk pos stop = bn at hchunk hnext
      refine .bindE (.any fun r t => ?_)
      cases r with
      | error e => rintro v ⟨⟩
      | ok blk =>
        generalize inBlock blk pos = a
        exact .bindL (.any fun _ _ => ih (by omega) (by omega) (by omega))

theorem fileWrite_long (hpos : offset.toNat < 2 ^ 31) (hc : count.toNat < 2 ^ 31)
    (hstop : maxfilesize + blksize < offset.toNat + count.toNat) (hc0 : 0 < count.toNat) :
    Wp True (fileWrite f buf count offset).run s fun r _ => ∀ v, r ≠ .ok v := by
  have hadd : (offset + count).toNat = offset.toNat + count.toNat := by
    rw [BitVec.toNat_add]
    omega
  refine .bindL (.any fun _ _ => .bindE (.any fun r _ => ?_))
  cases r with
  | error e => rintro v ⟨⟩
  | ok _ =>
    refine .bindE ((fileWriteFrom_long hpos (by omega) (hadd.symm ▸ hstop) (by omega)).mono
      fun r t hr => ?_)
    cases r with
    | error e => rintro v ⟨⟩
    | ok v => exact absurd rfl (hr v)

theorem fileWrite_inval (hneg : 2 ^ 31 ≤ offset.toNat) (hc0 : 0 < count.toNat)
    (hc : count.toNat < (-offset).toNat) (hk : 4096 ≤ (-offset).toNat) :
    Wp True (fileWrite f buf count offset).run s fun r _ => ∀ v, r ≠ .ok v := by
  refine .bindL (.any fun _ _ => .bindE (.any fun r _ => ?_))
  cases r with
  | error e => rintro v ⟨⟩
  | ok _ =>
    obtain ⟨n, hn⟩ := Nat.exists_eq_succ_of_ne_zero (Nat.ne_of_gt hc0)
    rw [hn, fileWriteFrom, if_pos (lt_add_neg hneg hc0 hc)]
    refine .bindE (.bindE ((fileGetBlock_past (past_of_neg hneg hk)).mono fun r t hr => ?_))
    obtain ⟨rfl, rfl⟩ := hr
    rintro v ⟨⟩

theorem fileWrite_skips (h : Ready D s) (hf : Node s.view f) (htype : s.view.word (fType f) ≠ ftypeDir)
    (hneg : 2 ^ 31 ≤ offset.toNat) (hc : (-offset).toNat ≤ count.toNat) :
    Wp D (fileWrite f buf count offset).run s fun r _ => r = .ok count := by
  refine .bindL ((h.loadWord_node hf (by decide) (by decide)).mono fun size t ht => ?_)
  rw [fileWriteFrom_of_ge (not_lt_add_neg hneg (.inr hc))]
  have ht := ht.1
  refine .bindE (.ite (fun _ => .liftE ?_) fun _ => .pureE (.pureE rfl))
  exact (fileSetSize_any (h.loads ht) (ht.view.symm ▸ hf) (ht.view.symm ▸ htype)).mono
    fun _ _ _ => .pureE rfl

def Bare (m : Lib.Image) (f : Nat) : Prop := (∀ j, blockOf m f j = none) ∧ ptrAt m (fIndirect f) = none

section Trim

variable {m m' : Lib.Image}

theorem Trim.eq_of_full (h : Trim f n m m') (hm : Owned m) (hf : Node m f)
    (htype : m.word (fType f) ≠ ftypeDir) (hfull : Full m') : m' = m := by
  have hfreed : ∀ {m₀ a b}, Drops m₀ m' a b → b < nblocksOf m₀ → m' = m := by
    intro m₀ a b hd hb
    have hb' := hfull b (hd.nblocks.symm ▸ hb)
    rw [hd.freed hb, if_pos rfl] at hb'
    cases hb'
  cases h with
  | refl => rfl
  | @slot m₀ i a b h hi hs hb =>
    have ht := h.trimmed hm hf htype
    have hf' := ht.node.2 hf
    exact hfreed (ht.owned.drops_slot hf' ((ht.type hf).symm ▸ htype) hs hb)
      (ht.owned.ptr_range (.slot hf' hs) hb).2
  | @indirect m₀ b h hn hb hnone =>
    have ht := h.trimmed hm hf htype
    have hf' := ht.node.2 hf
    exact hfreed (ht.owned.drops_indirect hf' hb fun i hi => hnone i (Nat.le_trans hn hi))
      (ht.owned.ptr_range (.indirect hf') hb).2

theorem Trim.eq_of_bare (h : Trim f n m m') (hb : Bare m f) : m' = m := by
  induction h with
  | refl => rfl
  | slot _ _ hs hb' ih =>
    subst ih
    have := blockOf_eq_some.2 ⟨_, hs, hb'⟩
    rw [hb.1] at this
    cases this
  | indirect _ _ hb' _ ih =>
    subst ih
    rw [hb.2] at hb'
    cases hb'

end Trim

theorem SetsSize.full_iff {w : Word} (h : SetsSize D f w s u t) (hs : Ready D s) (hf : Node s.view f)
    (htype : s.view.word (fType f) ≠ ftypeDir) (hw : w.slt (s.view.word (fSize f)) = true)
    (h0 : (sizeBlocks w).toNat = 0) : Full t.view ↔ Full s.view ∧ Bare s.view f := by
  have htrim := (h.shrinks.trim hs hf htype).1
  have hu := h.shrinks.ready hs hf htype
  have hfu := (h.shrinks.trimmed hs hf htype).node.2 hf
  have hsame : SameTree u.view t.view := h.view ▸ hu.owned.sameTree_size hfu
  obtain ⟨hcut, hind⟩ := h.cut hw
  rw [h0] at hcut hind
  have hfull : Full t.view ↔ Full u.view := by
    rw [Full, Full, hsame.nblocks]
    exact forall₂_congr fun b hb => by rw [hsame.free hb]
  rw [hfull]
  constructor
  · intro hfu
    have heq := htrim.eq_of_full hs.owned hf htype hfu
    rw [heq] at hcut hind
    exact ⟨heq ▸ hfu, fun j => (hcut j).trans (if_neg (Nat.not_lt_zero j)), hind (Nat.zero_le _)⟩
  · rintro ⟨hfs, hbare⟩
    rw [htrim.eq_of_bare hbare]
    exact hfs

theorem fileWrite_below (h : Ready D s) (hf : Node s.view f) (htype : s.view.word (fType f) ≠ ftypeDir)
    (hneg : 2 ^ 31 ≤ offset.toNat) (hc0 : 0 < count.toNat) (hc : count.toNat < (-offset).toNat)
    (hk : (-offset).toNat < 4096) :
    Wp D (fileWrite f buf count offset).run s fun r _ =>
      (∃ n, r = .ok n) ↔ ¬ (Full s.view ∧ Bare s.view f) := by
  have hback := toNat_neg_of_msb hneg
  have hstop : (offset + count).toNat = offset.toNat + count.toNat := by
    rw [BitVec.toNat_add]
    omega
  have hsize := lt_of_le_maxfilesize (h.sized f hf)
  have hslt : (offset + count).slt (s.view.word (fSize f)) = true := by
    rw [BitVec.slt_eq_decide, decide_eq_true_eq, toInt_of_msb (by omega),
      BitVec.toInt_eq_toNat_of_lt (by omega)]
    have := @toNat_neg_of_msb (offset + count) (by omega)
    omega
  have hzero : (sizeBlocks (offset + count)).toNat = 0 := by
    have hadd : (offset + count + 4095).toNat = offset.toNat + count.toNat + 4095 - 2 ^ 32 := by
      rw [BitVec.toNat_add, hstop, show (4095 : Word).toNat = 4095 from rfl]
      omega
    rw [sizeBlocks, toNat_sdiv_block (by omega), hadd]
    omega
  refine .bindL ((h.loadWord_node hf (by decide) (by decide)).mono fun size t ht => ?_)
  obtain ⟨ht, rfl⟩ := ht
  have hr := h.loads ht
  have hft : Node t.view f := ht.view.symm ▸ hf
  have htypet : t.view.word (fType f) ≠ ftypeDir := ht.view.symm ▸ htype
  rw [fileWriteFrom_below hneg hk hc0 hc]
  refine .bindE (.ite (fun _ => .liftE ?_) fun hge => ?_)
  rotate_left
  · rw [BitVec.lt_def, hstop, ← fSize] at hge
    omega
  refine (fileSetSize_any hr hft htypet).mono fun _ v hv => ?_
  obtain ⟨u, hv⟩ := hv
  have hfull := hv.full_iff hr hft htypet (ht.view.symm ▸ hslt) hzero
  rw [ht.view] at hfull
  rw [← hfull]
  have hu := hv.shrinks.ready hr hft htypet
  have hfu := (hv.shrinks.trimmed hr hft htypet).node.2 hft
  have hsame : SameTree u.view v.view := hv.view ▸ hu.owned.sameTree_size hfu
  have hplace : Place u.view (fDirect f 0) := .slot hfu (slot_direct (by decide))
  have hcu := hu.toSane.cell hplace
  have hcell : v.Cell (fDirect f 0) := ⟨hcu.aligned, hsame.nblocks.symm ▸ hcu.range,
    hcu.home.imp id fun hx => ⟨hsame.nblocks.symm ▸ hx.1, (hsame.free hx.1).trans hx.2⟩⟩
  have hnull : ptrAt v.view (fDirect f 0) = none := by
    rw [ptrAt_congr (hsame.ptr hplace), ← blockOf_zero, (hv.cut (ht.view.symm ▸ hslt)).1 0, hzero]
    rfl
  refine .bindE (.bindE ((hv.up.first hcell fun b hb => ?_).mono fun r z hz => ?_))
  · rw [hnull] at hb
    cases hb
  cases r with
  | error e => exact ⟨by rintro ⟨_, ⟨⟩⟩, fun hno => absurd hz.2.1 hno⟩
  | ok blk =>
    obtain ⟨b, rfl, hup, ⟨hb, -⟩ | ⟨-, hlt, hb, -, hin⟩⟩ := hz
    · rw [hnull] at hb
      cases hb
    · refine .liftE ((hup.store fun x hx hx' => ?_).mono fun _ y _ => .pureE ?_)
      · rw [before_block hk.le hx hx' hc.le]
        exact hup.served hin
      · refine ⟨fun _ hno => ?_, fun _ => ⟨count, rfl⟩⟩
        rw [hno b hlt] at hb
        cases hb

end Write

end Jos.Fs
