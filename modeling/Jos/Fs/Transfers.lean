import Jos.Fs.Offsets

/-! Whether `file_read` and `file_write` have moved the bytes they say they have, at any offset and
for any count. -/

namespace Jos.Fs

open Kern Lib Cache

variable {D : Prop} {s t : Cache} {f : Nat} {count offset : Word} {buf : Nat → Byte}

def HasAt (m : Lib.Image) (f : Nat) (offset : Int) (bs : List Byte) : Prop :=
  ∀ i, (h : i < bs.length) → 0 ≤ offset + i ∧ offset + i < (m.word (fSize f)).toNat ∧
    fileByte m f (offset + i).toNat = bs[i]

/-- A negative code, or as many bytes as it returns from the positions they were asked from. -/
def ReadExact (s : Cache) (f : Nat) (count offset : Word) : Prop :=
  ∀ r t, (fileRead f count offset).run s = some (r, t) →
    match r with
    | .error e => e.toInt < 0
    | .ok (n, bytes) => n.toInt < 0 ∨ bytes.length = n.toNat ∧ HasAt s.view f offset.toInt bytes

/-- A negative code, or as many bytes as it returns at the positions they were meant for. -/
def WriteExact (s : Cache) (f : Nat) (buf : Nat → Byte) (count offset : Word) : Prop :=
  ∀ r t, (fileWrite f buf count offset).run s = some (r, t) →
    match r with
    | .error e => e.toInt < 0
    | .ok n => n.toInt < 0 ∨ HasAt t.view f offset.toInt ((List.range n.toNat).map buf)

/-- The offset is in the file or past it, or the count is such that the call fails. -/
def ReadInRange (s : Cache) (f : Nat) (count offset : Word) : Prop :=
  0 ≤ offset.toInt ∨ count = 0 ∨
    (-offset).toNat ≤ count.toNat ∧
      2 ^ 31 ≤ min count.toNat ((s.view.word (fSize f)).toNat + (-offset).toNat) ∨
    count.toNat < (-offset).toNat ∧ (4096 ≤ (-offset).toNat ∨
      match blockOf s.view f 0 with
      | none => Full s.view
      | some b => ¬ s.Mapped (b - 1) ∧ freeBit s.view (b - 1) = true)

/-- The write ends one byte to one block past the largest file. -/
def AtEnd (count offset : Word) : Prop :=
  0 ≤ offset.toInt ∧ count ≠ 0 ∧ maxfilesize < offset.toNat + count.toNat ∧
    offset.toNat + count.toNat ≤ maxfilesize + blksize

instance : Decidable (AtEnd count offset) := inferInstanceAs (Decidable (_ ∧ _))

def WriteInRange (s : Cache) (f : Nat) (count offset : Word) : Prop :=
  count = 0 ∨ 0 ≤ offset.toInt ∧ ¬ AtEnd count offset ∨
    offset.toInt < 0 ∧ (2 ^ 31 ≤ count.toNat ∨
      count.toNat < (-offset).toNat ∧ (4096 ≤ (-offset).toNat ∨ Full s.view ∧ Bare s.view f))

theorem toInt_nonneg_iff {w : Word} : 0 ≤ w.toInt ↔ w.toNat < 2 ^ 31 := by
  have := w.isLt
  rw [BitVec.toInt_eq_toNat_cond]
  split
  all_goals omega

theorem toInt_neg_iff {w : Word} : w.toInt < 0 ↔ 2 ^ 31 ≤ w.toNat := by
  have := toInt_nonneg_iff (w := w)
  omega

theorem toNat_eq_zero {w : Word} : w.toNat = 0 ↔ w = 0 :=
  ⟨fun h => BitVec.eq_of_toNat_eq h, fun h => h ▸ rfl⟩

theorem not_hasAt {m : Lib.Image} {bs : List Byte} {x : Int} (hx : x < 0) (hbs : bs ≠ []) :
    ¬ HasAt m f x bs := by
  intro h
  have := (h 0 (List.length_pos_iff.2 hbs)).1
  omega

theorem readExact_of_wp (h : Wp True (fileRead f count offset).run s fun r _ =>
      ∀ n bytes, r = .ok (n, bytes) →
        n.toInt < 0 ∨ bytes.length = n.toNat ∧ HasAt s.view f offset.toInt bytes) :
    ReadExact s f count offset := by
  intro r t hr
  have hw := (h.and (coded_fileRead s)).ends hr
  cases r with
  | error e => exact hw.2 e rfl
  | ok r => exact hw.1 _ _ rfl

theorem writeExact_of_wp (h : Wp True (fileWrite f buf count offset).run s fun r t =>
      ∀ n, r = .ok n → n.toInt < 0 ∨ HasAt t.view f offset.toInt ((List.range n.toNat).map buf)) :
    WriteExact s f buf count offset := by
  intro r t hr
  have hw := (h.and (coded_fileWrite s)).ends hr
  cases r with
  | error e => exact hw.2 e rfl
  | ok n => exact hw.1 _ rfl

theorem Sane.returning (h : Sane s) : Ready True s := ⟨h, .inl trivial⟩

section Read

variable (h : Ready False s) (hf : Node s.view f)
include h hf

theorem readExact_of_nonneg (hoff : offset.toNat < 2 ^ 31) : ReadExact s f count offset := by
  refine readExact_of_wp ((fileRead_wp (h.returning) hf hoff rfl).mono fun r t hr => ?_)
  rintro n bytes rfl
  obtain ⟨-, -, hn, rfl, -⟩ := hr
  refine .inr ⟨by rw [List.length_map, List.length_range', hn], fun i hi => ?_⟩
  rw [List.length_map, List.length_range'] at hi
  rw [BitVec.toInt_eq_toNat_of_lt (by omega), List.getElem_map, List.getElem_range']
  refine ⟨by omega, by omega, congrArg _ (by omega)⟩

theorem readExact_below_iff (hneg : 2 ^ 31 ≤ offset.toNat) (hc0 : 0 < count.toNat)
    (hc : count.toNat < (-offset).toNat) (hk : (-offset).toNat < 4096) :
    ReadExact s f count offset ↔
      match blockOf s.view f 0 with
      | none => Full s.view
      | some b => ¬ s.Mapped (b - 1) ∧ freeBit s.view (b - 1) = true := by
  have hback := toNat_neg_of_msb hneg
  -- whatever comes back with the count is wrong
  have hbad : ∀ {bytes t}, (fileRead f count offset).run s = some (.ok (count, bytes), t) →
      ¬ ReadExact s f count offset := by
    intro bytes t hr hex
    obtain hlt | ⟨hlen, hhas⟩ := hex _ _ hr
    · rw [toInt_neg_iff] at hlt
      omega
    · refine not_hasAt (toInt_neg_iff.2 hneg) (fun hnil => ?_) hhas
      rw [hnil] at hlen
      exact Nat.ne_of_lt hc0 hlen
  cases hb : blockOf s.view f 0 with
  | none =>
    have hrun := fileRead_below h hf hneg hc0 hc hk fun b hb' => nomatch hb.symm.trans hb'
    constructor
    · intro hex
      obtain ⟨r, t, hr, hpost⟩ := hrun.exists_run
      cases r with
      | error e => exact hpost.2.1
      | ok r =>
        obtain ⟨n, bytes⟩ := r
        obtain ⟨rfl, -⟩ := hpost
        exact absurd hex (hbad hr)
    · intro hfull
      refine readExact_of_wp ((fileRead_below h.toSane.returning hf hneg hc0 hc hk
        fun _ _ => .inl trivial).mono fun r t hr => ?_)
      rintro n bytes rfl
      exact absurd hfull (hr.2.2 hb).2
  | some b =>
    have hrange := h.owned.block_range hf hb
    constructor
    · intro hex
      by_contra hno
      have hserved : s.Served (b - 1) := by
        by_cases hm : s.Mapped (b - 1)
        · exact .inl hm
        · have hfree := Bool.eq_false_of_not_eq_true fun hfree => hno ⟨hm, hfree⟩
          exact .inr ⟨h.mounted, (h.live.resolve_left id).1, by omega, hfree⟩
      obtain ⟨r, t, hr, hpost⟩ := (fileRead_below h hf hneg hc0 hc hk fun b' hb' => by
        obtain rfl : b' = b := Option.some.inj (hb'.symm.trans hb)
        exact .inr hserved).exists_run
      cases r with
      | error e => exact nomatch hb.symm.trans hpost.2.2
      | ok r =>
        obtain ⟨n, bytes⟩ := r
        obtain ⟨rfl, -⟩ := hpost
        exact hbad hr hex
    · rintro ⟨hm, hfree⟩
      refine readExact_of_wp ((fileRead_below_inUse h.toSane hf hneg hc0 hc hk hb).mono
        fun r t hr => ?_)
      obtain hr | hr := hr
      · exact absurd hr hm
      · rw [hr.2] at hfree
        cases hfree

theorem readExact_neg_iff (hneg : 2 ^ 31 ≤ offset.toNat) :
    ReadExact s f count offset ↔ ReadInRange s f count offset := by
  have hback := toNat_neg_of_msb hneg
  have hoff : ¬ 0 ≤ offset.toInt := by
    rw [toInt_nonneg_iff]
    omega
  have hsize := lt_of_le_maxfilesize (h.sized f hf)
  rw [ReadInRange, or_iff_right hoff]
  by_cases hc0 : count = 0
  · refine iff_of_true (readExact_of_wp ((fileRead_skips (h.returning) hf hneg
      (.inl (toNat_eq_zero.2 hc0))).mono fun r t hr => ?_)) (.inl hc0)
    rintro n bytes rfl
    obtain ⟨-, hr⟩ := hr
    obtain ⟨rfl, rfl⟩ := Prod.mk.inj (Except.ok.inj hr)
    rw [toNat_clipped hsize hneg, toNat_eq_zero.2 hc0, Nat.zero_min]
    exact .inr ⟨rfl, fun i hi => absurd hi (Nat.not_lt_zero i)⟩
  have hpos : 0 < count.toNat := Nat.pos_of_ne_zero fun h0 => hc0 (toNat_eq_zero.1 h0)
  rw [or_iff_right hc0]
  obtain hc | hc := Nat.lt_or_ge count.toNat (-offset).toNat
  · rw [or_iff_right (by omega), and_iff_right hc]
    obtain hk | hk := Nat.lt_or_ge (-offset).toNat 4096
    · rw [or_iff_right (by omega)]
      exact readExact_below_iff h hf hneg hpos hc hk
    · refine iff_of_true (readExact_of_wp ((fileRead_inval (h.returning) hf hneg hpos hc
        hk).mono fun r t hr => ?_)) (.inl hk)
      rw [hr.2]
      exact nofun
  · rw [or_iff_left (by omega), and_iff_right hc, ← toNat_clipped hsize hneg, ← toInt_neg_iff]
    have hrun := fileRead_skips h hf hneg (.inr hc)
    constructor
    · intro hex
      obtain ⟨r, t, hr, -, rfl⟩ := hrun.exists_run
      refine (hex _ _ hr).resolve_right fun hno => ?_
      have hlen : 0 = (clipped (s.view.word (fSize f)) count offset).toNat := hno.1
      rw [toNat_clipped hsize hneg] at hlen
      omega
    · intro hlt
      refine readExact_of_wp ((fileRead_skips (h.returning) hf hneg
        (.inr hc)).mono fun r t hr => ?_)
      rintro n bytes rfl
      obtain ⟨-, hr⟩ := hr
      obtain ⟨rfl, rfl⟩ := Prod.mk.inj (Except.ok.inj hr)
      exact .inl hlt

end Read

section Write

theorem writeExact_of_count (hc : count = 0 ∨ 2 ^ 31 ≤ count.toNat) :
    WriteExact s f buf count offset := by
  refine writeExact_of_wp (fileWrite_ok.mono fun r t hr => ?_)
  rintro n rfl
  rw [hr n rfl]
  obtain rfl | hc := hc
  · exact .inr fun i hi => absurd hi (Nat.not_lt_zero i)
  · exact .inl (toInt_neg_iff.2 hc)

theorem writeExact_of_not_ok (h : Wp True (fileWrite f buf count offset).run s fun r _ =>
    ∀ v, r ≠ .ok v) : WriteExact s f buf count offset :=
  writeExact_of_wp (h.mono fun _ _ hr n hn => absurd hn (hr n))

variable (hf : Node s.view f) (htype : s.view.word (fType f) ≠ ftypeDir)
include hf htype

theorem writeExact_of_le (h : Sane s) (hmax : offset.toNat + count.toNat ≤ maxfilesize) :
    WriteExact s f buf count offset := by
  have hlt := lt_of_le_maxfilesize hmax
  refine writeExact_of_wp ((fileWrite_wp h.returning hf htype hmax).mono fun r t hr => ?_)
  rintro n rfl
  obtain ⟨u, hext, rfl, hsteps, hpatch, -⟩ := hr
  have hu := hext.steps.ready h.returning
  have hsize := hsteps.size hu (hext.steps.node h.returning hf) (by simp) (by simp)
  refine .inr fun i hi => ?_
  rw [List.length_map, List.length_range] at hi
  rw [BitVec.toInt_eq_toNat_of_lt (by omega), hsize, hext.size, List.getElem_map, List.getElem_range]
  have hpos : ((offset.toNat : Int) + (i : Int)).toNat = offset.toNat + i := by omega
  refine ⟨by omega, by omega, ?_⟩
  rw [hpos, hpatch, if_pos (by omega), Nat.add_sub_cancel_left]

theorem writeExact_of_nonneg (h : Sane s) (hoff : 0 ≤ offset.toInt) (hend : ¬ AtEnd count offset) :
    WriteExact s f buf count offset := by
  by_cases hc : count = 0 ∨ 2 ^ 31 ≤ count.toNat
  · exact writeExact_of_count hc
  rw [not_or, Nat.not_le] at hc
  have hc0 : 0 < count.toNat := Nat.pos_of_ne_zero fun h0 => hc.1 (toNat_eq_zero.1 h0)
  obtain hmax | hmax := Nat.lt_or_ge maxfilesize (offset.toNat + count.toNat)
  · have hlong : maxfilesize + blksize < offset.toNat + count.toNat := by
      by_contra hle
      exact hend ⟨hoff, hc.1, hmax, Nat.not_lt.1 hle⟩
    exact writeExact_of_not_ok (fileWrite_long (toInt_nonneg_iff.1 hoff) hc.2 hlong hc0)
  · exact writeExact_of_le hf htype h hmax

theorem writeExact_of_inRange (h : Sane s) (hin : WriteInRange s f count offset) :
    WriteExact s f buf count offset := by
  obtain hc0 | ⟨hoff, hend⟩ | ⟨hneg, hc | ⟨hc, hk⟩⟩ := hin
  · exact writeExact_of_count (.inl hc0)
  · exact writeExact_of_nonneg hf htype h hoff hend
  · exact writeExact_of_count (.inr hc)
  · rw [toInt_neg_iff] at hneg
    by_cases hc0 : count = 0
    · exact writeExact_of_count (.inl hc0)
    have hc0 : 0 < count.toNat := Nat.pos_of_ne_zero fun h0 => hc0 (toNat_eq_zero.1 h0)
    refine writeExact_of_not_ok ?_
    obtain hk' | hk' := Nat.lt_or_ge (-offset).toNat 4096
    · refine (fileWrite_below h.returning hf htype hneg hc0 hc hk').mono fun r t hr v hv => ?_
      exact hr.1 ⟨v, hv⟩ (hk.resolve_left (Nat.not_le.2 hk'))
    · exact fileWrite_inval hneg hc0 hc hk'

theorem inRange_of_writeExact (h : Ready False s) (hex : WriteExact s f buf count offset) :
    WriteInRange s f count offset ∨ AtEnd count offset := by
  by_contra hno
  rw [not_or, WriteInRange, not_or, not_or] at hno
  obtain ⟨⟨hc0, hpos, hrest⟩, hend⟩ := hno
  have hneg : offset.toInt < 0 := Int.not_le.1 fun hoff => hpos ⟨hoff, hend⟩
  have hoff := toInt_neg_iff.1 hneg
  have hc0' : 0 < count.toNat := Nat.pos_of_ne_zero fun h0 => hc0 (toNat_eq_zero.1 h0)
  have hc31 : ¬ 2 ^ 31 ≤ count.toNat := fun hc => hrest ⟨hneg, .inl hc⟩
  -- the call comes back with its count
  have hok : ∃ t, (fileWrite f buf count offset).run s = some (.ok count, t) := by
    obtain hc | hc := Nat.lt_or_ge count.toNat (-offset).toNat
    · have hk : (-offset).toNat < 4096 := Nat.not_le.1 fun hk => hrest ⟨hneg, .inr ⟨hc, .inl hk⟩⟩
      have hfull : ¬ (Full s.view ∧ Bare s.view f) :=
        fun hb => hrest ⟨hneg, .inr ⟨hc, .inr hb⟩⟩
      obtain ⟨r, t, hr, hpost, hval⟩ :=
        ((fileWrite_below h hf htype hoff hc0' hc hk).and fileWrite_ok).exists_run
      obtain ⟨n, rfl⟩ := hpost.2 hfull
      exact ⟨t, hval n rfl ▸ hr⟩
    · obtain ⟨r, t, hr, rfl⟩ := (fileWrite_skips h hf htype hoff hc).exists_run
      exact ⟨t, hr⟩
  obtain ⟨t, hr⟩ := hok
  refine (hex _ _ hr).elim (fun hlt => hc31 (toInt_neg_iff.1 hlt)) (not_hasAt hneg fun hnil => ?_)
  rw [List.map_eq_nil_iff, List.range_eq_nil] at hnil
  omega

end Write

end Jos.Fs
