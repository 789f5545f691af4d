import Jos.Fs.Paths
import Jos.Fs.Transfers

/-! When `file_read` and `file_open` leave the disk as it is. -/

namespace Jos.Fs

open Kern Lib Cache

variable {D : Prop} {s t : Cache} {f i k : Nat} {count offset : Word} {path : List Byte}

/-- Nothing has changed that is on the disk or will be, and there was no want of blocks. -/
def ReadOnly (s : Cache) (f : Nat) (count offset : Word) : Prop :=
  ∀ r t, (fileRead f count offset).run s = some (r, t) → t.view = s.view ∧ r ≠ .error (-eNoDisk)

def OpenOnly (s : Cache) (path : List Byte) : Prop :=
  ∀ r t, (fileOpen path).run s = some (r, t) → t.view = s.view

def Visits (size : Nat) (count offset : Word) (i : Nat) : Prop :=
  (0 ≤ offset.toInt ∧ ∃ x, offset.toNat ≤ x ∧ x < offset.toNat + count.toNat ∧ x < size ∧
    i = x / blksize) ∨
  offset.toInt < 0 ∧ i = 0 ∧ 0 < count.toNat ∧ count.toNat < (-offset).toNat ∧ (-offset).toNat < blksize

section Read

theorem mem_span_iff {pos stop : Nat} : (pos / 4096 ≤ i ∧ i < pos / 4096 + span pos stop) ↔
    ∃ x, pos ≤ x ∧ x < stop ∧ i = x / 4096 := by
  constructor
  · rintro ⟨hle, hlt⟩
    have hps : pos < stop := by
      by_contra hge
      rw [span, if_neg hge] at hlt
      omega
    rw [span_of_lt hps, blocksFor] at hlt
    exact ⟨max pos (i * 4096), by omega, by omega, by omega⟩
  · rintro ⟨x, hx, hx', rfl⟩
    rw [span_of_lt (by omega), blocksFor]
    omega

theorem visits_of_nonneg {size : Nat} (h : offset.toNat < 2 ^ 31)
    (hk : k = min count.toNat (size - offset.toNat)) :
    Visits size count offset i ↔
      offset.toNat / 4096 ≤ i ∧ i < offset.toNat / 4096 + span offset.toNat (offset.toNat + k) := by
  have hnn := toInt_nonneg_iff.2 h
  rw [Visits, and_iff_right hnn, or_iff_left fun hneg => absurd hneg.1 (Int.not_lt.2 hnn), mem_span_iff,
    blksize]
  constructor
  · rintro ⟨x, hx, hx', hxs, rfl⟩
    exact ⟨x, hx, by omega, rfl⟩
  · rintro ⟨x, hx, hx', rfl⟩
    exact ⟨x, hx, by omega, by omega, rfl⟩

theorem visits_of_neg {size : Nat} (h : 2 ^ 31 ≤ offset.toNat) :
    Visits size count offset i ↔ i = 0 ∧ 0 < count.toNat ∧ count.toNat < (-offset).toNat ∧
      (-offset).toNat < blksize := by
  have hneg := toInt_neg_iff.2 h
  rw [Visits, and_iff_right hneg, or_iff_right fun hnn => absurd hnn.1 (Int.not_le.2 hneg)]

variable (h : Ready False s) (hf : Node s.view f)
include h hf

theorem readOnly_of_nonneg (hoff : offset.toNat < 2 ^ 31) : ReadOnly s f count offset ↔
    ∀ i, Visits (s.view.word (fSize f)).toNat count offset i → blockOf s.view f i ≠ none := by
  simp only [visits_of_nonneg hoff rfl, and_imp]
  rw [← need_eq_zero]
  constructor
  · intro hro
    by_contra hneed
    obtain ⟨r, t, hr, -, -, hpost⟩ := (@fileRead_wp False s f _ count offset h hf hoff rfl).exists_run
    obtain ⟨hview, hok⟩ := hro r t hr
    cases r with
    | error e => exact hok (congrArg _ hpost.1)
    | ok r =>
      have hfree := hpost.2.2
      rw [hview] at hfree
      omega
  · intro hneed r t hr
    obtain ⟨-, hidle, hpost⟩ := (fileRead_wp h hf hoff rfl).ends hr
    refine ⟨(hidle hneed).view, ?_⟩
    rintro rfl
    exact absurd hpost.2 (by rw [hneed]; exact Nat.not_lt_zero _)

theorem readOnly_of_neg (hneg : 2 ^ 31 ≤ offset.toNat) : ReadOnly s f count offset ↔
    ∀ i, Visits (s.view.word (fSize f)).toNat count offset i → blockOf s.view f i ≠ none := by
  have hback := toNat_neg_of_msb hneg
  simp only [visits_of_neg hneg, and_imp, forall_eq]
  -- the calls that look at no block
  have hquiet : (∀ {e t}, Loads s t → e ≠ -eNoDisk → t.view = s.view ∧
      (Except.error e : Except Word (Word × List Byte)) ≠ .error (-eNoDisk)) :=
    fun hl he => ⟨hl.view, fun hx => he (Except.error.inj hx)⟩
  obtain hc0 | hc0 := Nat.eq_zero_or_pos count.toNat
  · refine iff_of_true (fun r t hr => ?_) fun hpos => absurd hc0 (Nat.ne_of_gt hpos)
    obtain ⟨hl, rfl⟩ := (fileRead_skips h hf hneg (.inl hc0)).ends hr
    exact ⟨hl.view, nofun⟩
  obtain hc | hc := Nat.lt_or_ge count.toNat (-offset).toNat
  · obtain hk | hk := Nat.lt_or_ge (-offset).toNat blksize
    · simp only [hc0, hc, hk, true_imp_iff]
      constructor
      · intro hro hb
        obtain ⟨r, t, hr, hpost⟩ := (fileRead_below h hf hneg hc0 hc hk
          fun b hb' => nomatch hb.symm.trans hb').exists_run
        obtain ⟨hview, hok⟩ := hro r t hr
        cases r with
        | error e => exact hok (congrArg _ hpost.1)
        | ok r => exact (hpost.2.2 hb).1 hview
      · intro hb r t hr
        have hpost := (fileRead_below h.toSane.returning hf hneg hc0 hc hk fun _ _ => .inl trivial).ends hr
        cases r with
        | error e => exact absurd hpost.2.2 hb
        | ok r => exact ⟨(hpost.2.1 hb).view, nofun⟩
    · refine iff_of_true (fun r t hr => ?_) fun _ _ hlt => absurd hlt (Nat.not_lt.2 hk)
      obtain ⟨hl, rfl⟩ := (fileRead_inval h hf hneg hc0 hc hk).ends hr
      exact hquiet hl (by decide)
  · refine iff_of_true (fun r t hr => ?_) fun _ hlt => absurd hlt (Nat.not_lt.2 hc)
    obtain ⟨hl, rfl⟩ := (fileRead_skips h hf hneg (.inr hc)).ends hr
    exact ⟨hl.view, nofun⟩

theorem readOnly_iff_blocks : ReadOnly s f count offset ↔
    ∀ i, Visits (s.view.word (fSize f)).toNat count offset i → blockOf s.view f i ≠ none := by
  obtain hoff | hneg := Nat.lt_or_ge offset.toNat (2 ^ 31)
  · exact readOnly_of_nonneg h hf hoff
  · exact readOnly_of_neg h hf hneg

end Read

section Open

theorem view_of_full (h : Steps (Filling s.view) s t) (hs : Ready D s) (hfull : freeCount s.view = 0) :
    t.view = s.view := by
  refine h.invariant (fun t => t.view = s.view) hs (fun {l u v} hl hu hst hview => ?_) rfl
  have hedit := (hst.edit hu.toSane).1
  obtain rfl | ⟨f, rfl, -⟩ := hl
  · rw [hedit.eq_of_quiet, hview]
  · rw [hview] at hedit
    generalize v.view = m' at hedit ⊢
    cases hedit with
    | grow _ _ _ _ hlt hfree _ =>
      rw [freeCount_eq_zero_iff.1 hfull _ hlt] at hfree
      cases hfree

theorem fileOpen_wp (hs : Ready D s) (h0 : 0 ∉ path) :
    Wp D (fileOpen path).run s fun r t => ∃ w, Walked sRoot (components path) s w t ∧
      r = match w with
        | .found f => .ok f
        | .failed e => .error e
        | .missing _ _ => .error (-eNotFound) := by
  refine .bindL ((walkPath_wp hs h0).mono fun w t hw => ?_)
  cases w with
  | found f => exact .pureE ⟨_, hw, rfl⟩
  | failed e => exact .throwE ⟨_, hw, rfl⟩
  | missing d name => exact .throwE ⟨_, hw, rfl⟩

theorem openOnly_iff_blocks (h : Ready False s) (h0 : 0 ∉ path) : OpenOnly s path ↔
    freeCount s.view = 0 ∨ walkNeed s.view sRoot (components path) = 0 := by
  constructor
  · intro hoo
    obtain ⟨r, t, hr, w, ⟨-, hw⟩, -⟩ := (fileOpen_wp h h0).exists_run
    have hview := hoo r t hr
    rw [hview] at hw
    split at hw
    · exact .inr (by omega)
    · exact .inl hw.2
  · intro hcase r t hr
    obtain ⟨w, ⟨hsteps, hw⟩, -⟩ := (fileOpen_wp h h0).ends hr
    obtain hfull | hneed := hcase
    · exact view_of_full hsteps h hfull
    · rw [hneed, if_pos (Nat.zero_le _)] at hw
      exact (hw.2.2 rfl).view

end Open

/-- Reading changes nothing just if the blocks that are looked at are all there; so does the
search for a path, which leaves a full disk alone as well. -/
theorem readOnly_iff (h : Ready False s) (hf : Node s.view f) (count offset : Word) (path : List Byte)
    (h0 : 0 ∉ path) :
    (ReadOnly s f count offset ↔
      ∀ i, Visits (s.view.word (fSize f)).toNat count offset i → blockOf s.view f i ≠ none) ∧
    (OpenOnly s path ↔
      freeCount s.view = 0 ∨ walkNeed s.view sRoot (components path) = 0) :=
  ⟨readOnly_iff_blocks h hf, openOnly_iff_blocks h h0⟩

theorem readOnly_demo : ReadOnly (Demo.cache 8 0xF0 0) Demo.file 1 0 ∧
    OpenOnly (Demo.cache 8 0xF0 0) [0x61] := by
  obtain ⟨hread, hopen⟩ := readOnly_iff (s := Demo.cache 8 0xF0 0) (Demo.fits_eight.ready (by decide))
    Demo.node_cache 1 0 [0x61] (by decide)
  rw [Demo.view_cache, Demo.size_file] at hread
  rw [Demo.view_cache] at hopen
  refine ⟨hread.2 fun i hi => ?_, hopen.2 (.inr (by decide +kernel))⟩
  obtain ⟨-, x, -, -, hx, -⟩ | ⟨hneg, -⟩ := hi
  · exact absurd hx (Nat.not_lt_zero x)
  · exact absurd hneg (by decide)

/-- Reading the one byte of a file that has no block yet gives it one. -/
theorem not_readOnly_demo : ¬ ReadOnly (Demo.cache 8 0xF0 1) Demo.file 1 0 := by
  rw [readOnly_iff_blocks (Demo.fits_eight.ready (by decide)) Demo.node_cache, Demo.view_cache,
    Demo.size_file]
  intro h
  exact h 0 (.inl ⟨by decide, 0, by decide, by decide, by decide, rfl⟩) Demo.block_file

end Jos.Fs
