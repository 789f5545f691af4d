import Jos.Fs.ReadWrite

/-! What `file_write` leaves behind whether it has succeeded or not: it gets as far as the disk has
blocks. -/

namespace Jos.Fs

open Kern Lib Cache

variable {D : Prop} {s t : Cache} {f x : Nat} {count offset w : Word} {buf : Nat → Byte}

def Stored (m : Lib.Image) (f offset count x : Nat) : Prop :=
  (offset ≤ x ∧ x < offset + count) ∧
    need m f (offset / 4096) (x / 4096 - offset / 4096 + 1) ≤ freeCount m

instance {m : Lib.Image} {offset count : Nat} : Decidable (Stored m f offset count x) :=
  inferInstanceAs (Decidable (_ ∧ _))

structure Written (f offset count : Nat) (buf : Nat → Byte) (s t : Cache) : Prop where
  steps : Steps {.quiet, .grow f, .data f, .resize f} s t
  size : (t.view.word (fSize f)).toNat = max (s.view.word (fSize f)).toNat (offset + count)
  byte : ∀ x, fileByte t.view f x =
    if Stored s.view f offset count x then buf (x - offset) else fileByte s.view f x

theorem stored_iff_cut {m : Lib.Image} {pos stop k : Nat} (hk : k < span pos stop)
    (hle : need m f (pos / 4096) k ≤ freeCount m) (hlt : freeCount m < need m f (pos / 4096) (k + 1)) :
    Stored m f pos (stop - pos) x ↔ pos ≤ x ∧ x < cut pos k := by
  have hps : pos < stop := by
    by_contra hge
    rw [span, if_neg hge] at hk
    omega
  rw [span_of_lt hps, blocksFor] at hk
  rw [Stored]
  have hneed : need m f (pos / 4096) (x / 4096 - pos / 4096 + 1) ≤ freeCount m ↔
      x / 4096 - pos / 4096 < k := by
    constructor
    · intro h
      by_contra hge
      have := need_mono (m := m) (f := f) (i := pos / 4096) (show k + 1 ≤ x / 4096 - pos / 4096 + 1 by omega)
      omega
    · intro h
      exact Nat.le_trans (need_mono h) hle
  rw [hneed, cut]
  split
  all_goals omega

theorem stored_iff_of_le {m : Lib.Image} {pos stop : Nat}
    (h : need m f (pos / 4096) (span pos stop) ≤ freeCount m) :
    Stored m f pos (stop - pos) x ↔ pos ≤ x ∧ x < stop := by
  constructor
  · rintro ⟨hx, -⟩
    omega
  · rintro ⟨hx, hx'⟩
    refine ⟨by omega, Nat.le_trans (need_mono ?_) h⟩
    rw [span_of_lt (by omega), blocksFor]
    omega

theorem fileWrite_written (h : Ready D s) (hf : Node s.view f)
    (htype : s.view.word (fType f) ≠ ftypeDir) (hmax : offset.toNat + count.toNat ≤ maxfilesize) :
    Wp D (fileWrite f buf count offset).run s fun r t =>
      Written f offset.toNat count.toNat buf s t ∧
      match r with
      | .ok c => c = count ∧ need s.view f (offset.toNat / 4096)
          (span offset.toNat (offset.toNat + count.toNat)) ≤ freeCount s.view
      | .error e => e = -eNoDisk ∧ freeCount s.view < need s.view f (offset.toNat / 4096)
          (span offset.toNat (offset.toNat + count.toNat)) := by
  refine (fileWrite_wp h hf htype hmax).mono fun r t hr => ?_
  obtain ⟨u, hext, hr⟩ := hr
  have hu := hext.steps.ready h
  have hfu := hext.steps.node h hf
  have hsub : offset.toNat + count.toNat - offset.toNat = count.toNat := Nat.add_sub_cancel_left _ _
  -- the steps and the size do not depend on the outcome
  have hall : ∀ (hsteps : Steps {.quiet, .grow f, .data f} u t) {stop : Nat},
      Patched f offset.toNat stop buf u t →
      (∀ x, Stored s.view f offset.toNat count.toNat x ↔ offset.toNat ≤ x ∧ x < stop) →
      Written f offset.toNat count.toNat buf s t := by
    intro hsteps stop hpatch hstored
    refine ⟨?_, ?_, fun x => ?_⟩
    · exact (hext.steps.mono (by intro l hl; obtain rfl | rfl := hl <;> simp)).trans
        (hsteps.mono (by intro l hl; obtain rfl | rfl | rfl := hl <;> simp))
    · rw [hsteps.size hu hfu (by simp) (by simp), hext.size]
    · rw [hpatch x, hext.byte x]
      exact if_congr (hstored x).symm rfl rfl
  cases r with
  | ok c =>
    obtain ⟨hc, hsteps, hpatch, -, hfree⟩ := hr
    rw [hext.need, hext.free] at hfree
    have hle : need s.view f (offset.toNat / 4096) (span offset.toNat (offset.toNat + count.toNat)) ≤
        freeCount s.view := by omega
    refine ⟨hall hsteps hpatch fun x => ?_, hc, hle⟩
    have := stored_iff_of_le (x := x) hle
    rwa [hsub] at this
  | error e =>
    obtain ⟨hsteps, he, k, hk, hle, hlt, hpatch⟩ := hr
    rw [hext.need, hext.free] at hle hlt
    exact ⟨hall hsteps hpatch fun x => hsub ▸ stored_iff_cut hk hle hlt, he,
      Nat.lt_of_lt_of_le hlt (need_mono hk)⟩

theorem exists_fileSetSize (h : Ready False s) (hf : Node s.view f)
    (htype : s.view.word (fType f) ≠ ftypeDir) (hw : w.toNat ≤ maxfilesize) :
    ∃ t, (fileSetSize f w).run s = some ((), t) ∧ Step (.resize f) s t ∧ Resized f w s.view t.view := by
  obtain ⟨_, t, hr, ht⟩ := (fileSetSize_wp h hf htype hw).exists_run
  exact ⟨t, hr, ht⟩

end Jos.Fs
