import Jos.Fs.ReadWrite
import Jos.Fs.Demo

/-! What `file_write` has written is what `file_read` finds. -/

namespace Jos.Fs

open Kern Lib Cache

variable {s t u : Cache} {f g x : Nat}

theorem Sane.ready (h : Sane s) : Ready (¬ (s.Ample ∧ Tidy s.view)) s where
  toSane := h
  live := (Classical.em _).symm

theorem map_getD_range (buf : List Byte) :
    (List.range' 0 buf.length).map (buf.getD · 0) = buf := by
  refine List.ext_getElem (by simp) fun i h h' => ?_
  simp [List.getD_eq_getElem?_getD, h']

theorem fileRead_patched {D : Prop} {buf : List Byte} {offset count : Word}
    (h : Ready D t) (hf : Node t.view f) (hcount : count.toNat = buf.length)
    (hmax : offset.toNat + buf.length ≤ (t.view.word (fSize f)).toNat)
    (hneed : need t.view f (offset.toNat / 4096) (span offset.toNat (offset.toNat + buf.length)) = 0)
    (hbytes : ∀ k, k < buf.length → fileByte t.view f (offset.toNat + k) = buf.getD k 0) :
    Wp D (fileRead f count offset).run t fun r _ => r = .ok (count, buf) := by
  have hsize := lt_of_le_maxfilesize (h.sized f hf)
  refine (fileRead_wp h hf (by omega) (k := buf.length) (by omega)).mono fun r v hr => ?_
  obtain ⟨-, -, hr⟩ := hr
  cases r with
  | error e =>
    rw [hneed] at hr
    exact absurd hr.2 (Nat.not_lt_zero _)
  | ok r =>
    obtain ⟨c, bytes⟩ := r
    obtain ⟨hc, rfl, -⟩ := hr
    rw [BitVec.eq_of_toNat_eq (hc.trans hcount.symm)]
    congr 2
    rw [List.range'_eq_map_range, List.map_map]
    conv_rhs => rw [← map_getD_range buf, List.range'_eq_map_range, List.map_map]
    refine List.map_congr_left fun k hk => ?_
    rw [Function.comp_apply, Function.comp_apply, hbytes k (List.mem_range.1 hk), Nat.zero_add]

/-- After a write that has succeeded the bytes are there, and no other byte of a regular file
has changed. -/
theorem fileRead_after_fileWrite (hs : Sane s) (hf : Node s.view f)
    (htype : s.view.word (fType f) ≠ ftypeDir) (buf : List Byte) (offset : Word)
    (hmax : offset.toNat + buf.length ≤ maxfilesize)
    (hrun : (fileWrite f (buf.getD · 0) (BitVec.ofNat 32 buf.length) offset).run s =
      some (.ok (BitVec.ofNat 32 buf.length), t)) :
    (t.view.word (fSize f)).toNat =
        max (s.view.word (fSize f)).toNat (offset.toNat + buf.length) ∧
      (∀ r u, (fileRead f (BitVec.ofNat 32 buf.length) offset).run t = some (r, u) →
        r = .ok (BitVec.ofNat 32 buf.length, buf)) ∧
      (t.Ample → Tidy t.view → ∃ u, (fileRead f (BitVec.ofNat 32 buf.length) offset).run t =
        some (.ok (BitVec.ofNat 32 buf.length, buf), u)) ∧
      (∀ x, x < (s.view.word (fSize f)).toNat → x < offset.toNat ∨ offset.toNat + buf.length ≤ x →
        fileByte t.view f x = fileByte s.view f x) ∧
      ∀ g, Node s.view g → s.view.word (fType g) ≠ ftypeDir → g ≠ f →
        t.view.word (fSize g) = s.view.word (fSize g) ∧
        ∀ x, fileByte t.view g x = fileByte s.view g x := by
  have hlt := lt_of_le_maxfilesize hmax
  have hcount : (BitVec.ofNat 32 buf.length : Word).toNat = buf.length := by
    rw [BitVec.toNat_ofNat]
    omega
  have hready := hs.ready
  obtain ⟨u, hext, -, hsteps, hpatch, hneed, -⟩ :=
    (fileWrite_wp hready hf htype (hcount.symm ▸ hmax)).ends hrun
  rw [hcount] at hext hpatch hneed
  have hu := hext.steps.ready hready
  have hfu := hext.steps.node hready hf
  have hst : Steps {.quiet, .grow f, .data f, .resize f} s t :=
    (hext.steps.mono (by intro l hl; obtain rfl | rfl := hl <;> simp)).trans
      (hsteps.mono (by intro l hl; obtain rfl | rfl | rfl := hl <;> simp))
  have hsize : (t.view.word (fSize f)).toNat =
      max (s.view.word (fSize f)).toNat (offset.toNat + buf.length) := by
    rw [hsteps.size hu hfu (by simp) (by simp), hext.size]
  have hbytes : ∀ k, k < buf.length → fileByte t.view f (offset.toNat + k) = buf.getD k 0 := by
    intro k hk
    rw [hpatch, if_pos (by omega), Nat.add_sub_cancel_left]
  have hread : ∀ {D}, Ready D t → Wp D (fileRead f (BitVec.ofNat 32 buf.length) offset).run t
      fun r _ => r = .ok (BitVec.ofNat 32 buf.length, buf) := fun ht =>
    fileRead_patched ht (hst.node hready hf) hcount (by omega) hneed hbytes
  refine ⟨hsize, fun r v hr => ?_, fun hample htidy => ?_, fun x _ hx => ?_, fun g hg hgtype hgf => ?_⟩
  · exact (hread (hst.ready hready)).ends hr
  · have ht : Ready False t := ⟨(hst.ready hready).toSane, .inr ⟨hample, htidy⟩⟩
    obtain ⟨r, v, hrun, rfl⟩ := (hread ht).exists_run
    exact ⟨v, hrun⟩
  · rw [hpatch, if_neg (by omega), hext.byte]
  · refine ⟨hst.size hready hg (by simp) ?_, fun x => hst.fileByte hready hg hgtype ?_ ?_⟩
    all_goals
      simp only [Set.mem_insert_iff, Set.mem_singleton_iff, reduceCtorEq, Label.data.injEq,
        Label.resize.injEq, false_or, or_false]
      exact hgf

theorem fileWrite_of_free {D : Prop} {count offset : Word} {buf : Nat → Byte} (h : Ready D s)
    (hf : Node s.view f) (htype : s.view.word (fType f) ≠ ftypeDir)
    (hmax : offset.toNat + count.toNat ≤ maxfilesize)
    (hfree : span offset.toNat (offset.toNat + count.toNat) < freeCount s.view) :
    Wp D (fileWrite f buf count offset).run s fun r _ => r = .ok count := by
  refine (fileWrite_wp h hf htype hmax).mono fun r t hr => ?_
  obtain ⟨u, hext, hr⟩ := hr
  cases r with
  | ok c => rw [hr.1]
  | error e =>
    obtain ⟨-, -, k, hk, -, hlt, -⟩ := hr
    have := need_le (m := u.view) (f := f) (i := offset.toNat / 4096) (n := k + 1)
    rw [hext.free] at hlt
    omega

theorem exists_fileWrite {count offset : Word} {buf : Nat → Byte} (h : Ready False s)
    (hf : Node s.view f) (htype : s.view.word (fType f) ≠ ftypeDir)
    (hmax : offset.toNat + count.toNat ≤ maxfilesize)
    (hfree : span offset.toNat (offset.toNat + count.toNat) < freeCount s.view) :
    ∃ t, (fileWrite f buf count offset).run s = some (.ok count, t) := by
  obtain ⟨r, t, ht, rfl⟩ := (fileWrite_of_free (D := False) h hf htype hmax hfree).exists_run
  exact ⟨t, ht⟩

theorem fileRead_after_fileWrite_demo : ∃ t u,
    (fileWrite Demo.file ([1, 2].getD · 0) 2 4095).run (Demo.cache 8 0xF0 0) = some (.ok 2, t) ∧
      (t.view.word (fSize Demo.file)).toNat = 4097 ∧
      (fileRead Demo.file 2 4095).run t = some (.ok (2, [1, 2]), u) := by
  have hready : Ready False (Demo.cache 8 0xF0 0) := Demo.fits_eight.ready (by decide)
  have hf : Node (Demo.cache 8 0xF0 0).view Demo.file := Demo.node_cache
  have htype : (Demo.cache 8 0xF0 0).view.word (fType Demo.file) ≠ ftypeDir := Demo.type_cache
  have hfree : span 4095 4097 < freeCount (Demo.cache 8 0xF0 0).view := by
    rw [Demo.view_cache, Demo.fits_eight.freeCount_eq]
    decide
  obtain ⟨t, ht⟩ : ∃ t, (fileWrite Demo.file ([1, 2].getD · 0) 2 4095).run (Demo.cache 8 0xF0 0) =
      some (.ok 2, t) := exists_fileWrite hready hf htype (by decide) hfree
  have hback := fileRead_after_fileWrite hready.toSane hf htype [1, 2] 4095 (by decide) ht
  have hsize : ((Demo.cache 8 0xF0 0).view.word (fSize Demo.file)).toNat = 0 := by
    rw [Demo.view_cache, Demo.size_file]
    rfl
  obtain ⟨u, hext, -, hsteps, -⟩ := (fileWrite_wp hready hf htype (by decide)).ends ht
  have hst : Ready False t := hsteps.ready (hext.steps.ready hready)
  obtain ⟨hample, htidy⟩ := hst.live.resolve_left id
  obtain ⟨v, hv⟩ := hback.2.2.1 hample htidy
  exact ⟨t, v, ht, hback.1.trans (by rw [hsize]; rfl), hv⟩

end Jos.Fs
