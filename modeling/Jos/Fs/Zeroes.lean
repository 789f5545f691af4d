import Jos.Fs.Stored
import Jos.Fs.WriteBack
import Jos.Lib.Run

/-! Runs of `file_write` and `file_set_size`, and what the bytes that they have not written read
as. -/

namespace Jos.Fs

open Kern Lib Cache

variable {s t : Cache} {f g x : Nat} {w : Word}

inductive Call
  | write (g : Nat) (buf : Nat → Byte) (count offset : Word)
  | setSize (g : Nat) (newsize : Word)

namespace Call

def after (s : Cache) : Call → Option Cache
  | write g buf count offset => ((fileWrite g buf count offset).run s).map (·.2)
  | setSize g newsize => ((fileSetSize g newsize).run s).map (·.2)

def Allowed (s : Cache) : Call → Prop
  | write g _ count offset => (Node s.view g ∧ s.view.word (fType g) ≠ ftypeDir) ∧
      offset.toNat + count.toNat ≤ maxfilesize
  | setSize g newsize => (Node s.view g ∧ s.view.word (fType g) ≠ ftypeDir) ∧
      newsize.toNat ≤ maxfilesize

/-- The positions of `f` written since the file was last shorter, after a call in `s`. -/
def mark (f : Nat) (s : Cache) (W : Set Nat) : Call → Set Nat
  | write g _ count offset =>
    if g = f then W ∪ {x | Stored s.view f offset.toNat count.toNat x} else W
  | setSize g newsize => if g = f then {x | x ∈ W ∧ x < newsize.toNat} else W

/-- A call that makes `f` shorter finds only zeroes in the rest of its last block. -/
def CutsZeroes (f : Nat) (s : Cache) : Call → Prop
  | write .. => True
  | setSize g newsize => g = f → newsize.toNat < (s.view.word (fSize f)).toNat →
      ∀ x, newsize.toNat ≤ x → x < blocksFor newsize.toNat * blksize → fileByte s.view f x = 0

end Call

structure Traced where
  cache : Cache
  written : Set Nat

namespace Traced

def step (f : Nat) (t : Traced) (c : Call) : Option Traced :=
  (c.after t.cache).map fun u => ⟨u, c.mark f t.cache t.written⟩

def Blank (f : Nat) (t : Traced) : Prop :=
  ∀ pos : Word, pos.toNat < (t.cache.view.word (fSize f)).toNat → pos.toNat ∉ t.written →
    ∀ n bytes u, (fileRead f 1 pos).run t.cache = some (.ok (n, bytes), u) → bytes = [0]

/-- What the calls keep: the bytes past the end are zeroes as well. -/
structure Zeroed (f : Nat) (t : Traced) : Prop where
  sane : Sane t.cache
  node : Node t.cache.view f
  type : t.cache.view.word (fType f) ≠ ftypeDir
  inside : ∀ x ∈ t.written, x < (t.cache.view.word (fSize f)).toNat
  zero : ∀ x, x ∉ t.written → fileByte t.cache.view f x = 0

theorem Zeroed.blank {t : Traced} (h : Zeroed f t) : Blank f t := by
  intro pos hpos hw n bytes u hr
  have hmax := lt_of_le_maxfilesize (h.sane.sized f h.node)
  have hone : (1 : Word).toNat = 1 := rfl
  obtain ⟨-, -, -, rfl, -⟩ :=
    (fileRead_wp h.sane.ready h.node (by omega) (k := 1) (by omega)).ends hr
  rw [List.range'_one, List.map_singleton, h.zero _ hw]

theorem Zeroed.other {t : Traced} {A : Set Label} {u : Cache} (h : Zeroed f t)
    (hst : Steps A t.cache u) (he : .enlarge f ∉ A) (hd : .data f ∉ A) (hr : .resize f ∉ A) :
    Zeroed f ⟨u, t.written⟩ where
  sane := (hst.ready h.sane.ready).toSane
  node := hst.node h.sane.ready h.node
  type := (hst.type h.sane.ready h.node).symm ▸ h.type
  inside x hx := (hst.size h.sane.ready h.node he hr).symm ▸ h.inside x hx
  zero x hx := (hst.fileByte h.sane.ready h.node h.type hd hr).trans (h.zero x hx)

theorem Zeroed.write {t : Traced} {u : Cache} {count offset : Word} {buf : Nat → Byte}
    (h : Zeroed f t) (hw : Written f offset.toNat count.toNat buf t.cache u) :
    Zeroed f ⟨u, t.written ∪ {x | Stored t.cache.view f offset.toNat count.toNat x}⟩ where
  sane := (hw.steps.ready h.sane.ready).toSane
  node := hw.steps.node h.sane.ready h.node
  type := (hw.steps.type h.sane.ready h.node).symm ▸ h.type
  inside x hx := by
    rw [hw.size]
    obtain hx | hx := hx
    · exact Nat.lt_of_lt_of_le (h.inside x hx) (Nat.le_max_left _ _)
    · exact Nat.lt_of_lt_of_le hx.1.2 (Nat.le_max_right _ _)
  zero x hx := by
    have hno : ¬ Stored t.cache.view f offset.toNat count.toNat x := fun hs => hx (.inr hs)
    rw [hw.byte x, if_neg hno]
    exact h.zero x fun hx' => hx (.inl hx')

theorem Zeroed.setSize {t : Traced} {u : Cache} (h : Zeroed f t) (hst : Step (.resize f) t.cache u)
    (hr : Resized f w t.cache.view u.view) (hc : Call.CutsZeroes f t.cache (.setSize f w)) :
    Zeroed f ⟨u, {x | x ∈ t.written ∧ x < w.toNat}⟩ where
  sane := (hst.ready h.sane.ready).toSane
  node := (hst.carries h.sane).node h.node
  type := ((hst.carries h.sane).type h.node).symm ▸ h.type
  inside x hx := hr.size.symm ▸ hx.2
  zero x hx := by
    rw [hr.byte x]
    split
    · next hlt =>
      by_cases hxw : x ∈ t.written
      · have hge : w.toNat ≤ x := Nat.not_lt.1 fun hlt' => hx ⟨hxw, hlt'⟩
        refine hc rfl (Nat.lt_of_le_of_lt hge (h.inside x hxw)) x hge ?_
        exact (Nat.div_lt_iff_lt_mul (by decide)).1 hlt
      · exact h.zero x hxw
    · rfl

theorem Zeroed.step {t u : Traced} {c : Call} (h : Zeroed f t) (ha : c.Allowed t.cache)
    (hc : c.CutsZeroes f t.cache) (hs : t.step f c = some u) : Zeroed f u := by
  obtain ⟨v, hv, rfl⟩ := Option.map_eq_some_iff.1 hs
  cases c with
  | write g buf count offset =>
    obtain ⟨⟨r, v⟩, hr, rfl⟩ := Option.map_eq_some_iff.1 hv
    have hw := ((fileWrite_written h.sane.ready ha.1.1 ha.1.2 ha.2).ends hr).1
    rw [Call.mark]
    split
    · next hgf =>
      subst hgf
      exact h.write hw
    · next hgf =>
      have hgf : ¬ f = g := fun hfg => hgf hfg.symm
      exact h.other hw.steps (by simp) (by simp [hgf]) (by simp [hgf])
  | setSize g newsize =>
    obtain ⟨⟨_, v⟩, hr, rfl⟩ := Option.map_eq_some_iff.1 hv
    obtain ⟨hst, hres⟩ := (fileSetSize_wp h.sane.ready ha.1.1 ha.1.2 ha.2).ends hr
    rw [Call.mark]
    split
    · next hgf =>
      subst hgf
      exact h.setSize hst hres hc
    · next hgf =>
      have hgf : ¬ f = g := fun hfg => hgf hfg.symm
      exact h.other (A := {.resize g}) (.single rfl hst) (by simp) (by simp) (by simp [hgf])

end Traced

def Cache.traced (s : Cache) (f : Nat) : Traced := ⟨s, {x | x < (s.view.word (fSize f)).toNat}⟩

/-- As long as nothing but zeroes is cut off in the middle of a block, what has not been written
reads as zero after every call. -/
theorem blank_of_run {t : Traced} {cs : List Call} (hs : Sane s) (hf : Node s.view f)
    (htype : s.view.word (fType f) ≠ ftypeDir)
    (hpast : ∀ x, (s.view.word (fSize f)).toNat ≤ x → fileByte s.view f x = 0)
    (hrun : Run (Traced.step f) (fun t c => c.Allowed t.cache ∧ c.CutsZeroes f t.cache) (s.traced f) cs t) :
    t.Blank f := by
  refine (hrun.invariant (Traced.Zeroed f) (fun ht hc hstep => ht.step hc.1 hc.2 hstep) ?_).blank
  exact ⟨hs, hf, htype, fun _ hx => hx, fun x hx => hpast x (Nat.not_lt.1 hx)⟩

section Exists

variable {t : Traced}

structure Traced.Live (f : Nat) (t : Traced) : Prop where
  ready : Ready False t.cache
  node : Node t.cache.view f
  type : t.cache.view.word (fType f) ≠ ftypeDir

theorem Traced.Live.steps {A : Set Label} {u : Traced} (h : t.Live f) (hst : Steps A t.cache u.cache) :
    u.Live f where
  ready := hst.ready h.ready
  node := hst.node h.ready h.node
  type := (hst.type h.ready h.node).symm ▸ h.type

theorem Traced.Live.allowed (h : t.Live f) (hw : w.toNat ≤ maxfilesize) :
    (Call.setSize f w).Allowed t.cache := ⟨⟨h.node, h.type⟩, hw⟩

theorem Traced.Live.setSize (h : t.Live f) (hw : w.toNat ≤ maxfilesize) :
    ∃ u, t.step f (.setSize f w) = some u ∧ u.Live f ∧
      Resized f w t.cache.view u.cache.view ∧ u.written = {x | x ∈ t.written ∧ x < w.toNat} := by
  obtain ⟨u, hr, hst, hres⟩ := exists_fileSetSize h.ready h.node h.type hw
  refine ⟨⟨u, {x | x ∈ t.written ∧ x < w.toNat}⟩, ?_, ?_, hres, rfl⟩
  · rw [Traced.step, Call.after, hr, Call.mark, if_pos rfl]
    rfl
  · exact h.steps (A := {.resize f}) (.single rfl hst)

theorem Traced.Live.write {buf : Nat → Byte} {count offset : Word} (h : t.Live f)
    (hmax : offset.toNat + count.toNat ≤ maxfilesize)
    (hfree : span offset.toNat (offset.toNat + count.toNat) < freeCount t.cache.view) :
    ∃ u, t.step f (.write f buf count offset) = some u ∧ u.Live f ∧
      Written f offset.toNat count.toNat buf t.cache u.cache ∧
      ∀ x, offset.toNat ≤ x → x < offset.toNat + count.toNat →
        Stored t.cache.view f offset.toNat count.toNat x := by
  have hneed := need_le (m := t.cache.view) (f := f) (i := offset.toNat / 4096)
    (n := span offset.toNat (offset.toNat + count.toNat))
  obtain ⟨r, u, hr, hw, -⟩ := 
    (@fileWrite_written False t.cache f count offset buf h.ready h.node h.type hmax).exists_run
  have hr : (fileWrite f buf count offset).run t.cache = some (r, u) := hr
  refine ⟨⟨u, t.written ∪ {x | Stored t.cache.view f offset.toNat count.toNat x}⟩, ?_,
    h.steps hw.steps, hw, fun x hx hx' => ?_⟩
  · rw [Traced.step, Call.after, hr, Call.mark, if_pos rfl]
    rfl
  · have := (stored_iff_of_le (x := x) (Nat.le_trans hneed hfree)).2 ⟨hx, hx'⟩
    rwa [Nat.add_sub_cancel_left] at this

end Exists

section Demo

variable {t : Traced} {a b : Word}

theorem live_demo : ((Demo.cache 8 0xF0 0).traced Demo.file).Live Demo.file :=
  ⟨Demo.fits_eight.ready (by decide), Demo.node_cache, Demo.type_cache⟩

theorem exists_written_demo : ∃ t : Traced,
    ((Demo.cache 8 0xF0 0).traced Demo.file).step Demo.file
      (.write Demo.file ([1, 2].getD · 0) 2 0) = some t ∧ t.Live Demo.file ∧
    (t.cache.view.word (fSize Demo.file)).toNat = 2 ∧ fileByte t.cache.view Demo.file 1 = 2 := by
  obtain ⟨t, hstep, hlive, hw, hst⟩ := 
    @Traced.Live.write Demo.file _ ([1, 2].getD · 0) 2 0 live_demo (by decide) (by
      change span 0 2 < freeCount (Demo.cache 8 0xF0 0).view
      rw [Demo.view_cache, Demo.fits_eight.freeCount_eq]
      decide)
  refine ⟨t, hstep, hlive, ?_, ?_⟩
  · have hsize : ((Demo.cache 8 0xF0 0).view.word (fSize Demo.file)).toNat = 0 := by
      rw [Demo.view_cache, Demo.size_file]
      rfl
    exact hw.size.trans (by
      change max ((Demo.cache 8 0xF0 0).view.word (fSize Demo.file)).toNat 2 = 2
      rw [hsize]
      rfl)
  · rw [hw.byte 1, if_pos (hst 1 (by decide) (by decide))]
    rfl

theorem blank_of_run_demo : ∃ t, Run (Traced.step Demo.file)
    (fun t c => c.Allowed t.cache ∧ c.CutsZeroes Demo.file t.cache)
    ((Demo.cache 8 0xF0 0).traced Demo.file)
    [.write Demo.file ([1, 2].getD · 0) 2 0, .setSize Demo.file 0, .setSize Demo.file 2] t ∧
    t.Blank Demo.file := by
  obtain ⟨t, ht, hlt, hsize, -⟩ := exists_written_demo
  obtain ⟨u, hu, hlu, hres, -⟩ := hlt.setSize (w := 0) (by decide)
  obtain ⟨v, hv, -⟩ := hlu.setSize (w := 2) (by decide)
  have hrun : Run (Traced.step Demo.file)
      (fun t c => c.Allowed t.cache ∧ c.CutsZeroes Demo.file t.cache)
      ((Demo.cache 8 0xF0 0).traced Demo.file)
      [.write Demo.file ([1, 2].getD · 0) 2 0, .setSize Demo.file 0, .setSize Demo.file 2] v := by
    have hfirst := Run.single (G := fun t c => c.Allowed t.cache ∧ c.CutsZeroes Demo.file t.cache)
      ⟨⟨⟨live_demo.node, live_demo.type⟩, by decide⟩, trivial⟩ ht
    have hsecond := hfirst.snoc ⟨hlt.allowed (by decide), ?_⟩ hu
    · refine hsecond.snoc ⟨hlu.allowed (by decide), ?_⟩ hv
      intro _ hlt
      rw [hres.size] at hlt
      exact absurd hlt (by decide)
    · intro _ _ x _ hx
      exact absurd hx (Nat.not_lt_zero x)
  have hnone : ∀ i, blockOf (Demo.cache 8 0xF0 0).view Demo.file i = none := fun i => by
    rw [Demo.view_cache]
    exact Demo.block_file
  exact ⟨v, hrun, blank_of_run live_demo.ready.toSane live_demo.node live_demo.type
    (fun x _ => fileByte_of_none (hnone _)) hrun⟩

/-- Cut down to one byte and extended again, the file shows its old second byte. -/
theorem not_blank_demo : ∃ t, Run (Traced.step Demo.file) (fun t c => c.Allowed t.cache)
    ((Demo.cache 8 0xF0 0).traced Demo.file)
    [.write Demo.file ([1, 2].getD · 0) 2 0, .setSize Demo.file 1, .setSize Demo.file 2] t ∧
    ¬ t.Blank Demo.file := by
  obtain ⟨t, ht, hlt, hsize, hbyte⟩ := exists_written_demo
  obtain ⟨u, hu, hlu, hres, hwu⟩ := hlt.setSize (w := 1) (by decide)
  obtain ⟨v, hv, hlv, hres', hwv⟩ := hlu.setSize (w := 2) (by decide)
  have hfirst := Run.single (G := fun t c => c.Allowed t.cache)
    ⟨⟨live_demo.node, live_demo.type⟩, by decide⟩ ht
  have hsecond := hfirst.snoc (hlt.allowed (by decide)) hu
  refine ⟨v, hsecond.snoc (hlu.allowed (by decide)) hv, fun hblank => ?_⟩
  have hbyte' : fileByte v.cache.view Demo.file 1 = 2 := by
    rw [hres'.byte, if_pos (by decide), hres.byte, if_pos (by decide), hbyte]
  have hneed : need v.cache.view Demo.file 0 (span 1 2) = 0 := by
    refine need_eq_zero.2 fun j _ hj hnone => ?_
    obtain rfl : j = 0 := Nat.lt_one_iff.1 hj
    rw [fileByte_of_none hnone] at hbyte'
    exact absurd hbyte' (by decide)
  have hsize' : (v.cache.view.word (fSize Demo.file)).toNat = 2 := congrArg BitVec.toNat hres'.size
  obtain ⟨r, z, hr, rfl⟩ := (@fileRead_patched _ _ _ [2] 1 1 hlv.ready hlv.node rfl
    hsize'.ge hneed fun k hk => by
      obtain rfl : k = 0 := Nat.lt_one_iff.1 hk
      exact hbyte').exists_run
  have hzero := hblank 1 (by rw [hsize']; decide) (fun hmem => ?_) _ _ z hr
  · exact absurd hzero (by decide)
  · rw [hwv, hwu] at hmem
    exact absurd hmem.1.2 (by decide)

end Demo

end Jos.Fs
