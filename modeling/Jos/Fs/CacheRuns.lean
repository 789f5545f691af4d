import Jos.Fs.Coherence
import Jos.Lib.Run

/-! Whole runs of the block cache, from a server that has mapped nothing. -/

namespace Jos.Fs

open Kern Lib Cache

inductive Access
  | read (a : Nat)
  | write (a : Nat) (v : Byte)
  | flush (a : Nat)
  | sync
  | setSuper
  | setBitmap

def perform : Access → Act Unit
  | .read a => do
    let _ ← load a
    return ()
  | .write a v => store a 1 fun _ => v
  | .flush a => flushBlock a
  | .sync => fsSync
  | .setSuper => do
    let _ ← load blksize
    modify fun c => { c with super := true }
  | .setBitmap => modify fun c => { c with bitmap := true }

def access (c : Cache) (e : Access) : Option Cache := ((perform e).run c).map Prod.snd

def writeTo (m : Lib.Image) : Access → Lib.Image
  | .write a v => Function.update m a v
  | _ => m

structure Holds (m : Lib.Image) (c : Cache) : Prop where
  coherent : c.Coherent
  super : c.super = true → c.Mapped 1
  view : c.view = m

variable {m : Lib.Image} {c c' : Cache} {a : Nat} {v : Byte}

theorem put_one : m.put a 1 (fun _ => v) = Function.update m a v := by
  funext x
  rw [Function.update_apply]
  split
  · next hx => exact Lib.Image.put_of_mem (by omega) (by omega)
  · exact Lib.Image.put_of_notMem (by omega)

theorem Holds.loads (h : Holds m c) (hl : Loads c c') : Holds m c' where
  coherent := hl.coherent h.coherent
  super hs := hl.mapped (h.super (hl.super ▸ hs))
  view := hl.view.trans h.view

theorem Holds.sync (h : Holds m c) {D : Prop} (hsup : D ∨ c.super = true)
    (hle : D ∨ nblocksOf c.view * blksize ≤ disksize) :
    Wp D fsSync c fun _ c' => Synced 1 c c' := by
  refine .bind ((superNblocks_wp hsup h.super).mono fun w t hw => ?_)
  obtain ⟨rfl, -, hw⟩ := hw
  exact fsSyncFrom_wp hsup h.super h.coherent hle (by decide) (by omega)

theorem Holds.perform (h : Holds m c) (e : Access) :
    Wp True (perform e) c fun _ c' => Holds (writeTo m e) c' := by
  cases e with
  | read a =>
    exact .bind ((load_wp h.super (.inl trivial)).mono fun _ _ ht => .pure (h.loads ht.1))
  | write a v =>
    refine (store_wp h.super fun _ _ => .inl trivial).mono fun _ t ht => ?_
    obtain ⟨u, hu, hm, rfl⟩ := ht
    have hu' := h.loads hu
    refine ⟨coherent_stored hu'.coherent, fun hs => mapped_stored.2 (hu'.super hs), ?_⟩
    rw [view_stored hm, hu'.view, put_one, writeTo]
  | flush a =>
    refine (flushBlock_wp (.inl trivial)).mono fun _ t ht => ?_
    subst ht
    exact ⟨coherent_flushed h.coherent, fun hs => mapped_flushed.2 (h.super (super_flushed ▸ hs)),
      (view_flushed h.coherent).trans h.view⟩
  | sync =>
    refine (h.sync (.inl trivial) (.inl trivial)).mono fun _ t ht => ?_
    exact ⟨ht.coherent, fun hs => (ht.mapped 1).2 (h.super (ht.super ▸ hs)), ht.view.trans h.view⟩
  | setSuper =>
    refine .bind (.bind ((touch_wp h.super (.inl trivial)).mono fun _ t ht => ?_))
    have ht' := h.loads ht.1
    exact .bind (.get (.pure (.modify ⟨ht'.coherent, fun _ => ht.2, ht'.view⟩)))
  | setBitmap => exact .modify ⟨h.coherent, h.super, h.view⟩

theorem Holds.run {es : List Access} (h : Holds m c)
    (hrun : Run access (fun _ _ => True) c es c') : Holds (es.foldl writeTo m) c' := by
  induction hrun with
  | nil => exact h
  | snoc _ _ hst ih =>
    obtain ⟨⟨⟨⟩, t⟩, hp, rfl⟩ := Option.map_eq_some_iff.1 hst
    rw [List.foldl_concat]
    exact (ih.perform _).ends hp

theorem holds_unmapped (h : ∀ b, ¬ c.Mapped b) (hs : c.super = false) : Holds c.disk c where
  coherent a ha := absurd ha (h _)
  super hs' := absurd (hs.symm.trans hs') (by decide)
  view := funext fun a => view_of_not_mapped (h _)

/-- The cache reads back what was written last, or what the disk had at first; it flushes a
block to that block only, and `fs_sync` leaves nothing to flush. -/
theorem cache_coherent {c₀ : Cache} {es : List Access} (h₀ : ∀ b, ¬ c₀.Mapped b)
    (hs : c₀.super = false) (hrun : Run access (fun _ _ => True) c₀ es c) :
    c.Coherent ∧
    (∀ a v c', (load a).run c = some (v, c') → v = es.foldl writeTo c₀.disk a) ∧
    (∀ a, c.Served (a / blksize) → ((load a).run c).isSome) ∧
    (∀ a, a < disksize → ∃ c', (flushBlock a).run c = some ((), c') ∧
      ∀ x, x / blksize ≠ a / blksize → c'.disk x = c.disk x) ∧
    (c.super = true → nblocksOf c.view * blksize ≤ disksize →
      ∃ c', fsSync.run c = some ((), c') ∧
        ∀ x, 1 ≤ x / blksize → x / blksize < nblocksOf c'.view → c'.disk x = c'.view x) := by
  have h := (holds_unmapped h₀ hs).run hrun
  refine ⟨h.coherent, fun a v c' hload => ?_, fun a ha => ?_, fun a ha => ?_, fun hsup hle => ?_⟩
  · rw [((load_wp (D := True) h.super (.inl trivial)).ends hload).2, h.view]
  · obtain ⟨v, t, ht, -⟩ := (load_wp (D := False) h.super (.inr ha)).exists_run
    rw [ht]
    rfl
  · obtain ⟨⟨⟩, t, ht, rfl⟩ := (flushBlock_wp (D := False) (s := c) (.inr ha)).exists_run
    exact ⟨_, ht, fun x hx => disk_flushed_of_ne hx⟩
  · obtain ⟨⟨⟩, t, ht, hsync⟩ := (h.sync (D := False) (.inr hsup) (.inr hle)).exists_run
    refine ⟨t, ht, fun x hx hx' => ?_⟩
    rw [hsync.view] at hx' ⊢
    exact hsync.same x hx hx'

def blank : Cache where
  pte _ := 0
  mem _ := 0
  disk _ := 0
  super := false
  bitmap := false
  pages := 8
  history := []

theorem cache_coherent_write : ∃ c, Run access (fun _ _ => True) blank [.write 12288 7] c ∧
    c.Coherent ∧ ∀ v c', (load 12288).run c = some (v, c') → v = 7 := by
  have hsome : (access blank (.write 12288 7)).isSome := by decide
  obtain ⟨c, hc⟩ := Option.isSome_iff_exists.1 hsome
  have hrun : Run access (fun _ _ => True) blank [.write 12288 7] c := .single trivial hc
  have hblank : ∀ b, ¬ blank.Mapped b := fun _ h => h BitVec.zero_and
  obtain ⟨hcoh, hread, -⟩ := cache_coherent hblank rfl hrun
  exact ⟨c, hrun, hcoh, fun v c' hload => hread _ v c' hload⟩

end Jos.Fs
