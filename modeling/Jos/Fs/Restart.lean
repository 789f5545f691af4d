import Jos.Fs.CacheRuns
import Jos.Fs.Ops
import Jos.Fs.Demo

/-! The server started anew on the disk that `fs_sync` has left. -/

namespace Jos.Fs

open Kern Lib Cache

variable {s t : Cache} {m m' : Lib.Image} {b i n : Nat}

/-- A new server in front of the disk of `s`, with `n` pages to be had. -/
def restart (s : Cache) (n : Nat) : Cache where
  pte _ := 0
  mem _ := 0
  disk := s.disk
  super := false
  bitmap := false
  pages := n
  history := []

theorem Owned.sameTree_of_blocks (h : Owned m) (h2 : 2 < nblocksOf m)
    (hm : ∀ x, 4096 ≤ x → x < nblocksOf m * 4096 → m' x = m x) :
    SameTree m m' ∧ ∀ {g}, Node m g → m'.word (fSize g) = m.word (fSize g) := by
  have hend : 2 ≤ bitmapEnd (nblocksOf m) ∧ bitmapEnd (nblocksOf m) ≤ nblocksOf m := by
    rw [bitmapEnd]
    omega
  have hfield : ∀ {g y}, Node m g → y ≤ 176 → m'.word (g + y) = m.word (g + y) := by
    intro g y hg hy
    refine Lib.Image.word_congr fun x hx hx' => hm x ?_ ?_
    all_goals
      obtain rfl | ⟨hg, z, hz, hzg⟩ := hg.home
      · omega
      · have := h.ptr_block hz hzg
        omega
  refine ⟨⟨nblocksOf_congr fun x hx hx' => hm x (by omega) (by omega), fun hlt =>
    freeBit_congr hlt fun x hx hx' => hm x (by omega) ?_, fun hg => hfield hg (by decide),
    fun {x} hx => ?_⟩, fun hg => hfield hg (by decide)⟩
  · have := Nat.mul_le_mul_right 4096 hend.2
    exact Nat.lt_of_lt_of_le hx' this
  obtain ⟨hx4, hx | ⟨z, hz, hzx⟩⟩ := hx.home
  · exact Lib.Image.word_congr fun y hy hy' => hm y (by omega) (by omega)
  · have := h.ptr_block hz hzx
    exact Lib.Image.word_congr fun y hy hy' => hm y (by omega) (by omega)

/-- The first access of all, which nothing is checked for. -/
theorem touch_unmounted (hd : b * blksize < disksize) (hsup : s.super = false)
    (hbit : s.bitmap = false) (hm : ¬ s.Mapped b) (hp : s.pages ≠ 0) :
    Wp False (touch b) s fun _ t => t = s.loadBlock b := by
  refine .bind (.get (.ite (fun h => ?_) fun _ => ?_))
  · rw [vaIsMapped_iff, mul_div_blksize] at h
    exact absurd h hm
  rw [bcPgfault, mul_div_blksize]
  refine .bind (.require (fun hd => ?_) fun h => h hd)
  refine .bind (.bind (.get (.ite (fun h => absurd (hsup.symm.trans h) (by decide)) fun _ =>
    .pure ?_)))
  refine .bind (.require (fun _ => ?_) fun h => h rfl)
  refine .bind ((sysPageAlloc_wp (.inr hp)).mono fun _ u hu => ?_)
  refine .bind (.modify (.bind (.get (.bind (.modify (.bind (.get ?_)))))))
  rw [setPte_fill hd hu]
  refine .bind (.ite (fun h => absurd (hbit.symm.trans h) (by decide)) fun _ => .pure ?_)
  exact .require (fun _ => rfl) fun h => h rfl

theorem checkBitmapFrom_wp (h : Up False s) :
    Wp False (checkBitmapFrom n i) s fun _ t => Loads s t := by
  induction n generalizing s i with
  | zero => exact .pure .refl
  | succ n ih =>
    refine .bind (h.superNblocks.mono fun w t hw => ?_)
    obtain ⟨rfl, hw⟩ := hw
    have h2 := h.mounted.two_lt
    refine .ite (fun hlt => ?_) fun _ => .pure .refl
    rw [hw, blksize] at hlt
    refine .bind ((h.blockIsFree (b := 2 + i) (by omega)).mono fun free u hu => ?_)
    refine .bind (.require (fun _ => ?_) fun hf => hf (hu.2.trans (h.mounted.reserved _ ?_)))
    · exact (ih (h.stage hu.1.stage)).mono fun _ _ hv => hu.1.trans hv
    · rw [bitmapEnd]
      omega

theorem checkBitmap_wp (h : Up False s) : Wp False checkBitmap s fun _ t => Loads s t := by
  have hfree : ∀ {t : Cache} {b : Nat}, Loads s t → b < 2 → Wp False (blockIsFree b) t
      fun free u => Loads s u ∧ free = false := by
    intro t b hl hb
    have ht := h.stage hl.stage
    have := ht.mounted.two_lt
    refine (ht.blockIsFree (by omega)).mono fun free u hu => ⟨hl.trans hu.1, hu.2.trans ?_⟩
    refine ht.mounted.reserved b ?_
    rw [bitmapEnd]
    omega
  refine .bind (h.superNblocks.mono fun w t hw => ?_)
  obtain ⟨rfl, -⟩ := hw
  refine .bind ((checkBitmapFrom_wp h).mono fun _ u hu => ?_)
  refine .bind ((hfree hu (by decide)).mono fun _ v hv =>
    .bind (.require (fun _ => ?_) fun hf => hf hv.2))
  exact .bind ((hfree hv.1 (by decide)).mono fun _ _ hx =>
    .require (fun _ => hx.1) fun hf => hf hx.2)

theorem checkSuper_wp (hsup : s.super = true) (h1 : s.Mapped 1)
    (hmagic : s.view.word blksize = fsMagic) (hle : nblocksOf s.view * blksize ≤ disksize) :
    Wp False checkSuper s fun _ t => t = s := by
  have hload : Wp False (loadWord blksize) s fun w t => t = s ∧ w = s.view.word blksize :=
    .bind ((touchAt_mapped (.inr (by decide)) h1).mono fun _ t ht => .bind (.get (.pure ⟨ht, by
      rw [ht, word_view (by decide) h1]⟩)))
  refine .bind (hload.mono fun w t hw => ?_)
  obtain ⟨rfl, rfl⟩ := hw
  refine .bind (.require (fun _ => ?_) fun h => h hmagic)
  refine .bind ((superNblocks_wp (.inr hsup) fun _ => h1).mono fun w u hw => ?_)
  obtain ⟨rfl, -, hw⟩ := hw
  refine .require (fun _ => rfl) fun h => h ?_
  rw [hw]
  exact (Nat.le_div_iff_mul_le (by decide)).2 hle

/-- What `fs_init` goes on with once it has mapped the super block. -/
def Cache.begun (c : Cache) : Cache := { c.loadBlock 1 with super := true, bitmap := true }

theorem fsInit_wp (hm : ¬ s.Mapped 1) (hsup : s.super = false) (hbit : s.bitmap = false)
    (hp : s.pages ≠ 0) (h : Sane s.begun) (ha : s.begun.Ample)
    (hmagic : s.begun.view.word blksize = fsMagic) :
    Wp False fsInit s fun _ t => Loads s.begun t := by
  have h1 : (s.loadBlock 1).Mapped 1 := mapped_loadBlock
  have hsup₁ : (s.loadBlock 1).super = false := hsup
  refine .bind (.bind ((touch_unmounted (by decide) hsup hbit hm hp).mono fun _ t ht => ?_))
  rw [begun, ← ht] at h ha hmagic
  rw [← ht] at h1 hsup₁
  rw [begun, ← ht]
  refine .bind (.get (.pure ?_))
  have h2 : 2 < nblocksOf t.view := h.mounted.two_lt
  refine .bind ((diskaddr_wp (fun hs => absurd (hsup₁.symm.trans hs) (by decide))
    (.inr ⟨by decide, Nat.lt_of_succ_lt h2⟩)).mono fun _ u hu => ?_)
  rw [hu.1]
  refine .bind (.modify (.bind ((checkSuper_wp (s := { t with super := true }) rfl h1 hmagic
    h.mounted.le_disksize).mono fun _ u hu => ?_)))
  rw [hu]
  refine .bind ((diskaddr_wp (s := { t with super := true }) (fun _ => h1)
    (.inr ⟨by decide, h2⟩)).mono fun _ u hu => ?_)
  rw [hu.1]
  exact .bind (.modify (checkBitmap_wp ⟨h.coherent, h.mounted, .inr ha⟩))

theorem not_mapped_restart : ¬ (restart s n).Mapped b := fun h => h BitVec.zero_and

theorem view_restart : (restart s n).view = s.disk :=
  funext fun _ => view_of_not_mapped not_mapped_restart

theorem view_begun : (restart s n).begun.view = s.disk :=
  (view_loadBlock not_mapped_restart).trans view_restart

theorem sane_begun (hs : Sane s) (hn : nblocksOf s.view ≤ n)
    (hdisk : ∀ x, 4096 ≤ x → x < nblocksOf s.view * 4096 → t.disk x = s.view x) :
    Sane (restart t n).begun ∧ (restart t n).begun.Ample := by
  have h2 := hs.mounted.two_lt
  obtain ⟨htree, hsize⟩ := hs.owned.sameTree_of_blocks h2 hdisk
  have hcar : Carries .quiet s.view t.disk :=
    htree.carries hs.owned hsize (by rintro g ⟨⟩) (by rintro g ⟨⟩)
  refine ⟨⟨?_, ⟨rfl, rfl, mapped_loadBlock, ?_, ?_, fun b hb => ?_⟩, ?_, ?_⟩, ?_⟩
  · have hload : Loads (restart t n) ((restart t n).loadBlock 1) :=
      loads_loadBlock not_mapped_restart nofun
    exact hload.coherent fun a ha => absurd ha not_mapped_restart
  · rwa [view_begun, htree.nblocks]
  · rw [view_begun, htree.nblocks]
    exact hs.mounted.le_disksize
  · rw [view_begun] at hb ⊢
    rw [htree.nblocks] at hb
    have hlt : b < nblocksOf s.view := by
      rw [bitmapEnd] at hb
      omega
    rw [htree.free hlt]
    exact hs.mounted.reserved b hb
  · rw [view_begun]
    exact hcar.owned
  · rw [view_begun]
    exact hcar.sized hs.sized
  · refine ample_loadBlock (s := restart t n) not_mapped_restart ?_ ?_
    · rw [view_restart, htree.nblocks]
      omega
    · rw [Ample, view_restart, htree.nblocks]
      exact (Finset.card_filter_le _ _).trans (by rwa [Finset.card_range])

/-- What `fs_sync` has written is a file system that `fs_init` accepts and that is the one the
server had before. -/
theorem fsInit_after_fsSync (hs : Sane s) (hmagic : s.view.word blksize = fsMagic)
    (hn : nblocksOf s.view ≤ n) :
    ∃ t u, fsSync.run s = some ((), t) ∧ fsInit.run (restart t n) = some ((), u) ∧ Sane u ∧
      u.Ample ∧ ∀ a, blksize ≤ a → a < nblocksOf s.view * blksize → u.view a = s.view a := by
  have hholds : Holds s.view s := ⟨hs.coherent, fun _ => hs.mounted.mapped, rfl⟩
  obtain ⟨⟨⟩, t, hsync, hsynced⟩ :=
    (hholds.sync (.inr hs.mounted.super) (.inr hs.mounted.le_disksize)).exists_run
  have h2 := hs.mounted.two_lt
  have hle := hs.mounted.le_disksize
  have hdisk : ∀ x, 4096 ≤ x → x < nblocksOf s.view * 4096 → t.disk x = s.view x := fun x hx hx' =>
    hsynced.same x (by rw [blksize]; omega) (by rw [blksize]; omega)
  obtain ⟨hsane, hample⟩ := sane_begun hs hn hdisk
  have hinit : Wp False fsInit (restart t n) fun _ u => Loads (restart t n).begun u := by
    have hword : t.disk.word blksize = fsMagic := by
      rw [← hmagic]
      exact Lib.Image.word_congr fun x hx hx' => hdisk x hx (by rw [blksize] at hx'; omega)
    exact fsInit_wp not_mapped_restart rfl rfl (by change n ≠ 0; omega) hsane hample
      (view_begun ▸ hword)
  obtain ⟨⟨⟩, u, hrun, hl⟩ := hinit.exists_run
  refine ⟨t, u, hsync, hrun, (Step.loads hl).sane hsane, hl.ample hsane.mounted hample,
    fun a ha ha' => ?_⟩
  rw [hl.view, view_begun]
  exact hdisk a ha ha'

theorem fsInit_after_fsSync_demo : ∃ t u, fsSync.run (Demo.cache 8 0xF0 0) = some ((), t) ∧
    fsInit.run (restart t 8) = some ((), u) ∧ Sane u := by
  have hs : Sane (Demo.cache 8 0xF0 0) := Demo.fits_eight.sane (by decide)
  have hmagic : (Demo.cache 8 0xF0 0).view.word blksize = fsMagic := by
    rw [Demo.view_cache]
    exact Demo.word_image (by decide)
  have hn : nblocksOf (Demo.cache 8 0xF0 0).view ≤ 8 := by
    rw [Demo.view_cache, Demo.nblocks_image]
    decide
  obtain ⟨t, u, hsync, hinit, hu, -⟩ := fsInit_after_fsSync hs hmagic hn
  exact ⟨t, u, hsync, hinit, hu⟩

end Jos.Fs
