import Jos.Fs.Offsets
import Jos.Fs.Paths
import Jos.Lib.Run

/-! `file_create` and `file_flush` on a sane server, and runs of the calls of `fs.c`: the files
own the blocks in use after each of them, also after one that ran out of blocks. -/

namespace Jos.Fs

open Kern Lib Cache

variable {D : Prop} {s t : Cache} {a d f i : Nat} {is : List Nat} {m : Lib.Image}
  {name path : List Byte} {names : List (List Byte)}

section Flush

variable (hs : Ready D s)
include hs

theorem flushPointer_wp (ha : Place s.view a) :
    Wp D (flushPointer (s.view.word a)) s fun _ t => Steps {.quiet} s t := by
  refine .ite (fun hne => ?_) fun _ => .pure .refl
  have hb : ptrAt s.view a = some (s.view.word a).toNat := if_neg hne
  refine .bind ((hs.diskaddr ha hb).mono fun addr t ht => ?_)
  obtain ⟨rfl, rfl⟩ := ht
  refine (hs.up.flushBlock (hs.owned.ptr_range ha hb).2 (mul_div_blksize _)).mono fun _ u hu => ?_
  exact hu ▸ .single rfl .flush

theorem flushLoaded_wp (ha : Place s.view a) :
    Wp D (do let b ← loadWord a; flushPointer b) s fun _ t => Steps {.quiet} s t := by
  refine .bind ((hs.loadWord_place ha).mono fun b t ht => ?_)
  obtain ⟨hl, rfl⟩ := ht
  rw [← hl.view]
  exact (flushPointer_wp (hs.loads hl) (hl.view.symm ▸ ha)).mono fun _ _ hu => .trans (.loads rfl hl) hu

variable (hf : Node s.view f)
include hf

theorem flushFileBlock_wp (hi : i < ndirect + nindirect) :
    Wp D (flushFileBlock f i) s fun _ t => Steps {.quiet} s t := by
  refine .bind ((fileBlockWalk_find hs hf hi).mono fun r t hr => ?_)
  obtain ⟨hl, hr⟩ := hr
  cases r with
  | error e => exact .pure (.loads rfl hl)
  | ok p =>
    have hp : Place t.view p := hl.view.symm ▸ .slot hf hr
    exact (flushLoaded_wp (hs.loads hl) hp).mono fun _ _ hu => .trans (.loads rfl hl) hu

theorem flushFileBlocks_wp (his : ∀ i ∈ is, i < ndirect + nindirect) :
    Wp D (flushFileBlocks f is) s fun _ t => Steps {.quiet} s t := by
  induction is generalizing s with
  | nil => exact .pure .refl
  | cons i is ih =>
    refine .bind ((flushFileBlock_wp hs hf (his i List.mem_cons_self)).mono fun _ t ht => ?_)
    exact (ih (ht.ready hs) (ht.node hs hf) fun j hj => his j (List.mem_cons_of_mem i hj)).mono
      fun _ _ hu => ht.trans hu

theorem fileFlush_wp : Wp D (fileFlush f) s fun _ t => Steps {.quiet} s t := by
  have hmax := hs.sized f hf
  refine .bind ((hs.loadWord_node hf (by decide) (by decide)).mono fun size t ht => ?_)
  obtain ⟨hl, rfl⟩ := ht
  have ht := hs.loads hl
  refine .bind ((flushFileBlocks_wp ht (hl.view.symm ▸ hf) fun i hi => ?_).mono fun _ u hu => ?_)
  · have hle : _ ≤ 1034 := blocksFor_le hmax
    have hn := sizeBlocks_toNat hmax
    have hi := List.mem_range.1 hi
    rw [← fSize, BitVec.toInt_eq_toNat_of_lt (by rw [hn]; omega), hn] at hi
    exact Nat.lt_of_lt_of_le hi hle
  · have hu' := hu.ready ht
    have hfu := hu.node ht (hl.view.symm ▸ hf)
    have hlt : f / blksize < nblocksOf u.view := by
      obtain rfl | ⟨-, x, hx, hxf⟩ := hfu.home
      · exact Nat.lt_trans (by decide) hu'.mounted.two_lt
      · exact (hu'.owned.ptr_range hx hxf).2
    refine .bind ((hu'.up.flushBlock hlt rfl).mono fun _ v hv => ?_)
    have hv : Steps {.quiet} u v := hv ▸ .single rfl .flush
    refine (flushLoaded_wp (hv.ready hu') (.indirect (hv.node hu' hfu))).mono fun _ w hw => ?_
    exact .trans (.loads rfl hl) (hu.trans (hv.trans hw))

end Flush

section Alloc

/-- The directory has an entry without a name, or room for one more block. -/
def Roomier (m : Lib.Image) (d : Nat) : Prop :=
  firstHit m d [] = none → (m.word (fSize d)).toNat + blksize ≤ maxfilesize

def Entered (d : Nat) (s : Cache) (r : Except Word Nat) (t : Cache) : Prop :=
  Steps {.quiet, .grow d, .enlarge d} s t ∧
    ∀ f, r = .ok f → Node t.view f ∧ f ≠ sRoot ∧ t.view f = 0

variable (hs : Ready D s) (hd : Node s.view d) (htype : s.view.word (fType d) = ftypeDir)
include hs hd htype

theorem Ready.enlarge (hmax : (s.view.word (fSize d)).toNat + blksize ≤ maxfilesize) :
    Wp D (storeWord (fSize d) (s.view.word (fSize d) + 4096)) s fun _ t => Step (.enlarge d) s t := by
  have h4 : fSize d % 4 = 0 := by
    rw [fSize]
    obtain rfl | ⟨hd, -⟩ := hs.owned.aligned hd
    all_goals omega
  exact (hs.up.storeWord h4 (hs.served_node hd (by decide))).mono fun _ _ ht => .enlarge hd htype hmax ht

theorem entered_new {b : Nat} (h : Steps {.quiet, .grow d, .enlarge d} s t)
    (h0 : blockOf s.view d i = none) (hb : blockOf t.view d i = some b) :
    Entered d s (.ok (b * blksize)) t := by
  have hnode := node_entry (h.node hs hd) ((h.type hs hd).trans htype) hb (j := 0) (by decide)
  have hnew := nameIs_new h hs hd htype (by simp) (by simp) (by decide) List.not_mem_nil
    h0 hb (j := 0) (by decide)
  have hentry : entry b 0 = b * blksize := by rw [entry, Nat.mul_zero, Nat.add_zero]
  rw [← hentry]
  refine ⟨h, fun f hf => ?_⟩
  obtain rfl := Except.ok.inj hf
  exact ⟨hnode, entry_ne_root, eq_of_beq hnew⟩

theorem dirAllocFile_wp (hroom : Roomier s.view d) : Wp D (dirAllocFile d).run s (Entered d s) := by
  have hsub : ({.quiet, .grow d} : Set Label) ⊆ {.quiet, .grow d, .enlarge d} := by simp
  refine .bindL ((dirBlocks_wp hs hd htype).mono fun n t ht => ?_)
  obtain ⟨hl, rfl, hmod⟩ := ht
  have ht := hs.loads hl
  rw [List.range_eq_range']
  refine .bindE ((scanDir_wp ht (hl.view.symm ▸ hd) (hl.view.symm ▸ htype) (by decide)
    List.not_mem_nil fun k hk => ?_).mono fun r u hu => ?_)
  · rw [hl.view]
    exact mul_lt_of_lt_dirSize (by omega)
  match r, hu.of_loads hl with
  | .error e, ⟨_, _, _, _, _, _, hsteps⟩ => exact ⟨hsteps.mono hsub, nofun⟩
  | .ok (some a), ⟨k, b, _, _, _, hb, ha, hscan⟩ =>
    refine .pureE ⟨hscan.steps.mono hsub, fun f hf => ?_⟩
    obtain rfl : a = f := Except.ok.inj hf
    obtain ⟨j, hj, rfl, hname, -⟩ := findIn_eq_some ha
    refine ⟨node_entry (hscan.steps.node hs hd) ?_ hb hj, entry_ne_root, eq_of_beq hname⟩
    exact (hscan.steps.type hs hd).trans htype
  | .ok none, ⟨hall, hscan⟩ =>
    have hmax := hroom (firstHit_eq_none.2 fun k hk => Nat.zero_add k ▸ hall k hk)
    have hu := hscan.steps.ready hs
    have hdu := hscan.steps.node hs hd
    have hsize := hscan.steps.sizeOf_grow hs hd
    refine .bindL ((hu.loadWord_node hdu (by decide) (by decide)).mono fun size v hv => ?_)
    obtain ⟨hv, rfl⟩ := hv
    have hsv : Steps {.quiet, .grow d} s v := hscan.steps.trans (.loads (.inl rfl) hv)
    have hv' := hu.loads hv
    have hdv := hsv.node hs hd
    have hsizev : v.view.word (fSize d) = s.view.word (fSize d) := hv.view.symm ▸ hsize
    rw [← fSize, ← hv.view]
    refine .bindL ((hv'.enlarge hdv ((hsv.type hs hd).trans htype) (hsizev.symm ▸ hmax)).mono
      fun _ w hw => ?_)
    have hsw : Steps {.quiet, .grow d, .enlarge d} s w := (hsv.mono hsub).trans (.single (by simp) hw)
    have hsizew := ((hw.carries hv'.toSane).enlarged hdv rfl).1
    have hold := hs.owned.blockOf_past hd (j := dirSize s.view d) (by
      rw [dirSize, blocksFor]
      rw [blksize] at *
      omega)
    have hlen : (w.view.word (fSize d)).toNat = (s.view.word (fSize d)).toNat + 4096 := by
      have := lt_of_le_maxfilesize hmax
      have h4096 : (4096 : Word).toNat = 4096 := rfl
      rw [hsizew, hsizev, BitVec.toNat_add]
      rw [blksize] at this
      omega
    have hlast : dirSize s.view d * 4096 = (s.view.word (fSize d)).toNat := by
      rw [dirSize]
      rw [blksize] at *
      omega
    refine (fileGetBlock_wp (hw.ready hv') ((hw.carries hv'.toSane).node hdv) ?_ ?_).mono fun r x hx => ?_
    · rw [maxfilesize, blksize] at hmax
      omega
    · rw [hlen, blksize]
      omega
    · cases r with
      | error e => exact ⟨hsw.trans (hx.2.2.1.mono hsub), nofun⟩
      | ok blk =>
        obtain ⟨b, rfl, hb⟩ := hx
        exact entered_new hs hd htype (hsw.trans (hb.steps.mono hsub)) hold hb.block

end Alloc

section Create

theorem Steps.any {A : Set Label} (h : Steps A s t) : Steps Set.univ s t := h.mono (Set.subset_univ A)

theorem resolve_missing (hf : Node m f) (h : resolve m f names = .missing d name) :
    Node m d ∧ m.word (fType d) = ftypeDir ∧ name.length < maxnamelen := by
  induction names generalizing f with
  | nil => cases h
  | cons x rest ih =>
    rw [resolve] at h
    split at h
    · cases h
    · next hlen =>
      split at h
      · cases h
      · next htype =>
        have htype := not_not.1 htype
        split at h
        · next g hg =>
          obtain ⟨i, -, hg⟩ := Option.bind_eq_some_iff.1 hg
          obtain ⟨b, hb, hg⟩ := Option.bind_eq_some_iff.1 hg
          obtain ⟨j, hj, rfl, -⟩ := findIn_eq_some hg
          exact ih (node_entry hf htype hb hj) h
        · split at h
          · obtain ⟨rfl, rfl⟩ := Walk.missing.inj h
            exact ⟨hf, htype, Nat.not_le.1 hlen⟩
          · cases h

theorem strcpy_wp (hs : Ready D s) (hf : Node s.view f) (hne : f ≠ sRoot) (h0 : s.view f = 0)
    (hlen : name.length < maxnamelen) : Wp D (strcpy f name) s fun _ t => Step (.name f) s t := by
  refine (hs.up.store fun x hx hx' => ?_).mono fun _ _ ht => .name hf hne h0 hlen ht
  obtain ⟨y, rfl⟩ := Nat.exists_eq_add_of_le hx
  rw [maxnamelen] at hlen
  exact hs.served_node hf (by omega)

/-- The directory that the new file is for does not grow out of its size. -/
def Creatable (m : Lib.Image) (path : List Byte) : Prop :=
  ∀ d name, resolve m sRoot (components path) = .missing d name → Roomier m d

theorem fileCreate_wp (hs : Ready D s) (h0 : 0 ∉ path) (hroom : Creatable s.view path) :
    Wp D (fileCreate path).run s fun _ t => Steps Set.univ s t := by
  refine .bindL ((walkPath_wp hs h0).mono fun r t hr => ?_)
  obtain ⟨hst, hr⟩ := hr
  have hst' : Steps Set.univ s t := hst.any
  cases r with
  | found f => exact .throwE hst'
  | failed e => exact .throwE hst'
  | missing d name =>
    have hres : resolve s.view sRoot (components path) = .missing d name := by
      split at hr
      · exact hr.1.symm
      · cases hr.1
    obtain ⟨hd, htype, hlen⟩ := resolve_missing .root hres
    have ht := hst.ready hs
    have hdt := hst.node hs hd
    have hfill : ∀ l ∈ Filling s.view, ∀ g, l ≠ .resize g ∧ l ≠ .name g ∧ l ≠ .enlarge g := by
      rintro l (rfl | ⟨d, rfl, -⟩) g
      all_goals exact ⟨nofun, nofun, nofun⟩
    have hroomt : Roomier t.view d := by
      have hfirst := firstHit_of_steps hst hs hd htype (fun g _ hg => (hfill _ hg g).1 rfl)
        (fun g hg => (hfill _ hg g).2.1 rfl) (fun hg => (hfill _ hg d).2.2 rfl) (by decide)
        List.not_mem_nil
      rw [Roomier, hfirst, hst.size hs hd (fun hg => (hfill _ hg d).2.2 rfl)
        (fun hg => (hfill _ hg d).1 rfl)]
      exact hroom d name hres
    refine .bindE ((dirAllocFile_wp ht hdt ((hst.type hs hd).trans htype) hroomt).mono fun r u hu => ?_)
    obtain ⟨hu, hf⟩ := hu
    have hsu := hst'.trans hu.any
    cases r with
    | error e => exact hsu
    | ok f =>
      obtain ⟨hf, hne, hzero⟩ := hf f rfl
      have hu' := hu.ready ht
      refine .bindL ((strcpy_wp hu' hf hne hzero hlen).mono fun _ v hv => ?_)
      have hdv := (hv.carries hu'.toSane).node (hu.node ht hdt)
      refine .bindL ((fileFlush_wp (hv.ready hu') hdv).mono fun _ w hw => .pureE ?_)
      exact (hsu.trans (.single trivial hv)).trans hw.any

end Create

inductive FileCall
  | create (path : List Byte)
  | find (path : List Byte)
  | read (f : Nat) (count offset : Word)
  | write (f : Nat) (buf : Nat → Byte) (count offset : Word)
  | setSize (f : Nat) (newsize : Word)

namespace FileCall

def act : FileCall → Act Unit
  | create path => do let _ ← (fileCreate path).run
  | find path => do let _ ← (fileOpen path).run
  | read f count offset => do let _ ← (fileRead f count offset).run
  | write f buf count offset => do let _ ← (fileWrite f buf count offset).run
  | setSize f newsize => fileSetSize f newsize

def after (s : Cache) (c : FileCall) : Option Cache := (c.act.run s).map (·.2)

def Allowed (s : Cache) : FileCall → Prop
  | create path => 0 ∉ path ∧ Creatable s.view path
  | find path => 0 ∉ path
  | read f _ offset => (Node s.view f ∧ s.view.word (fType f) ≠ ftypeDir) ∧ offset.toNat < 2 ^ 31
  | write f _ count offset => (Node s.view f ∧ s.view.word (fType f) ≠ ftypeDir) ∧
      offset.toNat < 2 ^ 31 ∧
      (s.view.word (fSize f) < offset + count → (offset + count).toNat ≤ maxfilesize)
  | setSize f newsize => (Node s.view f ∧ s.view.word (fType f) ≠ ftypeDir) ∧
      newsize.toNat ≤ maxfilesize

end FileCall

section Calls

variable (hs : Ready D s)
include hs

theorem fileWrite_steps {buf : Nat → Byte} {count offset : Word}
    (hc : (FileCall.write f buf count offset).Allowed s) :
    Wp D (fileWrite f buf count offset).run s fun _ t => Steps Set.univ s t := by
  obtain ⟨⟨hf, htype⟩, hoff, hmax⟩ := hc
  have hsize := hs.sized f hf
  have hadd : (offset + count).toNat = (offset.toNat + count.toNat) % 2 ^ 32 := BitVec.toNat_add ..
  by_cases hwrap : offset.toNat + count.toNat < 2 ^ 32
  · rw [Nat.mod_eq_of_lt hwrap] at hadd
    have hle : offset.toNat + count.toNat ≤ maxfilesize := by
      rw [← hadd]
      by_cases hlt : s.view.word (fSize f) < offset + count
      · exact hmax hlt
      · exact Nat.le_trans (Nat.not_lt.1 hlt) hsize
    refine (fileWrite_wp hs hf htype hle).mono fun r t hr => ?_
    obtain ⟨u, hu, hr⟩ := hr
    have hsu := hu.steps.any
    cases r with
    | ok c => exact hsu.trans hr.2.1.any
    | error e => exact hsu.trans hr.1.any
  · refine .bindL ((hs.loadWord_node hf (by decide) (by decide)).mono fun size t ht => ?_)
    obtain ⟨hl, rfl⟩ := ht
    have hst : Steps Set.univ s t := .loads trivial hl
    have hge : ¬ offset < offset + count := by
      rw [BitVec.lt_def]
      have := count.isLt
      omega
    rw [fileWriteFrom_of_ge hge]
    refine .bindE (.ite (fun hlt => .liftE ?_) fun _ => .pureE (.pureE hst))
    refine (fileSetSize_wp (hs.loads hl) (hl.view.symm ▸ hf) (hl.view.symm ▸ htype) (hmax hlt)).mono
      fun _ u hu => .pureE (hst.trans (.single trivial hu.1))

theorem FileCall.act_wp {c : FileCall} (hc : c.Allowed s) :
    Wp D c.act s fun _ t => Steps Set.univ s t := by
  cases c with
  | create path => exact .bind ((fileCreate_wp hs hc.1 hc.2).mono fun _ _ ht => .pure ht)
  | find path =>
    refine .bind (.bindL ((walkPath_wp hs hc).mono fun r t hr => ?_))
    have ht : Steps Set.univ s t := hr.1.any
    cases r with
    | found f => exact .pureE (.pure ht)
    | missing d name => exact .throwE (.pure ht)
    | failed e => exact .throwE (.pure ht)
  | read f count offset =>
    refine .bind ((fileRead_wp hs hc.1.1 hc.2 rfl).mono fun _ _ ht => .pure ?_)
    exact ht.1.any
  | write f buf count offset =>
    exact .bind ((fileWrite_steps hs hc).mono fun _ _ ht => .pure ht)
  | setSize f newsize =>
    exact (fileSetSize_wp hs hc.1.1 hc.1.2 hc.2).mono fun _ _ ht => .single trivial ht.1

end Calls

/-- A call that is allowed comes back if the server has the memory for the disk. -/
theorem FileCall.exists_after {c : FileCall} (hs : Ready False s) (hc : c.Allowed s) :
    ∃ t, c.after s = some t ∧ Steps Set.univ s t := by
  obtain ⟨_, t, hr, ht⟩ := (FileCall.act_wp hs hc).exists_run
  exact ⟨t, by rw [after, hr, Option.map_some], ht⟩

/-- After any calls, whatever they came back with, each block in use is a reserved one or belongs
to one place in one file, and no file has a block past its end. -/
theorem owned_of_run {cs : List FileCall} (hs : Sane s)
    (hrun : Run FileCall.after FileCall.Allowed s cs t) : Owned t.view := by
  refine (hrun.invariant Sane (fun hs hc hst => ?_) hs).owned
  obtain ⟨⟨_, _⟩, hr, rfl⟩ := Option.map_eq_some_iff.1 hst
  exact (((FileCall.act_wp hs.ready hc).ends hr).ready hs.ready).toSane

theorem owned_of_run_demo : ∃ t, Run FileCall.after FileCall.Allowed (Demo.cache 8 0xF0 0)
    [.create [0x62], .setSize Demo.file 5000] t ∧ Owned t.view := by
  have hs : Ready False (Demo.cache 8 0xF0 0) := Demo.fits_eight.ready (by decide)
  have hcreate : (FileCall.create [0x62]).Allowed (Demo.cache 8 0xF0 0) := by
    refine ⟨by decide, fun d name hres hnone => ?_⟩
    rw [Demo.view_cache] at hres hnone
    have hroot : resolve (Demo.image 8 0xF0 0) sRoot (components [0x62]) = .missing sRoot [0x62] := by
      decide +kernel
    obtain ⟨rfl, -⟩ := Walk.missing.inj (hroot.symm.trans hres)
    have hfree : firstHit (Demo.image 8 0xF0 0) sRoot [] ≠ none := by decide +kernel
    exact absurd hnone hfree
  obtain ⟨t, ht, hst⟩ := FileCall.exists_after hs hcreate
  have hsize : (FileCall.setSize Demo.file 5000).Allowed t :=
    ⟨⟨hst.node hs Demo.node_cache, (hst.type hs Demo.node_cache).symm ▸ Demo.type_cache⟩, by decide⟩
  obtain ⟨u, hu, -⟩ := FileCall.exists_after (hst.ready hs) hsize
  have hrun := (Run.single hcreate ht).snoc hsize hu
  exact ⟨u, hrun, owned_of_run hs.toSane hrun⟩

end Jos.Fs
