import Jos.User.Process

/-! `pipe`: it makes both ends, or leaves the address space as it was. -/

namespace Jos.User

open Kern Lib

def Vm.Readable (s : Vm) (e : EnvIx) : Prop :=
  ∀ pn p f, s.pte e pn = some (p, f) → f &&& pteP ≠ 0 ∧ f &&& pteU ≠ 0

theorem Vm.Readable.present {e : EnvIx} {s : Vm} (hs : s.Readable e) {pn : Nat} :
    flags (s.pte e pn) &&& pteP ≠ 0 ↔ s.pte e pn ≠ none := by
  constructor
  · intro h hn
    rw [hn] at h
    exact h BitVec.zero_and
  · intro h
    obtain ⟨⟨p, f⟩, hp⟩ := Option.ne_none_iff_exists'.1 h
    rw [hp]
    exact (hs _ _ _ hp).1

/-- The pages to come are mapped nowhere, and no page comes twice. -/
structure Machine.Fresh (x : Machine) : Prop where
  unmapped : ∀ p, some p ∈ x.supply → x.vm.Unmapped p
  nodup : (x.supply.filterMap id).Nodup

structure PipeMade (e : EnvIx) (s : Vm) (n0 n1 : Word) (s' : Vm) : Prop where
  range : n0.toNat < 32 ∧ n1.toNat < 32
  ne : n0 ≠ n1
  free : s.pte e (fdPn n0.toNat) = none ∧ s.pte e (fdPn n1.toNat) = none
  reads : ∃ p, s'.pte e (fdPn n0.toNat) = some (p, pipePerm) ∧ s.Unmapped p ∧
    s'.word p 0 = Device.pipe.devId ∧ s'.word p 8 = oRdonly
  writes : ∃ p, s'.pte e (fdPn n1.toNat) = some (p, pipePerm) ∧ s.Unmapped p ∧
    s'.word p 0 = Device.pipe.devId ∧ s'.word p 8 = oWronly
  data : ∃ d, s'.pte e (dataPn n0.toNat) = some (d, pipePerm) ∧
    s'.pte e (dataPn n1.toNat) = some (d, pipePerm) ∧ s.Unmapped d ∧ ∀ i, s'.mem d i = 0
  others : ∀ e' pn, (e' = e → pn ∉ [fdPn n0.toNat, fdPn n1.toNat, dataPn n0.toNat,
    dataPn n1.toNat]) → s'.pte e' pn = s.pte e' pn

def Vm.NoStale (s : Vm) (e : EnvIx) : Prop :=
  ∀ i < 32, s.pte e (fdPn i) = none → s.pte e (dataPn i) = none

section words

variable {s : Vm} {p q off off' : Nat} {w : Word}

theorem join_bytes (w : Word) :
    w.extractLsb' 24 8 ++ w.extractLsb' 16 8 ++ w.extractLsb' 8 8 ++ w.extractLsb' 0 8 = w := by
  rw [BitVec.extractLsb'_append_extractLsb'_eq_extractLsb' (by decide),
    BitVec.extractLsb'_append_extractLsb'_eq_extractLsb' (by decide),
    BitVec.extractLsb'_append_extractLsb'_eq_extractLsb' (by decide)]
  exact BitVec.extractLsb'_eq_self

theorem word_setWord : (s.setWord p off w).word p off = w := by
  refine Eq.trans ?_ (join_bytes w)
  simp [Vm.word, Vm.setWord, Vm.store]

theorem mem_setWord_of_ne (h : q ≠ p) : (s.setWord p off w).mem q = s.mem q := by
  rw [Vm.setWord, Vm.store, Vm.fill_of_ne h, Vm.store, Vm.fill_of_ne h, Vm.store, Vm.fill_of_ne h,
    Vm.store, Vm.fill_of_ne h]

theorem mem_setWord_of_lt {i : Nat} (h : i < off ∨ off + 3 < i) :
    (s.setWord p off w).mem p i = s.mem p i := by
  have h0 : i ≠ off ∧ i ≠ off + 1 ∧ i ≠ off + 2 ∧ i ≠ off + 3 := by omega
  simp [Vm.setWord, Vm.store, h0]

theorem word_setWord_of_lt (h : off' + 3 < off ∨ off + 3 < off') :
    (s.setWord p off w).word p off' = s.word p off' := by
  rw [Vm.word, mem_setWord_of_lt (by omega), mem_setWord_of_lt (by omega),
    mem_setWord_of_lt (by omega), mem_setWord_of_lt (by omega), Vm.word]

theorem word_setWord_of_ne (h : q ≠ p) : (s.setWord p off w).word q off' = s.word q off' := by
  rw [Vm.word, mem_setWord_of_ne h, Vm.word]

end words

def Vm.Within (s : Vm) (e : EnvIx) (l : List Nat) (s' : Vm) : Prop :=
  ∀ e' pn, (e' = e → pn ∉ l) → s'.pte e' pn = s.pte e' pn

section

variable {e : EnvIx} {s s' : Vm} {x : Machine} {l : List Nat} {pn : Nat} {n n0 n1 r : Word}

theorem Vm.Within.map (h : s.Within e l s') (y : Option (Nat × Word)) :
    s.Within e (pn :: l) (s'.mapAt e pn y) := by
  intro e' pn' ht
  rw [Vm.mapAt_ne]
  · exact h _ _ fun he hm => ht he (List.mem_cons_of_mem _ hm)
  · by_cases he : e' = e
    · exact .inr fun hpn => ht he (hpn ▸ List.mem_cons_self)
    · exact .inl he

theorem Vm.Within.unmap (hpn : s.pte e pn = none) (h : s.Within e (pn :: l) s') :
    s.Within e l (s'.mapAt e pn none) := by
  intro e' pn' ht
  rw [Vm.pte_mapAt]
  split
  · next hc => rw [hc.1, hc.2, hpn]
  · next hc =>
    refine h _ _ fun he hm => ?_
    rcases List.mem_cons.1 hm with hp | hm
    · exact hc ⟨he, hp⟩
    · exact ht he hm

theorem Vm.Within.pte_eq (h : s.Within e [] s') : s'.pte = s.pte := by
  funext e' pn
  exact h e' pn fun _ => List.not_mem_nil

theorem Vm.Readable.mapAt (h : s.Readable e) {p : Nat} {f : Word}
    (hf : f &&& pteP ≠ 0 ∧ f &&& pteU ≠ 0) : (s.mapAt e pn (some (p, f))).Readable e := by
  intro pn' p' f' hp
  obtain ⟨-, -, hx⟩ | hp := Vm.mapAt_cases hp
  · cases hx
    exact hf
  · exact h _ _ _ hp

theorem pipePerm_ok : permOk pipePerm :=
  ⟨by decide, by decide, by decide⟩

theorem Machine.Fresh.alloc (h : x.Fresh) {p : Nat} {f : Word} {d : Nat → Byte}
    (hp : x.supply.head? = some (some p)) :
    Machine.Fresh ⟨(x.vm.fill p d).mapAt e pn (some (p, f)), x.supply.tail, x.replies⟩ := by
  obtain ⟨more, hx⟩ : ∃ more, x.supply = some p :: more := by
    cases hs : x.supply with
    | nil =>
      rw [hs] at hp
      cases hp
    | cons o more =>
      rw [hs] at hp
      cases hp
      exact ⟨more, rfl⟩
  have hnd := h.nodup
  rw [hx, List.filterMap_cons_some (by rfl), List.nodup_cons] at hnd
  constructor
  · intro q hq e' pn' ⟨g, hg⟩
    rw [hx] at hq
    obtain ⟨-, -, hc⟩ | hold := Vm.mapAt_cases hg
    · cases hc
      exact hnd.1 (List.mem_filterMap.2 ⟨_, hq, rfl⟩)
    · refine h.unmapped q ?_ e' pn' ⟨g, hold⟩
      rw [hx]
      exact List.mem_cons_of_mem _ hq
  · dsimp only
    rw [hx]
    exact hnd.2

def PipeDone (e : EnvIx) (s : Vm) : Except Word (Word × Word) → Machine → Prop
  | .ok (n0, n1), y => PipeMade e s n0 n1 y.vm
  | .error r, y => r.slt 0 = true ∧ y.vm.pte = s.pte

structure BothFds (e : EnvIx) (s : Vm) (n0 n1 : Word) (p0 p1 : Nat) (x : Machine) : Prop where
  range : n0.toNat < 32 ∧ n1.toNat < 32
  ne : n0 ≠ n1
  free : s.pte e (fdPn n0.toNat) = none ∧ s.pte e (fdPn n1.toNat) = none
  fd0 : x.vm.pte e (fdPn n0.toNat) = some (p0, pipePerm)
  fd1 : x.vm.pte e (fdPn n1.toNat) = some (p1, pipePerm)
  unmapped : s.Unmapped p0 ∧ s.Unmapped p1
  pages : p0 ≠ p1

namespace Act

theorem wp_fdAlloc {D : Prop} {Q : Except Word Word → Machine → Prop} (hs : x.vm.Readable e)
    {is : List Nat} (his : ∀ i ∈ is, i < 32)
    (hok : ∀ n : Word, n.toNat < 32 → x.vm.pte e (fdPn n.toNat) = none → Q (.ok (index2fd n)) x)
    (hfull : Q (.error (-eMaxOpen)) x) : Wp D (fdAlloc e is) x Q := by
  induction is with
  | nil => exact hfull
  | cons i is ih =>
    have hi : (BitVec.ofNat 32 i).toNat < 32 := by
      have := his i List.mem_cons_self
      rw [BitVec.toNat_ofNat]
      omega
    refine .bind (wp_present ?_)
    rw [pgnum_index2fd hi]
    refine .ite (fun _ => ih fun j hj => his j (List.mem_cons_of_mem _ hj)) fun hno => ?_
    refine hok _ hi ?_
    by_contra hc
    exact hno (decide_eq_true (hs.present.2 hc))

theorem wp_pipeErr1 (hn : n0.toNat < 32) (h0 : s.pte e (fdPn n0.toNat) = none)
    (hw : s.Within e [fdPn n0.toNat] x.vm) (hr : r.slt 0 = true) :
    Wp False (pipeErr1 e (index2fd n0) r) x (PipeDone e s) := by
  refine .bind (wp_sysPageUnmap (index2fd_valid hn) (.pure ⟨hr, ?_⟩))
  rw [pgnum_index2fd hn]
  exact (Vm.Within.unmap h0 hw).pte_eq

variable {p0 p1 : Nat}

theorem wp_pipeErr2 (ht : BothFds e s n0 n1 p0 p1 x)
    (hw : s.Within e [fdPn n1.toNat, fdPn n0.toNat] x.vm) (hr : r.slt 0 = true) :
    Wp False (pipeErr2 e (index2fd n0) (index2fd n1) r) x (PipeDone e s) := by
  refine .bind (wp_sysPageUnmap (index2fd_valid ht.range.2) ?_)
  refine wp_pipeErr1 ht.range.1 ht.free.1 ?_ hr
  rw [pgnum_index2fd ht.range.2]
  exact Vm.Within.unmap ht.free.2 hw

theorem wp_pipeErr3 (ht : BothFds e s n0 n1 p0 p1 x) (h0 : s.pte e (dataPn n0.toNat) = none)
    (hw : s.Within e [dataPn n0.toNat, fdPn n1.toNat, fdPn n0.toNat] x.vm) (hr : r.slt 0 = true) :
    Wp False (pipeErr3 e (index2fd n0) (index2fd n1) r) x (PipeDone e s) := by
  refine .bind (wp_sysPageUnmap (fd2data_valid ht.range.1) ?_)
  rw [pgnum_fd2data ht.range.1]
  refine @wp_pipeErr2 e s _ n0 n1 r p0 p1
    ⟨ht.range, ht.ne, ht.free, ?_, ?_, ht.unmapped, ht.pages⟩ (Vm.Within.unmap h0 hw) hr
  · rw [Vm.mapAt_ne (.inr (fdPn_ne_dataPn ht.range.1)), ht.fd0]
  · rw [Vm.mapAt_ne (.inr (fdPn_ne_dataPn ht.range.2)), ht.fd1]

theorem wp_pipeSet {d : Nat} (ht : BothFds e s n0 n1 p0 p1 x)
    (h0 : x.vm.pte e (dataPn n0.toNat) = some (d, pipePerm))
    (h1 : x.vm.pte e (dataPn n1.toNat) = some (d, pipePerm))
    (hd : s.Unmapped d ∧ d ≠ p0 ∧ d ≠ p1) (hzero : ∀ i, x.vm.mem d i = 0)
    (hw : s.Within e [fdPn n0.toNat, fdPn n1.toNat, dataPn n0.toNat, dataPn n1.toNat] x.vm) :
    Wp False (pipeSet e (index2fd n0) (index2fd n1)) x (PipeDone e s) := by
  obtain ⟨hn0, hn1⟩ := ht.range
  have hW : pipePerm &&& pteW ≠ 0 := by decide
  have hmode0 : pgnum (fdOmode (index2fd n0)) = fdPn n0.toNat ∧ pgoff (fdOmode (index2fd n0)) = 8 :=
    fd_field hn0 (k := 8) (by decide)
  have hmode1 : pgnum (fdOmode (index2fd n1)) = fdPn n1.toNat ∧ pgoff (fdOmode (index2fd n1)) = 8 :=
    fd_field hn1 (k := 8) (by decide)
  have hfd0 : x.vm.pte e (pgnum (index2fd n0)) = some (p0, pipePerm) := by
    rw [pgnum_index2fd hn0, ht.fd0]
  have hfd1 : x.vm.pte e (pgnum (index2fd n1)) = some (p1, pipePerm) := by
    rw [pgnum_index2fd hn1, ht.fd1]
  refine .bind (wp_storeWord hfd0 hW (by rw [(index2fd_valid hn0).2]; decide) ?_)
  refine .bind (wp_storeWord (hmode0.1 ▸ ht.fd0) hW (by rw [hmode0.2]; decide) ?_)
  refine .bind (wp_storeWord hfd1 hW (by rw [(index2fd_valid hn1).2]; decide) ?_)
  refine .bind (wp_storeWord (hmode1.1 ▸ ht.fd1) hW (by rw [hmode1.2]; decide) (.pure ?_))
  rw [(index2fd_valid hn0).2, (index2fd_valid hn1).2, hmode0.2, hmode1.2, fd2num_index2fd hn0,
    fd2num_index2fd hn1]
  refine ⟨ht.range, ht.ne, ht.free, ⟨p0, ht.fd0, ht.unmapped.1, ?_, ?_⟩,
    ⟨p1, ht.fd1, ht.unmapped.2, ?_, ?_⟩, ⟨d, h0, h1, hd.1, fun i => ?_⟩, hw⟩
  · rw [word_setWord_of_ne ht.pages, word_setWord_of_ne ht.pages, word_setWord_of_lt (by decide),
      word_setWord]
  · rw [word_setWord_of_ne ht.pages, word_setWord_of_ne ht.pages, word_setWord]
  · rw [word_setWord_of_lt (by decide), word_setWord]
  · exact word_setWord
  · rw [mem_setWord_of_ne hd.2.2, mem_setWord_of_ne hd.2.2, mem_setWord_of_ne hd.2.1,
      mem_setWord_of_ne hd.2.1, hzero]

theorem wp_pipeData (ht : BothFds e s n0 n1 p0 p1 x) (hs : s.NoStale e)
    (hw : s.Within e [fdPn n1.toNat, fdPn n0.toNat] x.vm) (hx : x.Fresh)
    (hun : ∀ p, some p ∈ x.supply → s.Unmapped p) :
    Wp False (pipeData e (index2fd n0) (index2fd n1)) x (PipeDone e s) := by
  obtain ⟨hn0, hn1⟩ := ht.range
  have hd0 := hs _ hn0 ht.free.1
  have hdd : dataPn n1.toNat ≠ dataPn n0.toNat := fun hc =>
    ht.ne (BitVec.eq_of_toNat_eq (dataPn_inj hc).symm)
  refine .bind (wp_sysPageAlloc (fd2data_valid hn0).1 pipePerm_ok (fun _ => ?_) fun d hd => ?_)
  · rw [if_pos (by decide)]
    exact wp_pipeErr2 ⟨ht.range, ht.ne, ht.free, ht.fd0, ht.fd1, ht.unmapped, ht.pages⟩ hw (by decide)
  · rw [if_neg (by decide), pgnum_fd2data hn0]
    have hmem : some d ∈ x.supply := List.mem_of_head? hd
    have hne : d ≠ p0 ∧ d ≠ p1 :=
      ⟨((hx.unmapped d hmem).ne ht.fd0).symm, ((hx.unmapped d hmem).ne ht.fd1).symm⟩
    have hfd0 : ∀ y, ((x.vm.fill d fun _ => 0).mapAt e (dataPn n0.toNat) y).pte e (fdPn n0.toNat) =
        some (p0, pipePerm) := fun y => by
      rw [Vm.mapAt_ne (.inr (fdPn_ne_dataPn hn0)), Vm.fill_pte, ht.fd0]
    have hfd1 : ∀ y, ((x.vm.fill d fun _ => 0).mapAt e (dataPn n0.toNat) y).pte e (fdPn n1.toNat) =
        some (p1, pipePerm) := fun y => by
      rw [Vm.mapAt_ne (.inr (fdPn_ne_dataPn hn1)), Vm.fill_pte, ht.fd1]
    have hwd : s.Within e [dataPn n0.toNat, fdPn n1.toNat, fdPn n0.toNat]
        ((x.vm.fill d fun _ => 0).mapAt e (dataPn n0.toNat) (some (d, pipePerm))) :=
      @Vm.Within.map e s (x.vm.fill d fun _ => 0) _ _ hw _
    refine .bind (wp_sysPageMap (p := d) (f := pipePerm) (fd2data_valid hn0) (fd2data_valid hn1) ?_
      pipePerm_ok (fun h => h) (fun _ => ?_) fun _ => ?_)
    · rw [pgnum_fd2data hn0]
      exact Vm.mapAt_self
    · rw [if_pos (by decide)]
      exact wp_pipeErr3 ⟨ht.range, ht.ne, ht.free, hfd0 _, hfd1 _, ht.unmapped, ht.pages⟩ hd0 hwd
        (by decide)
    · rw [if_neg (by decide), pgnum_fd2data hn1]
      refine wp_pipeSet (d := d) ⟨ht.range, ht.ne, ht.free, ?_, ?_, ht.unmapped, ht.pages⟩ ?_
        Vm.mapAt_self ⟨hun d hmem, hne⟩ (fun i => ?_) ?_
      · rw [Vm.mapAt_ne (.inr (fdPn_ne_dataPn hn0)), hfd0]
      · rw [Vm.mapAt_ne (.inr (fdPn_ne_dataPn hn1)), hfd1]
      · rw [Vm.mapAt_ne (.inr hdd.symm), Vm.mapAt_self]
      · rw [Vm.mapAt_mem, Vm.mapAt_mem, Vm.fill_self]
      · intro e' pn hpn
        refine hwd.map _ e' pn fun he hm => hpn he ?_
        simp only [List.mem_cons, List.not_mem_nil, or_false] at hm ⊢
        tauto

end Act

/-- `pipe` makes two new descriptors on one new page, or changes no mapping. -/
theorem pipe_all_or_nothing (hs : x.vm.Readable e) (hstale : x.vm.NoStale e) (hx : x.Fresh) :
    ∃ r y, (Act.pipe e).run x = some (r, y) ∧ PipeDone e x.vm r y := by
  have hrange : ∀ i ∈ List.range 32, i < 32 := fun i hi => List.mem_range.1 hi
  refine Wp.exists_run ?_
  refine .bind (Act.wp_fdAlloc hs hrange (fun n0 hn0 h0 => ?_) ⟨by decide, rfl⟩)
  refine .bind (Act.wp_sysPageAlloc (index2fd_valid hn0).1 pipePerm_ok (fun _ => ?_)
    fun p0 hp0 => ?_)
  · rw [if_pos (by decide)]
    exact .pure ⟨by decide, rfl⟩
  rw [if_neg (by decide), pgnum_index2fd hn0]
  have hx' := @Machine.Fresh.alloc e x (fdPn n0.toNat) hx p0 pipePerm (fun _ => 0) hp0
  have hw0 : x.vm.Within e [fdPn n0.toNat]
      ((x.vm.fill p0 fun _ => 0).mapAt e (fdPn n0.toNat) (some (p0, pipePerm))) :=
    @Vm.Within.map e x.vm (x.vm.fill p0 fun _ => 0) [] _ (fun _ _ _ => rfl) _
  have hr0 : ((x.vm.fill p0 fun _ => 0).mapAt e (fdPn n0.toNat) (some (p0, pipePerm))).Readable e :=
    Vm.Readable.mapAt (s := x.vm.fill p0 fun _ => 0) hs ⟨by decide, by decide⟩
  refine .bind (Act.wp_fdAlloc hr0 hrange (fun n1 hn1 h1 => ?_) ?_)
  swap
  · exact Act.wp_pipeErr1 hn0 h0 hw0 (by decide)
  have hne : n0 ≠ n1 := by
    rintro rfl
    rw [Vm.mapAt_self] at h1
    cases h1
  have hpn : fdPn n1.toNat ≠ fdPn n0.toNat := fun hc =>
    hne (BitVec.eq_of_toNat_eq (fdPn_inj hc).symm)
  rw [Vm.mapAt_ne (.inr hpn), Vm.fill_pte] at h1
  refine .bind (Act.wp_sysPageAlloc (index2fd_valid hn1).1 pipePerm_ok (fun _ => ?_)
    fun p1 hp1 => ?_)
  · rw [if_pos (by decide)]
    exact Act.wp_pipeErr1 hn0 h0 hw0 (by decide)
  rw [if_neg (by decide), pgnum_index2fd hn1]
  have hm0 : some p0 ∈ x.supply := List.mem_of_head? hp0
  have hm1 : some p1 ∈ x.supply.tail := List.mem_of_head? hp1
  refine @Act.wp_pipeData e x.vm _ n0 n1 p0 p1
    ⟨⟨hn0, hn1⟩, hne, ⟨h0, h1⟩, ?_, Vm.mapAt_self,
      ⟨hx.unmapped _ hm0, hx.unmapped _ (List.mem_of_mem_tail hm1)⟩, ?_⟩ hstale ?_ ?_ ?_
  · rw [Vm.mapAt_ne (.inr hpn.symm), Vm.fill_pte, Vm.mapAt_self]
  · exact (hx'.unmapped p1 hm1).ne Vm.mapAt_self
  · exact @Vm.Within.map e x.vm (Vm.fill _ p1 fun _ => 0) _ _ hw0 _
  · exact hx'.alloc hp1
  · intro p hp
    exact hx.unmapped p (List.mem_of_mem_tail (List.mem_of_mem_tail hp))

end

def oneFd : Vm where
  life _ := .live
  pte e pn := if e = envx 0 ∧ pn = fdPn 0 then some (7, pipePerm) else none
  mem _ _ := 0

theorem oneFd_readable : oneFd.Readable (envx 0) := by
  intro pn p f h
  change (if _ then _ else _) = _ at h
  split at h
  · cases h
    decide
  · cases h

theorem pipe_beside_oneFd : ∃ r y,
    (Act.pipe (envx 0)).run ⟨oneFd, [some 1, some 2, some 3, some 4], []⟩ = some (r, y) ∧
      PipeDone (envx 0) oneFd r y := by
  have hun : ∀ p, p ≠ 7 → oneFd.Unmapped p := by
    intro p hp e pn ⟨f, hf⟩
    change (if _ then _ else _) = _ at hf
    split at hf
    · cases hf
      exact hp rfl
    · cases hf
  refine pipe_all_or_nothing oneFd_readable (fun i _ _ => ?_) ⟨fun p hp => hun p ?_, by decide⟩
  · exact if_neg fun hc => fdPn_ne_dataPn (i := 0) (by decide) hc.2.symm
  · rintro rfl
    exact absurd hp (by decide)

end Jos.User
