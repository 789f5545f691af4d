import Jos.Kern.KernelSpace

/-! What `user_mem_check` promises. -/

namespace Jos.Kern

open Lib Phys Kernel

/-- A page directory as environments have them: its entries are open to user code, and a table
entry that is open to user code is present and lies below `ULIM`. -/
structure UserDir (m : Phys) (d : Nat) : Prop where
  pde : ∀ {va}, m.mem d (pdx va) &&& pteP ≠ 0 → m.mem d (pdx va) &&& pteU = pteU
  pte : ∀ {va}, m.mem d (pdx va) &&& pteP ≠ 0 →
    m.mem (pgnum (m.mem d (pdx va))) (ptx va) &&& pteU = pteU →
    m.mem (pgnum (m.mem d (pdx va))) (ptx va) &&& pteP ≠ 0 ∧ va < ulim

structure PageOk (m : Phys) (d : Nat) (perm start : Word) : Prop where
  le : ¬ulim < start
  pde : m.mem d (pdx start) &&& pteP ≠ 0
  lt : pgnum (m.mem d (pdx start)) < m.npages
  pte : m.mem (pgnum (m.mem d (pdx start))) (ptx start) &&& perm = perm

/-- No page table, an entry that lacks a bit of `perm`, or an address above `ULIM`. -/
def PageBad (m : Phys) (d : Nat) (perm start : Word) : Prop :=
  m.mem d (pdx start) &&& pteP = 0 ∨
    m.mem (pgnum (m.mem d (pdx start))) (ptx start) &&& perm ≠ perm ∨ ulim < start

section

variable {m : Phys} {d : Nat} {va len perm stop start : Word} {n : Nat}

theorem pgdirWalk_present (h : m.mem d (pdx va) &&& pteP ≠ 0)
    (hlt : pgnum (m.mem d (pdx va)) < m.npages) :
    pgdirWalk m (some d) va false = some (m, some (pgnum (m.mem d (pdx va)), ptx va)) := by
  rw [pgdirWalk]
  simp only [Option.bind_eq_bind, Option.bind_some]
  rw [if_neg h, kaddr, pgnum_pteAddr, if_neg (Nat.not_le.2 hlt)]
  rfl

theorem pgdirWalk_absent (h : m.mem d (pdx va) &&& pteP = 0) :
    pgdirWalk m (some d) va false = some (m, none) := by
  rw [pgdirWalk]
  simp only [Option.bind_eq_bind, Option.bind_some, if_pos h, Bool.not_false, if_true]
  rfl

theorem pgdirWalk_eq_some {r : Phys × Option (Nat × Nat)} (hp : m.mem d (pdx va) &&& pteP ≠ 0)
    (h : pgdirWalk m (some d) va false = some r) :
    pgnum (m.mem d (pdx va)) < m.npages ∧ r = (m, some (pgnum (m.mem d (pdx va)), ptx va)) := by
  by_cases hlt : pgnum (m.mem d (pdx va)) < m.npages
  · rw [pgdirWalk_present hp hlt] at h
    exact ⟨hlt, (Option.some.inj h).symm⟩
  · rw [pgdirWalk] at h
    simp only [Option.bind_eq_bind, Option.bind_some] at h
    rw [if_neg hp, kaddr, pgnum_pteAddr, if_pos (Nat.not_lt.1 hlt)] at h
    cases h

theorem userMemCheckLoop_cases (hlt : start < stop) {r : Option Word}
    (h : userMemCheckLoop m (some d) va stop perm (n + 1) start = some r) :
    PageOk m d perm start ∧
        userMemCheckLoop m (some d) va stop perm n (start + pgsize) = some r ∨
      PageBad m d perm start ∧ r = some (if start = roundDown va pgsize then va else start) := by
  rw [userMemCheckLoop, if_pos hlt] at h
  obtain ⟨w, hw, h⟩ := Option.bind_eq_some_iff.1 h
  by_cases hp : m.mem d (pdx start) &&& pteP = 0
  · rw [pgdirWalk_absent hp] at hw
    cases hw
    exact .inr ⟨.inl hp, (Option.some.inj h).symm⟩
  · obtain ⟨hn, rfl⟩ := pgdirWalk_eq_some hp hw
    simp only at h
    split at h
    · next hc => exact .inr ⟨.inr hc.symm, (Option.some.inj h).symm⟩
    · next hc => exact .inl ⟨⟨fun hl => hc (.inl hl), hp, hn, not_not.1 fun hb => hc (.inr hb)⟩, h⟩

theorem userMemCheckLoop_succ (hlt : start < stop) :
    userMemCheckLoop m (some d) va stop perm (n + 1) start = some none ↔
      PageOk m d perm start ∧
        userMemCheckLoop m (some d) va stop perm n (start + pgsize) = some none := by
  constructor
  · intro h
    rcases userMemCheckLoop_cases hlt h with hok | ⟨-, hr⟩
    · exact hok
    · cases hr
  · rintro ⟨hok, h⟩
    rw [userMemCheckLoop, if_pos hlt]
    refine Option.bind_eq_some_iff.2 ⟨_, pgdirWalk_present hok.pde hok.lt, ?_⟩
    simp only
    rw [if_neg]
    · exact h
    · rintro (hl | hb)
      · exact hok.le hl
      · exact hb hok.pte

theorem userMemCheckLoop_done (hge : ¬start < stop) :
    userMemCheckLoop m (some d) va stop perm n start = some none := by
  cases n with
  | zero => rfl
  | succ n => rw [userMemCheckLoop, if_neg hge]

theorem toNat_add_pgsize (hs : start.toNat % 4096 = 0) (he : stop.toNat % 4096 = 0)
    (hlt : start < stop) : (start + pgsize).toNat = start.toNat + 4096 := by
  have := BitVec.lt_def.1 hlt
  have := stop.isLt
  rw [BitVec.toNat_add, toNat_pgsize]
  omega

theorem userMemCheckLoop_eq_none_iff (hs : start.toNat % 4096 = 0) (he : stop.toNat % 4096 = 0)
    (hn : stop.toNat ≤ start.toNat + n * 4096) :
    userMemCheckLoop m (some d) va stop perm n start = some none ↔
      ∀ x : Word, x.toNat % 4096 = 0 → start ≤ x → x < stop → PageOk m d perm x := by
  induction n generalizing start with
  | zero =>
    refine ⟨fun _ x _ hlo hhi => ?_, fun _ => rfl⟩
    have := BitVec.le_def.1 hlo
    have := BitVec.lt_def.1 hhi
    omega
  | succ n ih =>
    by_cases hlt : start < stop
    · have hnext := toNat_add_pgsize hs he hlt
      rw [userMemCheckLoop_succ hlt, ih (by omega) (by omega)]
      constructor
      · rintro ⟨hok, h⟩ x hx hlo hhi
        by_cases hxs : x = start
        · rw [hxs]
          exact hok
        · have := BitVec.le_def.1 hlo
          have : x.toNat ≠ start.toNat := fun h => hxs (BitVec.eq_of_toNat_eq h)
          refine h x hx ?_ hhi
          rw [BitVec.le_def, hnext]
          omega
      · intro h
        refine ⟨h start hs (BitVec.le_refl _) hlt, fun x hx hlo hhi => h x hx ?_ hhi⟩
        rw [BitVec.le_def, hnext] at hlo
        rw [BitVec.le_def]
        omega
    · refine ⟨fun _ x _ hlo hhi => ?_, fun _ => userMemCheckLoop_done hlt⟩
      have := BitVec.le_def.1 hlo
      have := BitVec.lt_def.1 hhi
      have := BitVec.le_def.1 (BitVec.not_lt.1 hlt)
      omega

theorem userMemCheck_eq_none_iff : userMemCheck m (some d) va len perm = some none ↔
    ∀ x : Word, x.toNat % 4096 = 0 → roundDown va pgsize ≤ x → x < roundUp (va + len) pgsize →
      PageOk m d perm x := by
  refine userMemCheckLoop_eq_none_iff ?_ ?_ ?_
  · rw [toNat_roundDown]
    omega
  · rw [toNat_roundUp]
    omega
  · have := (roundUp (va + len) pgsize).isLt
    omega

theorem pdx_roundDown (va : Word) : pdx (roundDown va pgsize) = pdx va := by
  rw [pdx_eq, pdx_eq, toNat_roundDown]
  omega

theorem ptx_roundDown (va : Word) : ptx (roundDown va pgsize) = ptx va := by
  rw [ptx_eq, ptx_eq, toNat_roundDown]
  omega

theorem PageOk.mmuWalk (h : PageOk m d perm (roundDown va pgsize)) (hd : UserDir m d)
    (hU : perm &&& pteU = pteU) :
    va < ulim ∧ mmuWalk m d va =
      some (m.mem d (pdx va), m.mem (pgnum (m.mem d (pdx va))) (ptx va)) ∧
      m.mem (pgnum (m.mem d (pdx va))) (ptx va) &&& perm = perm := by
  have hpde := h.pde
  have hpte := h.pte
  rw [pdx_roundDown] at hpde hpte
  rw [ptx_roundDown] at hpte
  obtain ⟨hp, hlt⟩ := hd.pte hpde (and_eq_of_and_eq hpte hU)
  refine ⟨hlt, ?_, hpte⟩
  simp only [Kern.mmuWalk]
  rw [if_neg hpde, if_neg hp]

theorem pageOk_of_check (h : userMemCheck m (some d) va len perm = some none)
    (hw : va.toNat + len.toNat + 4095 < 2 ^ 32) {a : Word} (hlo : va.toNat ≤ a.toNat)
    (hhi : a.toNat < va.toNat + len.toNat) : PageOk m d perm (roundDown a pgsize) := by
  have hsum : (va + len).toNat = va.toNat + len.toNat := by
    rw [BitVec.toNat_add]
    omega
  refine userMemCheck_eq_none_iff.1 h _ ?_ ?_ ?_
  · rw [toNat_roundDown]
    omega
  · rw [BitVec.le_def, toNat_roundDown, toNat_roundDown]
    omega
  · rw [BitVec.lt_def, toNat_roundDown, toNat_roundUp, hsum]
    omega

theorem PageOk.not_bad (h : PageOk m d perm start) : ¬ PageBad m d perm start := by
  rintro (hp | hb | hl)
  · exact h.pde hp
  · exact hb h.pte
  · exact h.le hl

theorem userMemCheckLoop_fault {a : Word} (hs : start.toNat % 4096 = 0) (he : stop.toNat % 4096 = 0)
    (h : userMemCheckLoop m (some d) va stop perm n start = some (some a)) :
    ∃ x : Word, x.toNat % 4096 = 0 ∧ start ≤ x ∧ x < stop ∧
      a = (if x = roundDown va pgsize then va else x) ∧ PageBad m d perm x ∧
      ∀ y : Word, y.toNat % 4096 = 0 → start ≤ y → y < x → PageOk m d perm y := by
  induction n generalizing start with
  | zero => cases h
  | succ n ih =>
    by_cases hlt : start < stop
    · rcases userMemCheckLoop_cases hlt h with ⟨hok, h⟩ | ⟨hbad, ha⟩
      · have hnext := toNat_add_pgsize hs he hlt
        obtain ⟨x, hx, hle, hlt', ha, hbad, hall⟩ := ih (by omega) h
        have hle' := BitVec.le_def.1 hle
        refine ⟨x, hx, BitVec.le_def.2 (by omega), hlt', ha, hbad, fun y hy h1 h2 => ?_⟩
        by_cases hys : y = start
        · exact hys ▸ hok
        · have := BitVec.le_def.1 h1
          have : y.toNat ≠ start.toNat := fun h => hys (BitVec.eq_of_toNat_eq h)
          exact hall y hy (BitVec.le_def.2 (by omega)) h2
      · exact ⟨start, hs, BitVec.le_refl start, hlt, Option.some.inj ha, hbad, fun y _ h1 h2 =>
          absurd (BitVec.lt_def.1 h2) (Nat.not_lt.2 (BitVec.le_def.1 h1))⟩
    · rw [userMemCheckLoop_done hlt] at h
      cases h

/-- The address that is left behind is the first one of the range on a page that fails. -/
theorem userMemCheck_first {a : Word} (hlen : len ≠ 0)
    (h : userMemCheck m (some d) va len perm = some (some a)) :
    ∃ i < len.toNat, a = va + BitVec.ofNat 32 i ∧ PageBad m d perm (roundDown a pgsize) ∧
      ∀ j < i, ¬ PageBad m d perm (roundDown (va + BitVec.ofNat 32 j) pgsize) := by
  have hpos : len.toNat ≠ 0 := fun hz => hlen (BitVec.eq_of_toNat_eq hz)
  have hdown := toNat_roundDown va
  have hup := toNat_roundUp (va + len)
  have hsum : (va + len).toNat = (va.toNat + len.toNat) % 2 ^ 32 := BitVec.toNat_add ..
  obtain ⟨x, hx, hle, hlt, ha, hbad, hall⟩ := userMemCheckLoop_fault (by omega) (by omega) h
  by_cases hxv : x = roundDown va pgsize
  · rw [if_pos hxv] at ha
    subst ha
    exact ⟨0, by omega, by simp, hxv ▸ hbad, fun j hj => absurd hj (Nat.not_lt_zero j)⟩
  · rw [if_neg hxv] at ha
    subst ha
    have hne : a.toNat ≠ (roundDown va pgsize).toNat := fun h => hxv (BitVec.eq_of_toNat_eq h)
    have hle' := BitVec.le_def.1 hle
    have hlt' := BitVec.lt_def.1 hlt
    have hva := va.isLt
    have hlen' := len.isLt
    have hsame : roundDown a pgsize = a := by
      refine BitVec.eq_of_toNat_eq ?_
      rw [toNat_roundDown]
      omega
    refine ⟨a.toNat - va.toNat, by omega, ?_, hsame.symm ▸ hbad, fun j hj => ?_⟩
    · refine BitVec.eq_of_toNat_eq ?_
      rw [BitVec.toNat_add, BitVec.toNat_ofNat]
      omega
    · have hj' : (va + BitVec.ofNat 32 j).toNat = va.toNat + j := by
        rw [BitVec.toNat_add, BitVec.toNat_ofNat]
        omega
      have hround := toNat_roundDown (va + BitVec.ofNat 32 j)
      exact (hall _ (by omega) (BitVec.le_def.2 (by omega)) (BitVec.lt_def.2 (by omega))).not_bad

def blankPhys : Phys := ⟨1, fun _ _ => 0, fun _ => 0, fun _ => none, none⟩

theorem userMemCheck_first_byte :
    userMemCheck blankPhys (some 0) 5 3 pteU = some (some 5) ∧
      ∃ i < (3 : Word).toNat, 5 = 5 + BitVec.ofNat 32 i ∧
        PageBad blankPhys 0 pteU (roundDown 5 pgsize) ∧
        ∀ j < i, ¬ PageBad blankPhys 0 pteU (roundDown (5 + BitVec.ofNat 32 j) pgsize) := by
  have h : userMemCheck blankPhys (some 0) 5 3 pteU = some (some 5) := rfl
  exact ⟨h, userMemCheck_first (by decide) h⟩

/-- The bytes from `va` on are open for `perm`: below `ULIM`, and both entries grant it. -/
def Open (m : Phys) (d : Nat) (va len perm : Word) : Prop :=
  ∀ a : Nat, va.toNat ≤ a → a < va.toNat + len.toNat →
    a < ulim.toNat ∧ translate m d (BitVec.ofNat 32 a) perm ≠ none

theorem translate_ne_none {pde pte : Word} (h : mmuWalk m d va = some (pde, pte)) :
    translate m d va perm ≠ none ↔ pde &&& perm = perm ∧ pte &&& perm = perm := by
  rw [translate, h]
  simp

theorem UserDir.open_iff (hd : UserDir m d) (hU : perm &&& pteU = pteU)
    (h : userMemCheck m (some d) va len perm = some none) :
    Open m d va len perm ↔ len = 0 ∨ (va.toNat + len.toNat + 4095 < 2 ^ 32 ∧
      ∀ a : Word, va.toNat ≤ a.toNat → a.toNat < va.toNat + len.toNat →
        m.mem d (pdx a) &&& perm = perm) := by
  constructor
  · intro ho
    by_cases hlen : len = 0
    · exact .inl hlen
    · have hpos : len.toNat ≠ 0 := fun hz => hlen (BitVec.eq_of_toNat_eq hz)
      obtain ⟨hlast, -⟩ := ho (va.toNat + len.toNat - 1) (by omega) (by omega)
      rw [toNat_ulim] at hlast
      refine .inr ⟨by omega, fun a hlo hhi => ?_⟩
      obtain ⟨-, htr⟩ := ho a.toNat hlo hhi
      rw [BitVec.ofNat_toNat, BitVec.setWidth_eq] at htr
      obtain ⟨p, hp⟩ := Option.ne_none_iff_exists'.1 htr
      obtain ⟨pde, pte, hw, hf, -⟩ := translate_eq_some hp
      rw [← (mmuWalk_eq_some hw).1]
      exact hf
  · rintro (rfl | ⟨hw, hpde⟩) a hlo hhi
    · simp at hhi
      omega
    · have ha : (BitVec.ofNat 32 a).toNat = a := by
        rw [BitVec.toNat_ofNat]
        omega
      rw [← ha] at hlo hhi
      obtain ⟨hlt, hwalk, hpte⟩ := (pageOk_of_check h hw hlo hhi).mmuWalk hd hU
      rw [BitVec.lt_def, ha] at hlt
      exact ⟨hlt, (translate_ne_none hwalk).2 ⟨hpde _ hlo hhi, hpte⟩⟩

end

section

variable {b : Base} {m : Phys} {ds : Dirs} {e : EnvIx} {d : Nat}

/-- Each entry of the page directory of an environment is empty, or present and open to user
code. -/
theorem Shape.pde_user (h : Shape b m ds) (hd : ds e = some d) {i : Nat} (hi : i < 1024) :
    m.mem d i = 0 ∨ (m.mem d i &&& pteP ≠ 0 ∧ m.mem d i &&& pteU = pteU) := by
  have hword : ∀ t, pdeWord t &&& pteP ≠ 0 ∧ pdeWord t &&& pteU = pteU := by
    intro t
    rw [pdeWord_and (by decide), pdeWord_and (by decide)]
    decide
  by_cases hlo : i < 955
  · rcases h.pde hd ⟨i, hlo⟩ with h0 | ⟨t, -, hw⟩
    · exact .inl h0
    · replace hw : m.mem d i = pdeWord t := hw
      rw [hw]
      exact .inr (hword t)
  · by_cases hu : i = 957
    · rw [hu, h.uvpt hd, BitVec.or_assoc, page2pa_or_and (by decide), page2pa_or_and (by decide)]
      exact .inr (by decide)
    · rw [h.kern hd (by omega) hi hu]
      rcases b.pde (by omega) hi hu with h0 | ⟨t, -, -, hw⟩
      · exact .inl h0
      · rw [hw]
        exact .inr (hword t)

theorem Shape.userDir (h : Shape b m ds) (hd : ds e = some d) : UserDir m d := by
  have hz : (0 : Word) &&& pteP = 0 := by decide
  have hzU : (0 : Word) &&& pteU ≠ pteU := by decide
  refine ⟨fun {va} hp => ?_, fun {va} hp hU => ?_⟩
  · rcases h.pde_user hd (pdx_lt va) with h0 | ⟨-, hu⟩
    · rw [h0] at hp
      exact absurd hz hp
    · exact hu
  · by_cases hva : va < utop
    · have htab : table m ds e (dirIx va hva) = some (pgnum (m.mem d (pdx va))) := by
        rw [table_eq hd, present_eq_some_iff]
        exact ⟨hp, rfl⟩
      have hlt : va < ulim := by
        have := BitVec.lt_def.1 hva
        rw [toNat_utop] at this
        rw [BitVec.lt_def, toNat_ulim]
        omega
      have hent := h.pte e (dirIx va hva) (tabIx va)
      rw [entry_eq_mem htab] at hent
      rcases hent with h0 | ⟨hP, -⟩
      · replace h0 : m.mem (pgnum (m.mem d (pdx va))) (ptx va) = 0 := h0
        rw [h0] at hU
        exact absurd hU hzU
      · exact ⟨hP, hlt⟩
    · have hlo : 955 ≤ pdx va := le_pdx (BitVec.not_lt.1 hva)
      by_cases hu : pdx va = 957
      · have hself : pgnum (m.mem d (pdx va)) = d := hu ▸ h.window_table hd
        have hlt : va < ulim := by
          rw [pdx_eq] at hu
          rw [BitVec.lt_def, toNat_ulim]
          omega
        rw [hself] at hU ⊢
        rcases h.pde_user hd (ptx_lt va) with h0 | ⟨hP, -⟩
        · rw [h0] at hU
          exact absurd hU hzU
        · exact ⟨hP, hlt⟩
      · obtain ⟨t, hpres, hpg, htp⟩ := h.kern_table hd hlo (pdx_lt va) hu hp
        rw [hpg, h.frame htp] at hU ⊢
        by_cases hk : pdx va < 957
        · have hult : va < ulim := by
            rw [pdx_eq] at hk
            rw [BitVec.lt_def, toNat_ulim]
            omega
          rcases (b.pte_user hlo hk hpres (ptx_lt va)).2 with h0 | hP
          · rw [h0] at hU
            exact absurd hU hzU
          · exact ⟨hP, hult⟩
        · have := b.pte_kern (by omega) (pdx_lt va) hpres (ptx_lt va)
          rw [this] at hU
          exact absurd hU (by decide)

end

/-- In the states of contained runs, a range that `user_mem_check` lets pass is open exactly
when it is empty or neither its end nor the rounding of it wraps around, and the directory
entries, which are not looked at, have the permissions too. -/
theorem userMemCheck_open_iff {M : Machine} {progs : List (Image × EnvType)} {k₀ k : Kernel}
    {es : List Event} (hb : Booted M progs k₀) (hr : Run step Contained k₀ es k) {e : EnvIx} {d : Nat}
    (hd : k.dirs e = some d) {va len perm : Word} (hU : perm &&& pteU = pteU)
    (h : userMemCheck k.toPhys (some d) va len perm = some none) :
    Open k.toPhys d va len perm ↔ len = 0 ∨ (va.toNat + len.toNat + 4095 < 2 ^ 32 ∧
      ∀ a : Word, va.toNat ≤ a.toNat → a.toNat < va.toNat + len.toNat →
        k.mem d (pdx a) &&& perm = perm) := by
  obtain ⟨s, m, l₀, hm, l, hs, -⟩ := hb.starting
  obtain ⟨l', hsp⟩ := (Contained.run hs.sound hs.dispatched hr).1.spaces
  exact (hsp.shape.userDir hd).open_iff hU h

theorem Starting.stack_check {M : Machine} {b : Base} {k : Kernel} {n : Nat} {l : List Nat}
    (h : Starting M b k n l) (hn : 0 < n) : ∃ d, k.dirs env0 = some d ∧
      userMemCheck k.toPhys (some d) stackVa pgsize pteU = some none := by
  obtain ⟨d, hd⟩ := h.dirs_some (e := env0) hn
  obtain ⟨pp, hent, htgt⟩ := (h.created (e := env0) hn).2
  obtain ⟨hpool, -⟩ := h.spaces.data_page htgt
  obtain ⟨t, ht, -⟩ := h.spaces.shape.pageLookup_some hd stackVa_lt htgt hpool
  obtain ⟨d', hd', htp, hw⟩ := h.spaces.shape.table_eq_some ht
  cases hd.symm.trans hd'
  replace hw : k.mem d (pdx stackVa) = pdeWord t := hw
  refine ⟨d, hd, userMemCheck_eq_none_iff.2 fun x hx hlo hhi => ?_⟩
  have hxs : x = stackVa := by
    have h1 : (roundDown stackVa pgsize).toNat = 0xEEBFD000 := by decide
    have h2 : (roundUp (stackVa + pgsize) pgsize).toNat = 0xEEBFE000 := by decide
    have h3 : stackVa.toNat = 0xEEBFD000 := by decide
    rw [BitVec.le_def, h1] at hlo
    rw [BitVec.lt_def, h2] at hhi
    exact BitVec.eq_of_toNat_eq (by omega)
  subst hxs
  have hpg : pgnum (k.mem d (pdx stackVa)) = t := by rw [hw, pgnum_pdeWord (b.lt htp)]
  refine ⟨by decide, ?_, ?_, ?_⟩
  · rw [hw, pdeWord_and (by decide)]
    decide
  · rw [hpg]
    exact h.spaces.shape.lt_npages htp
  · rw [entry_eq_mem ht] at hent
    replace hent : k.mem t (ptx stackVa) = _ := hent
    rw [hpg, hent, entry_and (by decide)]
    decide

theorem userMemCheck_open_stack : ∃ k₀ d, Booted demo (List.replicate 1 idleProg) k₀ ∧
    k₀.dirs env0 = some d ∧ userMemCheck k₀.toPhys (some d) stackVa pgsize pteU = some none ∧
    Open k₀.toPhys d stackVa pgsize pteU := by
  obtain ⟨k₀, s, m, l₀, hm, l, hb, hs, -⟩ := demo_booted (n := 1) (by decide)
  obtain ⟨d, hd, hcheck⟩ := hs.stack_check (by decide)
  refine ⟨k₀, d, hb, hd, hcheck, ?_⟩
  refine (userMemCheck_open_iff hb .nil hd (by decide) hcheck).2 (.inr ⟨by decide, fun a hlo hhi => ?_⟩)
  have hpde := (pageOk_of_check hcheck (by decide) hlo hhi).pde
  rw [pdx_roundDown] at hpde
  exact (hs.spaces.shape.userDir hd).pde hpde

/-- The end of the range wraps around, and no page is looked at. -/
theorem userMemCheck_open_fails : ∃ k₀ d, Booted demo (List.replicate 1 idleProg) k₀ ∧
    k₀.dirs env0 = some d ∧
    userMemCheck k₀.toPhys (some d) 0xF0000000 0x10000001 pteU = some none ∧
    ¬Open k₀.toPhys d 0xF0000000 0x10000001 pteU := by
  obtain ⟨k₀, s, m, l₀, hm, l, hb, hs, -⟩ := demo_booted (n := 1) (by decide)
  obtain ⟨d, hd⟩ := hs.dirs_some (e := env0) (by decide)
  refine ⟨k₀, d, hb, hd, userMemCheckLoop_done (by decide), fun ho => ?_⟩
  have := (ho 0xF0000000 (by decide) (by decide)).1
  rw [toNat_ulim] at this
  omega

end Jos.Kern
