import Jos.User.Malloc

/-! What `free` and the loops of `malloc` do to the pages of the heap. -/

namespace Jos.User

open Kern

def heapPerm (cont : Bool) : Word := pteP ||| pteU ||| pteW ||| if cont then pteContinued else 0

def refWord (s : Space) (pn : Nat) : Nat := (s.mem.word (4096 * pn + 4092)).toNat

theorem refWord_congr {s s' : Space} {pn : Nat} (hmem : ∀ x, 4096 * pn + 4092 ≤ x → x < 4096 * pn + 4096 →
    s'.mem x = s.mem x) : refWord s' pn = refWord s pn := by
  rw [refWord, refWord, Lib.Image.word_congr fun x h1 h2 => hmem x h1 (by omega)]

def setRef (s : Space) (p : Nat) (w : Word) : Space :=
  { s with mem := s.mem.putWord (4096 * p + 4092) w }

theorem refWord_setRef {s : Space} {p pn : Nat} {w : Word} :
    refWord (setRef s p w) pn = if pn = p then w.toNat else refWord s pn := by
  by_cases hpn : pn = p
  · subst hpn
    rw [if_pos rfl, refWord, setRef, Lib.Image.word_putWord]
  · rw [if_neg hpn, refWord, refWord, setRef, Lib.Image.word_putWord_of_disjoint (by omega)]

theorem toNat_mbegin : mbegin.toNat = 32768 * 4096 := by decide

theorem toNat_mend : mend.toNat = 65536 * 4096 := by decide

def pageAddr (pn : Nat) : Word := BitVec.ofNat 32 (4096 * pn)

theorem toNat_pageAddr {pn : Nat} (h : pn < 2 ^ 20) : (pageAddr pn).toNat = 4096 * pn := by
  rw [pageAddr, BitVec.toNat_ofNat]
  exact Nat.mod_eq_of_lt (by omega)

theorem pgnum_pageAddr {pn : Nat} (h : pn < 2 ^ 20) : pgnum (pageAddr pn) = pn := by
  rw [pgnum_eq, toNat_pageAddr h]
  omega

theorem pgoff_pageAddr {pn : Nat} (h : pn < 2 ^ 20) : pgoff (pageAddr pn) = 0 := by
  rw [pgoff_eq, toNat_pageAddr h]
  omega

theorem pageAddr_succ (pn : Nat) : pageAddr pn + pgsize = pageAddr (pn + 1) := by
  rw [pageAddr, pageAddr, Nat.mul_succ, BitVec.ofNat_add, show pgsize = BitVec.ofNat 32 4096 from rfl]

theorem pageAddr_add (pn i : Nat) : pageAddr pn + BitVec.ofNat 32 i * pgsize = pageAddr (pn + i) := by
  have hmul : BitVec.ofNat 32 i * pgsize = BitVec.ofNat 32 (4096 * i) := by
    apply BitVec.eq_of_toNat_eq
    rw [BitVec.toNat_mul, BitVec.toNat_ofNat, BitVec.toNat_ofNat, toNat_pgsize, Nat.mod_mul_mod,
      Nat.mul_comm]
  rw [pageAddr, pageAddr, Nat.mul_add, BitVec.ofNat_add, hmul]

theorem eq_pageAddr {va : Word} (h : pgoff va = 0) : va = pageAddr (pgnum va) := by
  apply BitVec.eq_of_toNat_eq
  have hva := va.isLt
  rw [pgoff_eq] at h
  rw [toNat_pageAddr (by rw [pgnum_eq]; omega), pgnum_eq]
  omega

theorem roundDown_eq_pageAddr (va : Word) : roundDown va pgsize = pageAddr (pgnum va) := by
  apply BitVec.eq_of_toNat_eq
  have hva := va.isLt
  rw [toNat_roundDown, toNat_pageAddr (by rw [pgnum_eq]; omega), pgnum_eq, Nat.mul_comm]

theorem toNat_refAddr {pn : Nat} (h : pn < 2 ^ 20) :
    (pageAddr pn + pgsize - 4).toNat = 4096 * pn + 4092 := by
  have h4 : (4 : Word).toNat = 4 := rfl
  rw [BitVec.toNat_sub, BitVec.toNat_add, toNat_pageAddr h, toNat_pgsize, h4]
  omega

theorem pgnum_refAddr {pn : Nat} (h : pn < 2 ^ 20) : pgnum (pageAddr pn + pgsize - 4) = pn := by
  rw [pgnum_eq, toNat_refAddr h]
  omega

namespace Space

variable {s : Space} {pn q : Nat} {x : Option Word} {va : Word}

@[simp] theorem setPte_mem : (s.setPte pn x).mem = s.mem := rfl

theorem setPte_pte : (s.setPte pn x).pte q = if q = pn then x else s.pte q :=
  Function.update_apply _ _ _ _

@[simp] theorem setPte_self : (s.setPte pn x).pte pn = x := Function.update_self _ _ _

theorem setPte_of_ne (h : q ≠ pn) : (s.setPte pn x).pte q = s.pte q := Function.update_of_ne h _ _

theorem sysPageUnmap_eq (h : pn < 977920) : s.sysPageUnmap (pageAddr pn) = s.setPte pn none := by
  rw [sysPageUnmap, if_neg, pgnum_pageAddr (by omega)]
  rw [pgoff_pageAddr (by omega), BitVec.le_def, toNat_pageAddr (by omega), toNat_utop]
  omega

theorem sysPageAlloc_eq {avail : Nat} {perm : Word} (h : pn < 977920) (ha : avail ≠ 0) :
    s.sysPageAlloc avail (pageAddr pn) perm = some ((s.fillZero pn).setPte pn (some perm)) := by
  rw [sysPageAlloc, if_neg, pgnum_pageAddr (by omega)]
  rw [pgoff_pageAddr (by omega), BitVec.le_def, toNat_pageAddr (by omega), toNat_utop]
  omega

end Space

structure Freed (s s' : Space) (first last : Nat) : Prop where
  cont : ∀ pn, first ≤ pn → pn < last → s'.pte pn = none
  other : ∀ pn, pn < first ∨ last < pn → s'.pte pn = s.pte pn
  tail : s'.pte last = if refWord s last = 1 then none else some (heapPerm false)
  ref : refWord s' last = refWord s last - 1
  mem : ∀ x, x < 4096 * last + 4092 ∨ 4096 * last + 4096 ≤ x → s'.mem x = s.mem x

def Ordinary (f : Word) : Prop := f = heapPerm false ∨ f &&& pteW = 0 ∧ f &&& pteCow ≠ 0

theorem touch_ordinary {s : Space} {va f : Word} (h : s.pte (pgnum va) = some f) (hf : Ordinary f) :
    s.touch va = some (s.setPte (pgnum va) (some (heapPerm false))) := by
  rw [Space.touch, h]
  dsimp only
  rcases hf with rfl | ⟨hw, hcow⟩
  · rw [if_pos (by decide)]
    congr 1
    rw [Space.setPte, ← h, Function.update_eq_self]
  · rw [if_neg (fun hn => hn hw), if_pos hcow]
    rfl

theorem freeFrom_last {s : Space} {pn fuel : Nat} {f : Word} (hpn : pn < 977920)
    (hp : s.pte pn = some f) (hf : f &&& pteContinued = 0) (ho : Ordinary f)
    (hr : 0 < refWord s pn) :
    ∃ s', freeFrom (fuel + 1) s (pageAddr pn) = some s' ∧ Freed s s' pn pn := by
  have hlt : pn < 2 ^ 20 := by omega
  have hload : s.loadWord (pageAddr pn + pgsize - 4) = some (s.mem.word (4096 * pn + 4092)) := by
    rw [Space.loadWord, pgnum_refAddr hlt, hp, toNat_refAddr hlt]
    rfl
  have htouch : s.touch (pageAddr pn + pgsize - 4) = some (s.setPte pn (some (heapPerm false))) := by
    have hp' : s.pte (pgnum (pageAddr pn + pgsize - 4)) = some f := by rw [pgnum_refAddr hlt, hp]
    rw [touch_ordinary hp' ho, pgnum_refAddr hlt]
  have hsub : (s.mem.word (4096 * pn + 4092) - 1).toNat = refWord s pn - 1 := by
    have h1 : (1 : Word).toNat = 1 := rfl
    have hlt' := (s.mem.word (4096 * pn + 4092)).isLt
    rw [refWord] at hr ⊢
    rw [BitVec.toNat_sub, h1]
    omega
  have hzero : s.mem.word (4096 * pn + 4092) - 1 = 0 ↔ refWord s pn = 1 := by
    rw [← BitVec.toNat_inj, hsub]
    have h0 : (0 : Word).toNat = 0 := rfl
    omega
  generalize hw : s.mem.word (4096 * pn + 4092) = w at hload hsub hzero
  generalize ht : { s.setPte pn (some (heapPerm false)) with
    mem := s.mem.putWord (4096 * pn + 4092) (w - 1) } = t
  have hpte : ∀ q, q ≠ pn → t.pte q = s.pte q := by
    intro q hq
    rw [← ht]
    exact Space.setPte_of_ne hq
  have hmem : t.mem = s.mem.putWord (4096 * pn + 4092) (w - 1) := by rw [← ht]
  have hres : freeFrom (fuel + 1) s (pageAddr pn) =
      some (if w - 1 = 0 then t.sysPageUnmap (pageAddr pn) else t) := by
    rw [freeFrom, pgnum_pageAddr hlt, hp]
    dsimp only
    rw [if_neg (fun hn => hn hf), hload]
    simp only [Option.bind_eq_bind, Option.bind_some, Space.storeWord, htouch, Option.map_some,
      Option.pure_def, Space.setPte_mem, toNat_refAddr hlt, ht]
  refine ⟨_, hres, ?_⟩
  rw [Space.sysPageUnmap_eq hpn]
  have hsame : (if w - 1 = 0 then t.setPte pn none else t).mem = t.mem := by
    split
    · rfl
    · rfl
  constructor
  · intro q h1 h2
    omega
  · intro q hq
    have hne : q ≠ pn := by omega
    split
    · rw [Space.setPte_of_ne hne, hpte q hne]
    · exact hpte q hne
  · by_cases h1 : refWord s pn = 1
    · rw [if_pos (hzero.mpr h1), if_pos h1, Space.setPte_self]
    · rw [if_neg (fun h => h1 (hzero.mp h)), if_neg h1, ← ht]
      exact Space.setPte_self
  · rw [refWord, hsame, hmem, Lib.Image.word_putWord, hsub]
  · intro x hx
    rw [hsame, hmem]
    exact Lib.Image.put_of_notMem (by omega)

theorem freeFrom_freed {s : Space} {last : Nat} {f : Word} (hlast : last < 65536)
    (hp : s.pte last = some f) (hf : f &&& pteContinued = 0) (ho : Ordinary f)
    (hr : 0 < refWord s last) (k : Nat) :
    ∀ (s₁ : Space) (fuel : Nat), k ≤ fuel → k + 32768 ≤ last →
      (∀ pn, last - k ≤ pn → pn < last → ∃ g, s₁.pte pn = some g ∧ g &&& pteContinued ≠ 0) →
      s₁.pte last = s.pte last → s₁.mem = s.mem →
      ∃ s', freeFrom (fuel + 1) s₁ (pageAddr (last - k)) = some s' ∧ Freed s₁ s' (last - k) last := by
  induction k with
  | zero =>
    intro s₁ fuel _ _ _ hlast₁ hmem
    have hr₁ : 0 < refWord s₁ last := by
      rw [refWord, hmem]
      exact hr
    exact freeFrom_last (by omega) (hlast₁.trans hp) hf ho hr₁
  | succ k ih =>
    intro s₁ fuel hfuel hlow hcont hlast₁ hmem
    obtain ⟨fuel, rfl⟩ : ∃ n, fuel = n + 1 := ⟨fuel - 1, by omega⟩
    have hlt : last - (k + 1) < 2 ^ 20 := by omega
    obtain ⟨g, hg, hgc⟩ := hcont (last - (k + 1)) (Nat.le_refl _) (by omega)
    have hnext : last - (k + 1) + 1 = last - k := by omega
    have hstep : freeFrom (fuel + 1 + 1) s₁ (pageAddr (last - (k + 1))) =
        freeFrom (fuel + 1) (s₁.setPte (last - (k + 1)) none) (pageAddr (last - k)) := by
      rw [freeFrom, pgnum_pageAddr hlt, hg]
      dsimp only
      rw [if_pos hgc, Space.sysPageUnmap_eq (by omega), pageAddr_succ, hnext, if_pos]
      rw [BitVec.le_def, BitVec.lt_def, toNat_mbegin, toNat_mend, toNat_pageAddr (by omega)]
      omega
    obtain ⟨s', hs', hfreed⟩ := ih (s₁.setPte (last - (k + 1)) none) fuel (by omega) (by omega)
      (fun pn h1 h2 => by
        rw [Space.setPte_of_ne (by omega)]
        exact hcont pn (by omega) h2)
      ((Space.setPte_of_ne (by omega)).trans hlast₁) hmem
    refine ⟨s', hstep.trans hs', ?_, ?_, hfreed.tail, hfreed.ref, hfreed.mem⟩
    · intro pn h1 h2
      by_cases hpn : pn = last - (k + 1)
      · subst hpn
        rw [hfreed.other _ (by omega), Space.setPte_self]
      · exact hfreed.cont pn (by omega) h2
    · intro pn hpn
      rw [hfreed.other pn (by omega), Space.setPte_of_ne (by omega)]

theorem free_freed {s : Space} {v f : Word} {first last : Nat} (hv : pgnum v = first)
    (hlow : 32768 ≤ first) (hle : first ≤ last) (hlast : last < 65536) (hp : s.pte last = some f)
    (hf : f &&& pteContinued = 0) (ho : Ordinary f) (hr : 0 < refWord s last)
    (hcont : ∀ pn, first ≤ pn → pn < last → ∃ g, s.pte pn = some g ∧ g &&& pteContinued ≠ 0) :
    ∃ s', free s v = some s' ∧ Freed s s' first last := by
  have hpg := pgnum_eq v
  have hne : v ≠ 0 := by
    rintro rfl
    have h0 : (0 : Word).toNat = 0 := rfl
    omega
  have hin : mbegin ≤ v ∧ v < mend := by
    rw [BitVec.le_def, BitVec.lt_def, toNat_mbegin, toNat_mend]
    omega
  rw [free, if_neg hne, if_pos hin, roundDown_eq_pageAddr, hv]
  have hfrom := freeFrom_freed hlast hp hf ho hr (last - first) s 32768 (by omega) (by omega) (fun pn h1 h2 => hcont pn (by omega) h2) rfl rfl
  rwa [show last - (last - first) = first by omega] at hfrom

theorem free_some {s s' : Space} {v : Word} (h : free s v = some s') :
    v = 0 ∧ s' = s ∨ mbegin ≤ v ∧ v < mend := by
  rw [free] at h
  split at h
  · next hv =>
    cases h
    exact .inl ⟨hv, rfl⟩
  · split at h
    · next hin => exact .inr hin
    · cases h

def Clear (s : Space) (P n : Nat) : Prop :=
  ∀ pn, P ≤ pn → 4096 * pn < 4096 * P + n → pn < 65536 ∧ s.pte pn = none

theorem isfreeFrom_iff {s : Space} {endVa : Word} {fuel q : Nat} (hq : q < 2 ^ 20)
    (hfuel : endVa.toNat ≤ 4096 * (q + fuel)) :
    isfreeFrom s endVa fuel (pageAddr q) = true ↔
      ∀ pn, q ≤ pn → 4096 * pn < endVa.toNat → pn < 65536 ∧ s.pte pn = none := by
  induction fuel generalizing q with
  | zero =>
    refine ⟨fun _ pn h1 h2 => ?_, fun _ => rfl⟩
    omega
  | succ fuel ih =>
    rw [isfreeFrom, pgnum_pageAddr hq]
    split
    · next hlt =>
      rw [BitVec.lt_def, toNat_pageAddr hq] at hlt
      split
      · next hbad =>
        rw [BitVec.le_def, toNat_pageAddr hq, toNat_mend] at hbad
        refine ⟨nofun, fun h => ?_⟩
        obtain ⟨h1, h2⟩ := h q (Nat.le_refl q) hlt
        rw [h2] at hbad
        simp only [Option.isSome_none, Bool.false_eq_true, or_false] at hbad
        omega
      · next hgood =>
        rw [not_or, BitVec.le_def, toNat_pageAddr hq, toNat_mend, Bool.not_eq_true,
          Option.isSome_eq_false_iff, Option.isNone_iff_eq_none] at hgood
        have hq' : q + 1 < 2 ^ 20 := by omega
        have hfuel' : endVa.toNat ≤ 4096 * (q + 1 + fuel) := by omega
        rw [pageAddr_succ, ih hq' hfuel']
        constructor
        · intro h pn h1 h2
          by_cases hpn : pn = q
          · subst hpn
            exact ⟨by omega, hgood.2⟩
          · exact h pn (by omega) h2
        · exact fun h pn h1 h2 => h pn (by omega) h2
    · next hge =>
      rw [BitVec.lt_def, toNat_pageAddr hq] at hge
      refine ⟨fun _ pn h1 h2 => ?_, fun _ => rfl⟩
      omega

theorem isfree_iff {s : Space} {n : Word} {P : Nat} (hP : P < 2 ^ 20)
    (hwrap : 4096 * P + n.toNat < 2 ^ 32) :
    isfree s (pageAddr P) n = true ↔ Clear s P n.toNat := by
  have hend : (pageAddr P + n).toNat = 4096 * P + n.toNat := by
    rw [BitVec.toNat_add, toNat_pageAddr hP]
    exact Nat.mod_eq_of_lt hwrap
  rw [isfree, isfreeFrom_iff hP (by omega), hend]
  rfl

theorem search_some {s : Space} {n : Word} {fuel nwrap : Nat} {mptr m : Word} {ok : Bool}
    (h0 : pgoff mptr = 0) (h : search s n fuel mptr nwrap = some (m, ok)) :
    pgoff m = 0 ∧ (ok = true → isfree s m (n + 4) = true) := by
  have hoff (a : Word) (ha : pgoff a = 0) : pgoff (a + pgsize) = 0 := by
    have hadd := pgoff_add_page a 1
    rw [ha] at hadd
    have h1 : BitVec.ofNat 32 1 * pgsize = pgsize := by decide
    rwa [h1] at hadd
  induction fuel generalizing mptr nwrap with
  | zero => cases h
  | succ fuel ih =>
    rw [search] at h
    split at h
    · next hfree =>
      cases h
      exact ⟨h0, fun _ => hfree⟩
    · dsimp only at h
      split at h
      · split at h
        · cases h
          exact ⟨by decide, nofun⟩
        · exact ih (by decide) h
      · exact ih (hoff mptr h0) h

theorem unmapDown_pte {s : Space} {P i : Nat} (hP : P + i < 977920) (pn : Nat) :
    (unmapDown (pageAddr P) i s).pte pn = if P ≤ pn ∧ pn ≤ P + i then none else s.pte pn := by
  induction i generalizing s with
  | zero =>
    rw [unmapDown, Space.sysPageUnmap_eq (by omega), Space.setPte_pte]
    by_cases h : pn = P
    · rw [if_pos h, if_pos (by omega)]
    · rw [if_neg h, if_neg (by omega)]
  | succ i ih =>
    rw [unmapDown, pageAddr_add, Space.sysPageUnmap_eq (by omega), ih (by omega), Space.setPte_pte]
    by_cases h : P ≤ pn ∧ pn ≤ P + i
    · rw [if_pos h, if_pos (by omega)]
    · rw [if_neg h]
      by_cases h' : pn = P + (i + 1)
      · rw [if_pos h', if_pos (by omega)]
      · rw [if_neg h', if_neg (by omega)]

theorem sysPageUnmap_mem (s : Space) (va : Word) : (s.sysPageUnmap va).mem = s.mem := by
  rw [Space.sysPageUnmap]
  split
  · rfl
  · rfl

theorem unmapDown_mem {s : Space} {m : Word} {i : Nat} : (unmapDown m i s).mem = s.mem := by
  induction i generalizing s with
  | zero => exact sysPageUnmap_mem _ _
  | succ i ih => exact ih.trans (sysPageUnmap_mem _ _)

structure Filling (s₀ s : Space) (P k i : Nat) : Prop where
  mapped : ∀ j < i, s.pte (P + j) = some (heapPerm (j + 1 < k))
  other : ∀ pn, pn < P ∨ P + i ≤ pn → s.pte pn = s₀.pte pn
  mem : ∀ x, x < 4096 * P ∨ 4096 * (P + i) ≤ x → s.mem x = s₀.mem x

namespace Filling

variable {s₀ s : Space} {P k i : Nat}

theorem next (h : Filling s₀ s P k i) :
    Filling s₀ ((s.fillZero (P + i)).setPte (P + i) (some (heapPerm (i + 1 < k)))) P k (i + 1) where
  mapped j hj := by
    by_cases hji : j = i
    · subst hji
      exact Space.setPte_self
    · rw [Space.setPte_of_ne (by omega)]
      exact h.mapped j (by omega)
  other pn hpn := by
    rw [Space.setPte_of_ne (by omega)]
    exact h.other pn (by omega)
  mem x hx := by
    have hne : x / 4096 ≠ P + i := by omega
    change (if x / 4096 = P + i then 0 else s.mem x) = s₀.mem x
    rw [if_neg hne]
    exact h.mem x (by omega)

theorem undo (h : Filling s₀ s P k i) (hP : P + i < 977920) (hclear : ∀ j ≤ i, s₀.pte (P + j) = none) :
    (unmapDown (pageAddr P) i s).pte = s₀.pte := by
  funext pn
  rw [unmapDown_pte hP]
  by_cases hpn : P ≤ pn ∧ pn ≤ P + i
  · rw [if_pos hpn]
    have hnone := hclear (pn - P) (by omega)
    rw [show P + (pn - P) = pn by omega] at hnone
    exact hnone.symm
  · rw [if_neg hpn]
    exact h.other pn (by omega)

end Filling

theorem allocFrom_cases {s₀ : Space} {n : Word} {P k : Nat} (hk : n.toNat + 4 ≤ 4096 * k)
    (hk' : 4096 * (k - 1) < n.toNat + 4) (hP : P + k ≤ 977920)
    (hclear : ∀ j < k, s₀.pte (P + j) = none) (d : Nat) :
    ∀ (fuel avail i : Nat) (s : Space), d < fuel → i + d = k → Filling s₀ s P k i →
      (∃ s', allocFrom (pageAddr P) n fuel avail i s = (s', some k) ∧ d ≤ avail ∧
        Filling s₀ s' P k k) ∨
      ∃ s', allocFrom (pageAddr P) n fuel avail i s = (s', none) ∧ avail < d ∧ s'.pte = s₀.pte ∧
        ∀ x, x < 4096 * P ∨ 4096 * (P + k) ≤ x → s'.mem x = s₀.mem x := by
  induction d with
  | zero =>
    intro fuel avail i s hfuel hi hfill
    obtain ⟨fuel, rfl⟩ : ∃ m, fuel = m + 1 := ⟨fuel - 1, by omega⟩
    obtain rfl : i = k := by omega
    left
    refine ⟨s, ?_, Nat.zero_le _, hfill⟩
    rw [allocFrom, if_neg (by omega)]
  | succ d ih =>
    intro fuel avail i s hfuel hi hfill
    obtain ⟨fuel, rfl⟩ : ∃ m, fuel = m + 1 := ⟨fuel - 1, by omega⟩
    have hlt : 4096 * i < n.toNat + 4 := by
      have : i ≤ k - 1 := by omega
      have := Nat.mul_le_mul_right 4096 this
      omega
    have hcont : (pteP ||| pteU ||| pteW ||| if 4096 * (i + 1) < n.toNat + 4 then pteContinued else 0) =
        heapPerm (i + 1 < k) := by
      have hiff : 4096 * (i + 1) < n.toNat + 4 ↔ i + 1 < k := by
        constructor
        · intro h
          by_contra hge
          have := Nat.mul_le_mul_right 4096 (Nat.le_of_not_lt hge)
          omega
        · intro h
          have : i + 1 ≤ k - 1 := by omega
          have := Nat.mul_le_mul_right 4096 this
          omega
      simp only [heapPerm, hiff, decide_eq_true_eq]
    rw [allocFrom, if_pos hlt, pageAddr_add]
    dsimp only
    rw [hcont]
    cases avail with
    | zero =>
      right
      refine ⟨unmapDown (pageAddr P) i s, ?_, Nat.succ_pos d,
        hfill.undo (by omega) (fun j hj => hclear j (by omega)), ?_⟩
      · rw [Space.sysPageAlloc, if_pos (.inl rfl)]
      · intro x hx
        rw [unmapDown_mem]
        exact hfill.mem x (by omega)
    | succ avail =>
      rw [Space.sysPageAlloc_eq (by omega) (Nat.succ_ne_zero avail)]
      dsimp only
      rcases ih fuel avail (i + 1) _ (by omega) (by omega) hfill.next with
        ⟨s', hs', hle, hf⟩ | ⟨s', hs', hlt, hno⟩
      · exact .inl ⟨s', hs', by omega, hf⟩
      · exact .inr ⟨s', hs', by omega, hno⟩

end Jos.User
