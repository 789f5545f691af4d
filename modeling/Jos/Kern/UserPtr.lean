import Jos.Kern.MemCheck

/-! User pointers in system calls: the bytes `sys_cputs`, `sys_env_set_trapframe`,
`sys_txpacket` and `sys_rxpacket` touch once `user_mem_assert` has let them pass. -/

namespace Jos.Kern

open Lib Phys Kernel

def cputsReads (m : Phys) (cr3 : Nat) : Nat → Word → Word → List Word
  | 0, _, _ => []
  | n + 1, p, precision => p ::
    match mmuLoad m cr3 p 0 with
    | none => []
    | some ch =>
      if ch = 0 then []
      else if precision.slt 0 then cputsReads m cr3 n (p + 1) precision
      else if (precision - 1).slt 0 then []
      else cputsReads m cr3 n (p + 1) (precision - 1)

def copyInReads (m : Phys) (cr3 : Nat) : Nat → Word → List Word
  | 0, _ => []
  | n + 1, va => va ::
    match mmuLoad m cr3 va 0 with
    | none => []
    | some _ => copyInReads m cr3 n (va + 1)

def copyOutWrites (cr3 : Nat) : Phys → List Byte → Word → List Word
  | _, [], _ => []
  | m, b :: bs, va => va ::
    match mmuStore m cr3 va pteW b with
    | none => []
    | some m => copyOutWrites cr3 m bs (va + 1)

section

variable {m : Phys} {cr3 n : Nat} {p precision va : Word}

theorem mmuLoad_eq_none {flags : Word} :
    mmuLoad m cr3 va flags = none ↔ translate m cr3 va flags = none := by
  rw [mmuLoad, Option.map_eq_none_iff]

theorem add_ofNat_succ (va : Word) (i : Nat) :
    va + BitVec.ofNat 32 (i + 1) = va + 1 + BitVec.ofNat 32 i := by
  rw [Nat.add_comm, BitVec.ofNat_add, ← BitVec.add_assoc]
  rfl

theorem mem_copyInReads {i : Nat} (hi : i < n)
    (h : ∀ j, j < i → mmuLoad m cr3 (va + BitVec.ofNat 32 j) 0 ≠ none) :
    va + BitVec.ofNat 32 i ∈ copyInReads m cr3 n va := by
  induction n generalizing va i with
  | zero => exact absurd hi (Nat.not_lt_zero i)
  | succ n ih =>
    rw [copyInReads]
    cases i with
    | zero => simp
    | succ i =>
      have h0 := h 0 (Nat.succ_pos i)
      rw [BitVec.add_zero] at h0
      obtain ⟨ch, hch⟩ := Option.ne_none_iff_exists'.1 h0
      rw [hch]
      refine List.mem_cons_of_mem _ ?_
      rw [add_ofNat_succ]
      refine ih (Nat.lt_of_succ_lt_succ hi) fun j hj => ?_
      rw [← add_ofNat_succ]
      exact h (j + 1) (Nat.succ_lt_succ hj)

theorem head_mem_copyInReads : va ∈ copyInReads m cr3 (n + 1) va :=
  List.mem_cons_self ..

theorem of_mem_copyInReads {a : Word} (h : a ∈ copyInReads m cr3 n va) :
    ∃ i, i < n ∧ a = va + BitVec.ofNat 32 i := by
  induction n generalizing va with
  | zero => exact absurd h List.not_mem_nil
  | succ n ih =>
    rw [copyInReads] at h
    rcases List.mem_cons.1 h with rfl | h
    · exact ⟨0, Nat.succ_pos n, by simp⟩
    · cases hload : mmuLoad m cr3 va 0 with
      | none =>
        rw [hload] at h
        exact absurd h List.not_mem_nil
      | some ch =>
        rw [hload] at h
        obtain ⟨i, hi, rfl⟩ := ih h
        exact ⟨i + 1, Nat.succ_lt_succ hi, (add_ofNat_succ va i).symm⟩

theorem slt_zero_iff (w : Word) : w.slt 0 = true ↔ 2147483648 ≤ w.toNat := by
  change w.slt 0#32 = true ↔ _
  rw [BitVec.slt_zero_iff_msb_cond, BitVec.msb_eq_decide, decide_eq_true_iff]

theorem precision_sub_one (h : precision.slt 0 ≠ true) :
    (precision - 1).slt 0 = true ↔ precision.toNat = 0 := by
  rw [Ne, slt_zero_iff] at h
  rw [slt_zero_iff]
  have hlt := precision.isLt
  rw [BitVec.toNat_sub]
  simp only [BitVec.ofNat_eq_ofNat, BitVec.toNat_ofNat]
  omega

theorem toNat_precision_sub_one (h : precision.toNat ≠ 0) :
    (precision - 1).toNat = precision.toNat - 1 :=
  BitVec.toNat_sub_of_le (BitVec.le_def.2 (Nat.one_le_iff_ne_zero.2 h))

/-- Of a string the loop of `vprintfmt` looks at one more byte than the precision says, and at
any number for a negative precision. -/
theorem of_mem_cputsReads {a : Word} (h : a ∈ cputsReads m cr3 n p precision) :
    ∃ i, i < n ∧ (precision.slt 0 = true ∨ i ≤ precision.toNat) ∧ a = p + BitVec.ofNat 32 i := by
  induction n generalizing p precision with
  | zero => exact absurd h List.not_mem_nil
  | succ n ih =>
    rw [cputsReads] at h
    rcases List.mem_cons.1 h with rfl | h
    · exact ⟨0, Nat.succ_pos n, .inr (Nat.zero_le _), by simp⟩
    · cases hload : mmuLoad m cr3 p 0 with
      | none =>
        rw [hload] at h
        exact absurd h List.not_mem_nil
      | some ch =>
        rw [hload] at h
        simp only at h
        split_ifs at h with hz hneg hend
        · exact absurd h List.not_mem_nil
        · obtain ⟨i, hi, -, rfl⟩ := ih h
          exact ⟨i + 1, Nat.succ_lt_succ hi, .inl hneg, (add_ofNat_succ p i).symm⟩
        · exact absurd h List.not_mem_nil
        · obtain ⟨i, hi, hle, rfl⟩ := ih h
          have hpos : precision.toNat ≠ 0 := fun h0 => hend ((precision_sub_one hneg).2 h0)
          have hle := hle.resolve_left hend
          rw [toNat_precision_sub_one hpos] at hle
          exact ⟨i + 1, Nat.succ_lt_succ hi, .inr (by omega), (add_ofNat_succ p i).symm⟩

theorem mem_cputsReads {i : Nat} (hi : i < n) (hle : precision.slt 0 = true ∨ i ≤ precision.toNat)
    (h : ∀ j, j < i → ∃ ch, mmuLoad m cr3 (p + BitVec.ofNat 32 j) 0 = some ch ∧ ch ≠ 0) :
    p + BitVec.ofNat 32 i ∈ cputsReads m cr3 n p precision := by
  induction n generalizing p precision i with
  | zero => exact absurd hi (Nat.not_lt_zero i)
  | succ n ih =>
    rw [cputsReads]
    cases i with
    | zero => simp
    | succ i =>
      obtain ⟨ch, hch, hz⟩ := h 0 (Nat.succ_pos i)
      rw [BitVec.add_zero] at hch
      have hrest : ∀ j, j < i → ∃ ch, mmuLoad m cr3 (p + 1 + BitVec.ofNat 32 j) 0 = some ch ∧
          ch ≠ 0 := by
        intro j hj
        rw [← add_ofNat_succ]
        exact h (j + 1) (Nat.succ_lt_succ hj)
      rw [hch, add_ofNat_succ]
      refine List.mem_cons_of_mem _ ?_
      simp only [if_neg hz]
      split_ifs with hneg hend
      · exact ih (Nat.lt_of_succ_lt_succ hi) (.inl hneg) hrest
      · have := (precision_sub_one hneg).1 hend
        have := hle.resolve_left hneg
        omega
      · have hle := hle.resolve_left hneg
        refine ih (Nat.lt_of_succ_lt_succ hi) (.inr ?_) hrest
        rw [toNat_precision_sub_one (by omega)]
        omega

end

theorem head_mem_copyOutWrites {cr3 : Nat} {m : Phys} {bs : List Byte} {va : Word} (h : bs ≠ []) :
    va ∈ copyOutWrites cr3 m bs va := by
  cases bs with
  | nil => exact absurd rfl h
  | cons b bs => exact List.mem_cons_self ..

def Refused (va len : Word) : Prop :=
  roundDown va pgsize < roundUp (va + len) pgsize ∧ ulim < roundUp (va + len) pgsize

def Covered (va len : Word) (n : Nat) : Prop :=
  n = 0 ∨ Refused va len ∨ va.toNat + n ≤ (roundUp (va + len) pgsize).toNat

section

variable {m : Phys} {d n : Nat} {va len : Word}

theorem roundUp_mod (a : Word) : (roundUp a pgsize).toNat % 4096 = 0 := by
  rw [toNat_roundUp]
  omega

theorem Refused.check (h : Refused va len) (hd : UserDir m d) {perm : Word}
    (hU : perm &&& pteU = pteU) : userMemCheck m (some d) va len perm ≠ some none := by
  intro hc
  have hlo := BitVec.lt_def.1 h.1
  have hhi := BitVec.lt_def.1 h.2
  have hmod := roundUp_mod (va + len)
  rw [toNat_roundDown] at hlo
  rw [toNat_ulim] at hhi
  -- the last page below the end of the range
  have hx : (roundUp (va + len) pgsize - pgsize).toNat = (roundUp (va + len) pgsize).toNat - 4096 :=
    BitVec.toNat_sub_of_le (BitVec.le_def.2 (by rw [toNat_pgsize]; omega))
  have hself : roundDown (roundUp (va + len) pgsize - pgsize) pgsize =
      roundUp (va + len) pgsize - pgsize := by
    apply BitVec.eq_of_toNat_eq
    rw [toNat_roundDown, hx]
    omega
  have hok := userMemCheck_eq_none_iff.1 hc (roundUp (va + len) pgsize - pgsize) (by omega)
    (by rw [BitVec.le_def, toNat_roundDown, hx]; omega) (by rw [BitVec.lt_def, hx]; omega)
  rw [← hself] at hok
  have hlt := BitVec.lt_def.1 (hok.mmuWalk hd hU).1
  rw [hx, toNat_ulim] at hlt
  omega

theorem translate_user_ne_none {a : Word} (hd : UserDir m d) {perm : Word} (hU : perm &&& pteU = pteU)
    (hok : PageOk m d perm (roundDown a pgsize)) : translate m d a pteU ≠ none := by
  obtain ⟨-, hw, hpte⟩ := hok.mmuWalk hd hU
  exact (translate_ne_none hw).2 ⟨hd.pde (mmuWalk_eq_some hw).2.2.1, and_eq_of_and_eq hpte hU⟩

theorem UserDir.translate_kernel {a : Word} (hd : UserDir m d) (ha : ulim ≤ a) :
    translate m d a pteU = none := by
  by_contra h
  obtain ⟨⟨pde, pte⟩, hw⟩ := Option.ne_none_iff_exists'.1 fun hn : mmuWalk m d a = none => h (by rw [translate, hn])
  obtain ⟨rfl, rfl, hp, -⟩ := mmuWalk_eq_some hw
  exact BitVec.not_lt.2 ha (hd.pte hp ((translate_ne_none hw).1 h).2).2

theorem Covered.readable (h : Covered va len n) (hd : UserDir m d) {perm : Word}
    (hU : perm &&& pteU = pteU) (hc : userMemCheck m (some d) va len perm = some none) {i : Nat}
    (hi : i < n) : translate m d (va + BitVec.ofNat 32 i) pteU ≠ none := by
  rcases h with rfl | h | h
  · exact absurd hi (Nat.not_lt_zero i)
  · exact absurd hc (h.check hd hU)
  · have hlt := (roundUp (va + len) pgsize).isLt
    have ha : (va + BitVec.ofNat 32 i).toNat = va.toNat + i := by
      rw [BitVec.toNat_add, BitVec.toNat_ofNat]
      omega
    have hmod := roundUp_mod (va + len)
    refine translate_user_ne_none hd hU (userMemCheck_eq_none_iff.1 hc _ ?_ ?_ ?_)
    · rw [toNat_roundDown]
      omega
    · rw [BitVec.le_def, toNat_roundDown, toNat_roundDown, ha]
      omega
    · rw [BitVec.lt_def, toNat_roundDown, ha]
      omega

end

/-! A page directory, in page 0, that maps the pages from `lo` to `hi`, read-only and full of
ones; page 1026 is a directory that maps nothing. -/

def windowMem (lo hi : Nat) (p i : Nat) : Word :=
  if p = 0 then pdeWord (i + 1)
  else if p ≤ 1024 then
    if lo ≤ (p - 1) * 4194304 + i * 4096 ∧ (p - 1) * 4194304 + i * 4096 < hi then
      page2pa 1025 ||| (pteU ||| pteP)
    else 0
  else if p = 1025 then 0x01010101
  else 0

def windowPhys (lo hi : Nat) : Phys where
  npages := 2000
  mem := windowMem lo hi
  ppRef := fun _ => 0
  ppLink := fun _ => none
  pageFreeList := none

section

variable {lo hi : Nat} {va : Word}

theorem window_pde : (windowPhys lo hi).mem 0 (pdx va) = pdeWord (pdx va + 1) := rfl

theorem window_pgnum : pgnum ((windowPhys lo hi).mem 0 (pdx va)) = pdx va + 1 := by
  rw [window_pde, pgnum_pdeWord]
  have := pdx_lt va
  omega

theorem window_pte : (windowPhys lo hi).mem (pdx va + 1) (ptx va) =
    if lo ≤ va.toNat / 4096 * 4096 ∧ va.toNat / 4096 * 4096 < hi then
      page2pa 1025 ||| (pteU ||| pteP) else 0 := by
  have h := pdx_lt va
  have hva : pdx va * 4194304 + ptx va * 4096 = va.toNat / 4096 * 4096 := by
    rw [pdx_eq, ptx_eq]
    omega
  change windowMem lo hi (pdx va + 1) (ptx va) = _
  rw [windowMem, if_neg (Nat.succ_ne_zero _), if_pos (by omega), Nat.add_sub_cancel, hva]

theorem window_userDir (h : hi ≤ ulim.toNat) : UserDir (windowPhys lo hi) 0 := by
  refine ⟨fun {va} _ => ?_, fun {va} _ hU => ?_⟩
  · rw [window_pde, pdeWord_and (by decide)]
    decide
  · rw [window_pgnum, window_pte] at hU ⊢
    split at hU
    · next hc =>
      rw [if_pos hc, page2pa_or_and (by decide)]
      refine ⟨by decide, BitVec.lt_def.2 ?_⟩
      rw [toNat_ulim] at h ⊢
      omega
    · exact absurd hU (by decide)

theorem window_mmuWalk (hlo : lo ≤ va.toNat / 4096 * 4096) (hhi : va.toNat / 4096 * 4096 < hi) :
    mmuWalk (windowPhys lo hi) 0 va =
      some (pdeWord (pdx va + 1), page2pa 1025 ||| (pteU ||| pteP)) := by
  have hp : pdeWord (pdx va + 1) &&& pteP ≠ 0 := by
    rw [pdeWord_and (by decide)]
    decide
  have hp' : (page2pa 1025 ||| (pteU ||| pteP)) &&& pteP ≠ 0 := by decide
  have hn : pgnum ((windowPhys lo hi).mem 0 (pdx va)) = pdx va + 1 := window_pgnum
  rw [window_pde] at hn
  have hc : lo ≤ va.toNat / 4096 * 4096 ∧ va.toNat / 4096 * 4096 < hi := ⟨hlo, hhi⟩
  simp only [mmuWalk, window_pde, hn, window_pte]
  rw [if_neg hp, if_pos hc, if_neg hp']

theorem window_load (hlo : lo ≤ va.toNat / 4096 * 4096) (hhi : va.toNat / 4096 * 4096 < hi) :
    ∃ ch, mmuLoad (windowPhys lo hi) 0 va 0 = some ch ∧ ch ≠ 0 := by
  have htr : translate (windowPhys lo hi) 0 va 0 = some 1025 := by
    rw [translate, window_mmuWalk hlo hhi]
    simp only
    rw [if_pos (by simp)]
    decide
  refine ⟨_, by rw [mmuLoad, htr, Option.map_some], ?_⟩
  change ((0x01010101 : Word) >>> (8 * (pgoff va % 4))).setWidth 8 ≠ 0
  have hr : pgoff va % 4 = 0 ∨ pgoff va % 4 = 1 ∨ pgoff va % 4 = 2 ∨ pgoff va % 4 = 3 := by omega
  rcases hr with hr | hr | hr | hr <;> rw [hr] <;> decide

theorem window_unmapped (h : ¬(lo ≤ va.toNat / 4096 * 4096 ∧ va.toNat / 4096 * 4096 < hi)) (flags : Word) :
    translate (windowPhys lo hi) 0 va flags = none := by
  have hp : pdeWord (pdx va + 1) &&& pteP ≠ 0 := by
    rw [pdeWord_and (by decide)]
    decide
  have hn : pgnum ((windowPhys lo hi).mem 0 (pdx va)) = pdx va + 1 := window_pgnum
  rw [window_pde] at hn
  simp only [translate, mmuWalk, window_pde, hn, window_pte]
  rw [if_neg h, if_neg hp, if_pos (by decide)]

end

theorem window_readonly {lo hi : Nat} (va : Word) :
    translate (windowPhys lo hi) 0 va (pteU ||| pteW) = none := by
  by_cases h : lo ≤ va.toNat / 4096 * 4096 ∧ va.toNat / 4096 * 4096 < hi
  · rw [translate, window_mmuWalk h.1 h.2]
    exact if_neg fun hc => absurd hc.2 (by decide)
  · exact window_unmapped h _

def checkEnd (va len : Word) : Nat :=
  if roundDown va pgsize < roundUp (va + len) pgsize then (roundUp (va + len) pgsize).toNat else 0

theorem window_check {va len : Word} (h : ¬Refused va len) :
    UserDir (windowPhys (roundDown va pgsize).toNat (checkEnd va len)) 0 ∧
      userMemCheck (windowPhys (roundDown va pgsize).toNat (checkEnd va len)) (some 0) va len pteU =
        some none := by
  by_cases hlt : roundDown va pgsize < roundUp (va + len) pgsize
  · rw [checkEnd, if_pos hlt]
    have hhi : (roundUp (va + len) pgsize).toNat ≤ ulim.toNat :=
      BitVec.le_def.1 (BitVec.not_lt.1 fun hu => h ⟨hlt, hu⟩)
    refine ⟨window_userDir hhi, userMemCheck_eq_none_iff.2 fun x hx hxlo hxhi => ?_⟩
    rw [BitVec.le_def] at hxlo
    rw [BitVec.lt_def] at hxhi
    refine ⟨?_, ?_, ?_, ?_⟩
    · rw [BitVec.lt_def]
      omega
    · rw [window_pde, pdeWord_and (by decide)]
      decide
    · rw [window_pgnum]
      have := pdx_lt x
      change _ < 2000
      omega
    · have hin : (roundDown va pgsize).toNat ≤ x.toNat / 4096 * 4096 ∧
          x.toNat / 4096 * 4096 < (roundUp (va + len) pgsize).toNat := by omega
      rw [window_pgnum, window_pte, if_pos hin, page2pa_or_and (by decide)]
      decide
  · rw [checkEnd, if_neg hlt]
    exact ⟨window_userDir (Nat.zero_le _), userMemCheckLoop_done hlt⟩

theorem exists_window {va len : Word} {n : Nat} (h : ¬Covered va len n) :
    ∃ lo hi, UserDir (windowPhys lo hi) 0 ∧
      userMemCheck (windowPhys lo hi) (some 0) va len pteU = some none ∧
      ∃ i, i < n ∧ translate (windowPhys lo hi) 0 (va + BitVec.ofNat 32 i) pteU = none ∧
        ∀ j, j < i → ∃ ch, mmuLoad (windowPhys lo hi) 0 (va + BitVec.ofNat 32 j) 0 = some ch ∧
          ch ≠ 0 := by
  simp only [Covered, not_or] at h
  obtain ⟨hn, hr, hc⟩ := h
  obtain ⟨hd, hcheck⟩ := window_check hr
  refine ⟨_, _, hd, hcheck, ?_⟩
  by_cases hlt : roundDown va pgsize < roundUp (va + len) pgsize
  · have hmod := roundUp_mod (va + len)
    have hlo := BitVec.lt_def.1 hlt
    have hrd := toNat_roundDown va
    have hbound := (roundUp (va + len) pgsize).isLt
    rw [checkEnd, if_pos hlt]
    refine ⟨(roundUp (va + len) pgsize).toNat - va.toNat, by omega, ?_, ?_⟩
    · apply window_unmapped
      rw [BitVec.toNat_add, BitVec.toNat_ofNat]
      omega
    · intro j hj
      have ha : (va + BitVec.ofNat 32 j).toNat = va.toNat + j := by
        rw [BitVec.toNat_add, BitVec.toNat_ofNat]
        omega
      exact window_load (by omega) (by omega)
  · rw [checkEnd, if_neg hlt]
    refine ⟨0, Nat.pos_of_ne_zero hn, window_unmapped (fun h => Nat.not_lt_zero _ h.2) _, ?_⟩
    exact fun j hj => absurd hj (Nat.not_lt_zero j)

section

variable {lo hi : Nat} {va : Word}

theorem blank_pde : (windowPhys lo hi).mem 1026 (pdx va) &&& pteP = 0 := by
  have h : (windowPhys lo hi).mem 1026 (pdx va) = 0 := rfl
  rw [h]
  decide

theorem blank_userDir : UserDir (windowPhys lo hi) 1026 :=
  ⟨fun hp => absurd blank_pde hp, fun hp => absurd blank_pde hp⟩

theorem blank_translate (flags : Word) : translate (windowPhys lo hi) 1026 va flags = none := by
  rw [translate, mmuWalk]
  simp only [if_pos blank_pde]

theorem blank_check (len perm : Word) :
    ∃ r, userMemCheck (windowPhys lo hi) (some 1026) va len perm = some r := by
  by_cases hlt : roundDown va pgsize < roundUp (va + len) pgsize
  · rw [userMemCheck, userMemCheckLoop, if_pos hlt, pgdirWalk_absent blank_pde]
    exact ⟨_, rfl⟩
  · exact ⟨none, userMemCheckLoop_done hlt⟩

end

structure Serving (k : Kernel) (c : Cpu) (cur : EnvIx) (d : Nat) : Prop where
  curenv : k.curenv c = some cur
  dir : (k.envs cur).envPgdir = some d
  cr3 : (k.cpus c).cr3 = d
  userDir : UserDir k.toPhys d

def CputsSafe (k : Kernel) (c : Cpu) (cur : EnvIx) (d : Nat) (s len : Word) : Prop :=
  ∀ {k'}, userMemAssert k c cur s len 0 = some (k', false) → s ≠ 0 →
    ∀ a ∈ cputsReads k'.toPhys (k'.cpus c).cr3 4294967296 s len, translate k'.toPhys d a pteU ≠ none

def TrapframeSafe (k : Kernel) (c : Cpu) (e : EnvIx) (d : Nat) (tf : Word) : Prop :=
  ∀ {k'}, userMemAssert k c e tf 68 pteU = some (k', false) →
    ∀ a ∈ copyInReads k'.toPhys (k'.cpus c).cr3 68 tf, translate k'.toPhys d a pteU ≠ none

def TxBusy (dev : E1000) : Prop := (dev.txqueue dev.tdt.toNat).status &&& txdStatDD = 0

def txLength (length : Word) : Nat := (if txbuffsize < length then txbuffsize else length).toNat

def TxSafe (k : Kernel) (c : Cpu) (cur : EnvIx) (d : Nat) (src length : Word) : Prop :=
  ∀ {k'}, userMemAssert k c cur src length pteU = some (k', false) → ¬TxBusy k'.e1000 →
    ∀ a ∈ copyInReads k'.toPhys (k'.cpus c).cr3 (txLength length) src,
      translate k'.toPhys d a pteU ≠ none

def rxTail (dev : E1000) : Nat := (dev.rdt + 1).toNat % nrxdesc

def RxEmpty (dev : E1000) : Prop :=
  (dev.rxqueue (rxTail dev)).status &&& rxdStatDD = 0 ∨ (dev.rxqueue (rxTail dev)).length.toNat = 0

def RxSafe (k : Kernel) (c : Cpu) (cur : EnvIx) (d : Nat) (dst : Word) : Prop :=
  ∀ {k'}, userMemAssert k c cur dst rxbuffsize pteU = some (k', false) →
    (k'.e1000.rxqueue (rxTail k'.e1000)).status &&& rxdStatDD ≠ 0 →
    ∀ a ∈ copyOutWrites (k'.cpus c).cr3 k'.toPhys
      (rxbytes k'.e1000 (rxTail k'.e1000) (k'.e1000.rxqueue (rxTail k'.e1000)).length.toNat) dst,
      translate k'.toPhys d a (pteU ||| pteW) ≠ none

section

variable {k k' : Kernel} {c : Cpu} {cur : EnvIx} {d : Nat} {va len perm : Word}

theorem Serving.check (h : Serving k c cur d)
    (ha : userMemAssert k c cur va len perm = some (k', false)) :
    k' = k ∧ userMemCheck k.toPhys (some d) va len (perm ||| pteU) = some none := by
  rcases userMemAssert_self h.curenv ha with ⟨hc, rfl, -⟩ | ⟨hg, -⟩
  · rw [h.dir] at hc
    exact ⟨rfl, hc⟩
  · cases hg

theorem Serving.assert (h : Serving k c cur d)
    (hc : userMemCheck k.toPhys (some d) va len (perm ||| pteU) = some none) :
    userMemAssert k c cur va len perm = some (k, false) := by
  rw [userMemAssert, h.dir, hc]
  rfl

end

theorem userMemAssert_other {k : Kernel} {c : Cpu} {e : EnvIx} {va len perm : Word}
    {r : Option Word} (hst : k.status e = .running) (hne : k.curenv c ≠ some e)
    (hr : userMemCheck k.toPhys (k.envs e).envPgdir va len (perm ||| pteU) = some r) :
    ∃ k', userMemAssert k c e va len perm = some (k', false) ∧ k'.toPhys = k.toPhys := by
  have hc : k.status e = .running ∧ k.curenv c ≠ some e := ⟨hst, hne⟩
  rw [userMemAssert, hr]
  cases r with
  | none => exact ⟨k, rfl, rfl⟩
  | some a => exact ⟨k.setStatus e .dying, if_pos hc, rfl⟩

def windowKernel (lo hi : Nat) (dev : E1000) (cur : EnvIx) (d : Nat) : Kernel where
  toPhys := windowPhys lo hi
  kernPgdir := 1026
  envs := fun _ => { envZero with envStatus := .running, envPgdir := some d }
  envFreeList := none
  cpus := fun _ => ⟨.started, some cur, d⟩
  ticks := 0
  e1000 := dev
  trace := []

theorem windowKernel_serving {lo hi : Nat} {dev : E1000} {c : Cpu} {cur : EnvIx} {d : Nat}
    (h : UserDir (windowPhys lo hi) d) : Serving (windowKernel lo hi dev cur d) c cur d :=
  ⟨rfl, rfl, rfl, h⟩

theorem cputs_safe_iff (c : Cpu) (cur : EnvIx) (s len : Word) :
    (∀ k d, Serving k c cur d → CputsSafe k c cur d s len) ↔
      s = 0 ∨ Covered s len (if len.slt 0 then 4294967296 else len.toNat + 1) := by
  constructor
  · intro h
    by_contra hn
    obtain ⟨hs, hcov⟩ := not_or.1 hn
    obtain ⟨lo, hi, hd, hcheck, i, hi', htr, hload⟩ := exists_window hcov
    have hserve : Serving (windowKernel lo hi noE1000 cur 0) c cur 0 := windowKernel_serving hd
    have ha : userMemAssert (windowKernel lo hi noE1000 cur 0) c cur s len 0 =
        some (windowKernel lo hi noE1000 cur 0, false) := hserve.assert hcheck
    refine h _ _ hserve ha hs _ (mem_cputsReads ?_ ?_ hload) htr
    · have := slt_zero_iff len
      split_ifs at hi' with hneg <;> omega
    · split_ifs at hi' with hneg
      · exact .inl hneg
      · exact .inr (Nat.lt_succ_iff.1 hi')
  · rintro (rfl | hcov) k d hserve k' ha hs a hmem
    · exact absurd rfl hs
    · obtain ⟨rfl, hcheck⟩ := hserve.check ha
      rw [hserve.cr3] at hmem
      obtain ⟨i, hi, hle, rfl⟩ := of_mem_cputsReads hmem
      refine hcov.readable hserve.userDir (by decide) hcheck ?_
      split
      · exact hi
      · next hneg =>
        have := hle.resolve_left hneg
        omega

theorem copyIn_safe {k : Kernel} {c : Cpu} {cur : EnvIx} {d n : Nat} {va len : Word}
    (hserve : Serving k c cur d) (hcov : Covered va len n)
    (hcheck : userMemCheck k.toPhys (some d) va len (pteU ||| pteU) = some none) {a : Word}
    (h : a ∈ copyInReads k.toPhys (k.cpus c).cr3 n va) : translate k.toPhys d a pteU ≠ none := by
  rw [hserve.cr3] at h
  obtain ⟨i, hi, rfl⟩ := of_mem_copyInReads h
  exact hcov.readable hserve.userDir (by decide) hcheck hi

theorem copyIn_unsafe {va len : Word} {n : Nat} (hcov : ¬Covered va len n) :
    ∃ lo hi, UserDir (windowPhys lo hi) 0 ∧
      userMemCheck (windowPhys lo hi) (some 0) va len (pteU ||| pteU) = some none ∧
      ∃ a ∈ copyInReads (windowPhys lo hi) 0 n va, translate (windowPhys lo hi) 0 a pteU = none := by
  obtain ⟨lo, hi, hd, hcheck, i, hi', htr, hload⟩ := exists_window hcov
  refine ⟨lo, hi, hd, hcheck, _, mem_copyInReads hi' fun j hj => ?_, htr⟩
  obtain ⟨ch, hch, -⟩ := hload j hj
  rw [hch]
  exact Option.some_ne_none ch

theorem trapframe_safe_iff (c : Cpu) (cur e : EnvIx) (tf : Word) :
    (∀ k d, Serving k c cur d → TrapframeSafe k c e d tf) ↔ e = cur ∧ Covered tf 68 68 := by
  constructor
  · intro h
    have he : e = cur := by
      by_contra hne
      -- a failed check only marks the other environment as dying, and the call goes on
      have hserve : Serving (windowKernel 0 0 noE1000 cur 1026) c cur 1026 :=
        windowKernel_serving blank_userDir
      obtain ⟨r, hr⟩ : ∃ r, userMemCheck (windowPhys 0 0) (some 1026) tf 68 (pteU ||| pteU) = some r :=
        blank_check _ _
      have hcur : (windowKernel 0 0 noE1000 cur 1026).curenv c ≠ some e :=
        fun h => hne (Option.some.inj h).symm
      obtain ⟨k', ha, hm⟩ := userMemAssert_other rfl hcur hr
      refine h _ _ hserve ha tf head_mem_copyInReads ?_
      rw [hm]
      exact blank_translate pteU
    subst he
    refine ⟨rfl, ?_⟩
    by_contra hcov
    obtain ⟨lo, hi, hd, hcheck, a, ha, htr⟩ := copyIn_unsafe hcov
    have hserve : Serving (windowKernel lo hi noE1000 e 0) c e 0 := windowKernel_serving hd
    exact h _ _ hserve (hserve.assert hcheck) a ha htr
  · rintro ⟨rfl, hcov⟩ k d hserve k' ha a hmem
    obtain ⟨rfl, hcheck⟩ := hserve.check ha
    exact copyIn_safe hserve hcov hcheck hmem

theorem tx_safe_iff (c : Cpu) (cur : EnvIx) (dev : E1000) (src length : Word) :
    (∀ k d, Serving k c cur d → k.e1000 = dev → TxSafe k c cur d src length) ↔
      TxBusy dev ∨ Covered src length (txLength length) := by
  constructor
  · intro h
    by_contra hn
    obtain ⟨hbusy, hcov⟩ := not_or.1 hn
    obtain ⟨lo, hi, hd, hcheck, a, ha, htr⟩ := copyIn_unsafe hcov
    have hserve : Serving (windowKernel lo hi dev cur 0) c cur 0 := windowKernel_serving hd
    exact h _ _ hserve rfl (hserve.assert hcheck) hbusy a ha htr
  · rintro (hbusy | hcov) k d hserve rfl k' ha hn a hmem
    · obtain ⟨rfl, -⟩ := hserve.check ha
      exact absurd hbusy hn
    · obtain ⟨rfl, hcheck⟩ := hserve.check ha
      exact copyIn_safe hserve hcov hcheck hmem

theorem rx_safe_iff (c : Cpu) (cur : EnvIx) (dev : E1000) (dst : Word) :
    (∀ k d, Serving k c cur d → k.e1000 = dev → RxSafe k c cur d dst) ↔
      RxEmpty dev ∨ Refused dst rxbuffsize := by
  constructor
  · intro h
    by_contra hn
    obtain ⟨hempty, href⟩ := not_or.1 hn
    obtain ⟨hready, hlen⟩ := not_or.1 hempty
    obtain ⟨hd, hcheck⟩ := window_check href
    have hserve : Serving (windowKernel _ _ dev cur 0) c cur 0 := windowKernel_serving hd
    have ha : userMemAssert (windowKernel _ _ dev cur 0) c cur dst rxbuffsize pteU =
        some (windowKernel _ _ dev cur 0, false) := hserve.assert hcheck
    refine h _ _ hserve rfl ha hready dst (head_mem_copyOutWrites fun hnil => hlen ?_) (window_readonly dst)
    have := congrArg List.length hnil
    rwa [rxbytes, List.length_map, List.length_range] at this
  · rintro (hempty | href) k d hserve rfl k' ha hn a hmem
    · obtain ⟨rfl, -⟩ := hserve.check ha
      have hlen := hempty.resolve_left hn
      rw [hlen] at hmem
      exact absurd hmem List.not_mem_nil
    · obtain ⟨rfl, hcheck⟩ := hserve.check ha
      exact absurd hcheck (href.check hserve.userDir (by decide))

theorem Sound.serving {b : Base} {k : Kernel} {c : Cpu} {cur : EnvIx} (h : Sound b k)
    (hd : Dispatched k) (hcur : k.curenv c = some cur) : Serving k c cur (k.cpus c).cr3 := by
  obtain ⟨l, hsp⟩ := h.spaces
  exact ⟨hcur, hd.cr3 hcur, rfl, hsp.shape.userDir (hd.cr3 hcur)⟩

end Jos.Kern
