import Jos.Kern.Atomic
import Jos.Kern.OneCpu
import Jos.Kern.Refs

/-! The result codes of `sys_page_alloc`, `sys_page_map` and `sys_page_unmap`, against the errors
that their comments list. -/

namespace Jos.Kern

open Lib Phys Kernel

/-- A call with the errors `errs`, each a code and its condition, returns `r` rightly: 0 if no
condition holds, or the code of one that does. -/
def Documented (errs : List (Word × Prop)) (r : Word) : Prop :=
  (r = 0 ∧ ∀ err ∈ errs, ¬ err.2) ∨ ∃ err ∈ errs, err.2 ∧ r = err.1

def NoTable (k : Kernel) (e : EnvIx) (va : Word) : Prop :=
  ∃ d, k.dirs e = some d ∧ k.mem d (pdx va) &&& pteP = 0

def AllocNoMem (k : Kernel) (c : Cpu) (envid va : Word) : Prop :=
  k.pageFreeList = none ∨ ∃ e pp, envid2env k c envid true = some e ∧ NoTable k e va ∧
    k.pageFreeList = some pp ∧ k.ppLink pp = none

def pageAllocErrors (k : Kernel) (c : Cpu) (envid va perm : Word) : List (Word × Prop) :=
  [(-eBadEnv, envid2env k c envid true = none),
    (-eInval, utop ≤ va ∨ pgoff va ≠ 0),
    (-eInval, ¬ permOk perm),
    (-eNoMem, AllocNoMem k c envid va)]

def lookupIn (k : Kernel) (c : Cpu) (envid va : Word) : Option (Word × Word) := do
  let e ← envid2env k c envid true
  let d ← k.dirs e
  mmuWalk k.toPhys d va

def pageMapErrors (k : Kernel) (c : Cpu) (srcenvid srcva dstenvid dstva perm : Word) :
    List (Word × Prop) :=
  [(-eBadEnv, envid2env k c srcenvid true = none ∨ envid2env k c dstenvid true = none),
    (-eInval, utop ≤ srcva ∨ pgoff srcva ≠ 0 ∨ utop ≤ dstva ∨ pgoff dstva ≠ 0),
    (-eInval, lookupIn k c srcenvid srcva = none),
    (-eInval, ¬ permOk perm),
    (-eInval, perm &&& pteW ≠ 0 ∧ ∃ pde pte, lookupIn k c srcenvid srcva = some (pde, pte) ∧
      pte &&& pteW = 0),
    (-eNoMem, k.pageFreeList = none ∧ ∃ e, envid2env k c dstenvid true = some e ∧ NoTable k e dstva)]

def pageUnmapErrors (k : Kernel) (c : Cpu) (envid va : Word) : List (Word × Prop) :=
  [(-eBadEnv, envid2env k c envid true = none), (-eInval, utop ≤ va ∨ pgoff va ≠ 0)]

/-- `PTE_U` or `PTE_P` is missing: the case `sys_page_alloc` answers with `-E_BAD_ENV`. -/
def LacksUser (perm : Word) : Prop := perm &&& pteU = 0 ∨ perm &&& pteP = 0

/-- A bit is set that may not be: the case it answers with `-E_NO_MEM`. -/
def HasOther (perm : Word) : Prop := perm &&& ~~~(pteU ||| pteP ||| pteW ||| pteAvail) ≠ 0

def AllocFine (k : Kernel) (c : Cpu) (envid va perm : Word) : Prop :=
  utop ≤ va ∨ (LacksUser perm ∧ envid2env k c envid true = none) ∨
    (¬ LacksUser perm ∧ HasOther perm ∧ AllocNoMem k c envid va) ∨
    (¬ LacksUser perm ∧ ¬ HasOther perm ∧
      (pgoff va = 0 ∨ envid2env k c envid true = none ∨ AllocNoMem k c envid va))

theorem permOk_iff {perm : Word} : permOk perm ↔ ¬ LacksUser perm ∧ ¬ HasOther perm := by
  have hmask : pteU ||| pteP ||| pteW ||| pteAvail = pteSyscall := by decide
  rw [permOk, LacksUser, HasOther, hmask, not_or, not_not]
  tauto

section Insert

variable {m m' : Phys} {d pp : Nat} {va perm r : Word}

theorem pgdirWalk_true {place : Option (Nat × Nat)}
    (h : pgdirWalk m (some d) va true = some (m', place)) :
    place = none ↔ m.mem d (pdx va) &&& pteP = 0 ∧ m.pageFreeList = none := by
  rw [pgdirWalk, Option.bind_eq_bind, Option.bind_some] at h
  split at h
  · next hp =>
    rw [if_neg (by decide)] at h
    obtain ⟨⟨m₁, pg⟩, halloc, h⟩ := Option.bind_eq_some_iff.mp h
    cases pg with
    | none =>
      cases h
      exact ⟨fun _ => ⟨hp, (pageAlloc_eq_none halloc).2⟩, fun _ => rfl⟩
    | some pp =>
      obtain ⟨t, -, h⟩ := Option.bind_eq_some_iff.mp h
      cases h
      refine ⟨fun hx => (by cases hx), fun hfull => ?_⟩
      rw [pageAlloc, hfull.2] at halloc
      cases halloc
  · next hp =>
    obtain ⟨t, -, h⟩ := Option.bind_eq_some_iff.mp h
    cases h
    exact ⟨fun hx => (by cases hx), fun hfull => absurd hfull.1 hp⟩

theorem pageInsert_code (h : pageInsert m (some d) pp va perm = some (m', r)) :
    (r = -eNoMem ∧ m.mem d (pdx va) &&& pteP = 0 ∧ m.pageFreeList = none) ∨
      (r = 0 ∧ ¬ (m.mem d (pdx va) &&& pteP = 0 ∧ m.pageFreeList = none)) := by
  have hins := h
  obtain ⟨⟨m₁, place⟩, hwalk, h⟩ := Option.bind_eq_some_iff.mp h
  have hfull := pgdirWalk_true hwalk
  cases place with
  | none =>
    cases h
    exact .inl ⟨rfl, hfull.mp rfl⟩
  | some place =>
    exact .inr ⟨pageInsert_zero hwalk hins, fun hf => absurd (hfull.mpr hf) nofun⟩

theorem pageLookup_walk {found : Option (Nat × Nat × Nat)}
    (h : pageLookup m (some d) va = some found) :
    (found = none ∧ mmuWalk m d va = none) ∨
      ∃ pp t j, found = some (pp, t, j) ∧ ∃ pde, mmuWalk m d va = some (pde, m.mem t j) := by
  rw [pageLookup, pgdirWalk, Option.bind_eq_bind, Option.bind_eq_bind, Option.bind_some] at h
  by_cases hd : m.mem d (pdx va) &&& pteP = 0
  · rw [if_pos hd] at h
    cases h
    exact .inl ⟨rfl, by rw [mmuWalk, if_pos hd]⟩
  · rw [if_neg hd] at h
    obtain ⟨⟨m₁, place⟩, hplace, h⟩ := Option.bind_eq_some_iff.mp h
    obtain ⟨t, ht, hplace⟩ := Option.bind_eq_some_iff.mp hplace
    cases hplace
    have htab : pgnum (m.mem d (pdx va)) = t := by
      rw [kaddr] at ht
      split at ht
      · cases ht
      · rw [← Option.some.inj ht, pgnum_pteAddr]
    by_cases hp : m.mem t (ptx va) &&& pteP = 0
    · simp only [if_pos hp] at h
      cases h
      exact .inl ⟨rfl, by rw [mmuWalk, if_neg hd, htab, if_pos hp]⟩
    · simp only [if_neg hp] at h
      obtain ⟨pp, -, h⟩ := Option.bind_eq_some_iff.mp h
      cases h
      refine .inr ⟨pp, t, ptx va, rfl, m.mem d (pdx va), ?_⟩
      rw [mmuWalk, if_neg hd, htab, if_neg hp]

end Insert

section Codes

theorem documented_code {errs : List (Word × Prop)} {r : Word} (hr : r ≠ 0) :
    Documented errs r ↔ ∃ err ∈ errs, err.2 ∧ r = err.1 :=
  or_iff_right fun h => hr h.1

theorem documented_zero {errs : List (Word × Prop)} (hne : ∀ err ∈ errs, err.1 ≠ 0) :
    Documented errs 0 ↔ ∀ err ∈ errs, ¬ err.2 := by
  constructor
  · rintro (⟨-, h⟩ | ⟨err, hmem, -, h0⟩)
    · exact h
    · exact absurd h0.symm (hne err hmem)
  · exact fun h => .inl ⟨rfl, h⟩

variable {k k' : Kernel} {c : Cpu} {envid va perm r : Word} {ret : Ret}

theorem documented_alloc_badEnv : Documented (pageAllocErrors k c envid va perm) (-eBadEnv) ↔
    envid2env k c envid true = none := by
  rw [documented_code (by decide)]
  simp only [pageAllocErrors, List.mem_cons, List.not_mem_nil, or_false, exists_eq_or_imp,
    exists_eq_left, and_true, show (-eBadEnv : Word) ≠ -eInval by decide,
    show (-eBadEnv : Word) ≠ -eNoMem by decide, and_false]

theorem documented_alloc_noMem : Documented (pageAllocErrors k c envid va perm) (-eNoMem) ↔
    AllocNoMem k c envid va := by
  rw [documented_code (by decide)]
  simp only [pageAllocErrors, List.mem_cons, List.not_mem_nil, or_false, exists_eq_or_imp,
    exists_eq_left, and_true, show (-eNoMem : Word) ≠ -eInval by decide,
    show (-eNoMem : Word) ≠ -eBadEnv by decide, and_false, false_or]

theorem documented_alloc_zero : Documented (pageAllocErrors k c envid va perm) 0 ↔
    envid2env k c envid true ≠ none ∧ (va < utop ∧ pgoff va = 0) ∧ permOk perm ∧
      ¬ AllocNoMem k c envid va := by
  rw [documented_zero]
  · simp only [pageAllocErrors, List.forall_mem_cons, not_or, not_not, BitVec.not_le]
    simp
  · simp only [pageAllocErrors, List.forall_mem_cons]
    exact ⟨by decide, by decide, by decide, by decide, fun _ h => absurd h List.not_mem_nil⟩

theorem sysPageAlloc_documented (h : sysPageAlloc k c envid va perm = some (k', ret)) :
    ∃ r, ret = .ret r ∧
      (Documented (pageAllocErrors k c envid va perm) r ↔ AllocFine k c envid va perm) := by
  rw [sysPageAlloc] at h
  split_ifs at h with hva hlack hother
  · cases h
    refine ⟨_, rfl, iff_of_true (.inr ⟨(-eInval, utop ≤ va ∨ pgoff va ≠ 0), ?_, Or.inl hva, rfl⟩)
      (.inl hva)⟩
    simp only [pageAllocErrors, List.mem_cons, true_or, or_true]
  · cases h
    refine ⟨_, rfl, documented_alloc_badEnv.trans ?_⟩
    have hl : LacksUser perm := hlack
    simp only [AllocFine, hva, hl, not_true_eq_false, false_and, true_and, false_or, or_false]
  · cases h
    refine ⟨_, rfl, documented_alloc_noMem.trans ?_⟩
    have hl : ¬ LacksUser perm := hlack
    have ho : HasOther perm := hother
    simp only [AllocFine, hva, hl, ho, not_true_eq_false, not_false_eq_true, false_and, true_and,
      false_or, or_false]
  · have hl : ¬ LacksUser perm := hlack
    have ho : ¬ HasOther perm := hother
    have hfine : AllocFine k c envid va perm ↔
        (pgoff va = 0 ∨ envid2env k c envid true = none ∨ AllocNoMem k c envid va) := by
      simp only [AllocFine, hva, hl, ho, not_false_eq_true, false_and, true_and, false_or]
    rw [hfine]
    cases he : envid2env k c envid true with
    | none =>
      rw [he] at h
      cases h
      exact ⟨_, rfl, iff_of_true (documented_alloc_badEnv.mpr he) (.inr (.inl rfl))⟩
    | some e =>
      rw [he] at h
      obtain ⟨⟨m, pg⟩, halloc, h⟩ := Option.bind_eq_some_iff.mp h
      rcases pageAlloc_false halloc with ⟨rfl, hnone⟩ | ⟨pp, rfl, hfree, rfl⟩
      · cases h
        have hm : AllocNoMem k c envid va := .inl hnone
        exact ⟨_, rfl, iff_of_true (documented_alloc_noMem.mpr hm) (.inr (.inr hm))⟩
      · obtain ⟨⟨m', code⟩, hins, h⟩ := Option.bind_eq_some_iff.mp h
        obtain ⟨d, hd⟩ := pgdir_of_pageInsert hins
        rw [hd] at hins
        have hdir : k.dirs e = some d := hd
        rcases pageInsert_code hins with ⟨rfl, htab, hlast⟩ | ⟨rfl, hfull⟩
        · simp only [slt_neg_eNoMem, if_true] at h
          obtain ⟨m'', -, h⟩ := Option.bind_eq_some_iff.mp h
          cases h
          have hm : AllocNoMem k c envid va := .inr ⟨e, pp, he, ⟨d, hdir, htab⟩, hfree, hlast⟩
          exact ⟨_, rfl, iff_of_true (documented_alloc_noMem.mpr hm) (.inr (.inr hm))⟩
        · simp only [slt_zero, Bool.false_eq_true, if_false] at h
          obtain ⟨p, -, h⟩ := Option.bind_eq_some_iff.mp h
          cases h
          have hm : ¬ AllocNoMem k c envid va := by
            rintro (hnone | ⟨e', pp', he', ⟨d', hd', htab⟩, hl', hlast⟩)
            · rw [hfree] at hnone
              cases hnone
            · rw [he] at he'
              cases he'
              rw [hfree] at hl'
              cases hl'
              rw [hdir] at hd'
              cases hd'
              exact hfull ⟨htab, hlast⟩
          refine ⟨_, rfl, documented_alloc_zero.trans ?_⟩
          rw [he]
          simp only [hm, permOk_iff, hl, ho, BitVec.not_le.mp hva, not_false_eq_true, and_true,
            true_and, or_false, reduceCtorEq, ne_eq]

theorem documented_of_mem {errs : List (Word × Prop)} {P : Prop} {r : Word} (hmem : (r, P) ∈ errs)
    (hP : P) : Documented errs r :=
  .inr ⟨(r, P), hmem, hP, rfl⟩

theorem sysPageUnmap_documented (h : sysPageUnmap k c envid va = some (k', ret)) :
    ∃ r, ret = .ret r ∧ Documented (pageUnmapErrors k c envid va) r := by
  rw [sysPageUnmap] at h
  cases he : envid2env k c envid true with
  | none =>
    rw [he] at h
    cases h
    exact ⟨_, rfl, documented_of_mem List.mem_cons_self he⟩
  | some e =>
    rw [he] at h
    simp only at h
    split at h
    · next hva =>
      cases h
      exact ⟨_, rfl, documented_of_mem (List.mem_cons_of_mem _ List.mem_cons_self) hva⟩
    · next hva =>
      obtain ⟨m, -, h⟩ := Option.bind_eq_some_iff.mp h
      cases h
      refine ⟨_, rfl, .inl ⟨rfl, ?_⟩⟩
      simp only [pageUnmapErrors, List.forall_mem_cons, he, reduceCtorEq, not_false_eq_true, true_and]
      exact ⟨hva, List.forall_mem_nil _⟩

variable {srcenvid srcva dstenvid dstva : Word}

theorem sysPageMap_documented
    (h : sysPageMap k c srcenvid srcva dstenvid dstva perm = some (k', ret)) :
    ∃ r, ret = .ret r ∧
      Documented (pageMapErrors k c srcenvid srcva dstenvid dstva perm) r := by
  have hmem : ∀ {r : Word} {P : Prop}, (r, P) ∈ pageMapErrors k c srcenvid srcva dstenvid dstva perm →
      P → ∃ r', Ret.ret r = .ret r' ∧
        Documented (pageMapErrors k c srcenvid srcva dstenvid dstva perm) r' :=
    fun hin hP => ⟨_, rfl, documented_of_mem hin hP⟩
  rw [sysPageMap] at h
  split at h
  · next src dst hsrc hdst =>
    split_ifs at h with hargs hperm
    · cases h
      exact hmem (.tail _ (.head _)) hargs
    · cases h
      refine hmem (.tail _ (.tail _ (.tail _ (.head _)))) fun hok => ?_
      rw [permOk] at hok
      tauto
    · obtain ⟨found, hlook, h⟩ := Option.bind_eq_some_iff.mp h
      obtain ⟨d, hd⟩ := pgdir_of_pageLookup hlook
      rw [hd] at hlook
      have hlookup : lookupIn k c srcenvid srcva = mmuWalk k.toPhys d srcva := by
        rw [lookupIn, hsrc, Option.bind_eq_bind, Option.bind_some, Option.bind_eq_bind,
          show k.dirs src = some d from hd, Option.bind_some]
      rcases pageLookup_walk hlook with ⟨rfl, hwalk⟩ | ⟨pp, t, j, rfl, pde, hwalk⟩
      · cases h
        exact hmem (.tail _ (.tail _ (.head _))) (hlookup.trans hwalk)
      · simp only at h
        split at h
        · next hw =>
          cases h
          exact hmem (.tail _ (.tail _ (.tail _ (.tail _ (.head _)))))
            ⟨hw.1, pde, _, hlookup.trans hwalk, hw.2⟩
        · next hw =>
          obtain ⟨⟨m', code⟩, hins, h⟩ := Option.bind_eq_some_iff.mp h
          cases h
          obtain ⟨d', hd'⟩ := pgdir_of_pageInsert hins
          rw [hd'] at hins
          have hdir : k.dirs dst = some d' := hd'
          rcases pageInsert_code hins with ⟨rfl, htab, hfree⟩ | ⟨rfl, hfull⟩
          · exact hmem (.tail _ (.tail _ (.tail _ (.tail _ (.tail _ (.head _))))))
              ⟨hfree, dst, hdst, d', hdir, htab⟩
          · have hok : permOk perm := by
              rw [permOk]
              tauto
            refine ⟨_, rfl, .inl ⟨rfl, ?_⟩⟩
            simp only [pageMapErrors, List.forall_mem_cons, hsrc, hdst, hlookup, hwalk, hok,
              reduceCtorEq, or_self, not_false_eq_true, true_and, not_true_eq_false]
            refine ⟨hargs, ?_, ?_, List.forall_mem_nil _⟩
            · rintro ⟨hW, pde', pte, hsame, hz⟩
              cases hsame
              exact hw ⟨hW, hz⟩
            · rintro ⟨hfree, e, he, d'', hd'', htab⟩
              cases he
              rw [hdir] at hd''
              cases hd''
              exact hfull ⟨htab, hfree⟩
  · next hno =>
    cases h
    refine hmem (.head _) ?_
    cases hs : envid2env k c srcenvid true with
    | none => exact .inl rfl
    | some src =>
      cases hd : envid2env k c dstenvid true with
      | none => exact .inr rfl
      | some dst => exact absurd hd (hno src dst hs)

end Codes

namespace Sound

variable {b : Base} {k : Kernel} {c : Cpu} {e : EnvIx} {envid va perm : Word}

theorem dir_of_live (h : Sound b k) (hl : IdleList k) (he : k.status e ≠ .free) :
    ∃ d, k.dirs e = some d := by
  obtain ⟨l, hchain, hmem⟩ := h.list
  obtain ⟨l', hchain', hfree⟩ := hl
  obtain rfl := hchain.unique hchain'
  exact Option.ne_none_iff_exists'.mp fun hd => he (hfree e ((hmem e).mpr hd))

variable (h : Sound b k) (hc : Counted k) (hl : IdleList k)
  (hcur : ∀ e, k.curenv c = some e → k.status e ≠ .free)

include h hl hcur

theorem envid2env_dir (he : envid2env k c envid true = some e) : ∃ d, k.dirs e = some d :=
  h.dir_of_live hl (envid2env_status he hcur)

include hc

theorem sysPageUnmap_some (envid va : Word) : ∃ s, Kern.sysPageUnmap k c envid va = some s := by
  rw [Kern.sysPageUnmap]
  split
  · exact ⟨_, rfl⟩
  · next e he =>
    split
    · exact ⟨_, rfl⟩
    · next hva =>
      obtain ⟨d, hd⟩ := h.envid2env_dir hl hcur he
      obtain ⟨l, hsp⟩ := h.spaces
      have hlt : va < utop := BitVec.not_le.mp fun hle => hva (.inl hle)
      obtain ⟨m', l', heq, -⟩ := hsp.pageRemove hd hlt fun q _ => hc.le q
      rw [show (k.envs e).envPgdir = some d from hd, heq]
      exact ⟨_, rfl⟩

theorem sysPageMap_some (srcenvid srcva dstenvid dstva perm : Word) :
    ∃ s, Kern.sysPageMap k c srcenvid srcva dstenvid dstva perm = some s := by
  rw [Kern.sysPageMap]
  split
  · next src dst hsrc hdst =>
    split_ifs with hargs hperm
    · exact ⟨_, rfl⟩
    · exact ⟨_, rfl⟩
    · obtain ⟨d, hd⟩ := h.envid2env_dir hl hcur hsrc
      obtain ⟨d', hd'⟩ := h.envid2env_dir hl hcur hdst
      obtain ⟨l, hsp⟩ := h.spaces
      have hs : srcva < utop := BitVec.not_le.mp fun hle => hargs (.inl hle)
      have ht : dstva < utop := BitVec.not_le.mp fun hle => hargs (.inr (.inr (.inl hle)))
      have hok : permOk perm := by
        rw [permOk]
        tauto
      rw [show (k.envs src).envPgdir = some d from hd, show (k.envs dst).envPgdir = some d' from hd']
      cases hq : target k.toPhys k.dirs (.pte src (dirIx srcva hs) (tabIx srcva)) with
      | none =>
        rw [hsp.shape.pageLookup_none hd hs hq]
        exact ⟨_, rfl⟩
      | some pp =>
        obtain ⟨t, -, hlook⟩ := hsp.shape.pageLookup_some hd hs hq (hsp.free.balanced.target_mem hq)
        rw [hlook]
        simp only [Option.bind_eq_bind, Option.bind_some]
        split
        · exact ⟨_, rfl⟩
        · rcases hsp.share hd' ht hq hok hc with ⟨-, heq⟩ | ⟨m', l', heq, -⟩
          · rw [heq]
            exact ⟨_, rfl⟩
          · rw [heq]
            exact ⟨_, rfl⟩
  · exact ⟨_, rfl⟩

theorem sysPageAlloc_some (envid va perm : Word) :
    ∃ s, Kern.sysPageAlloc k c envid va perm = some s := by
  rw [Kern.sysPageAlloc]
  split_ifs with hva hlack hother
  · exact ⟨_, rfl⟩
  · exact ⟨_, rfl⟩
  · exact ⟨_, rfl⟩
  · split
    · exact ⟨_, rfl⟩
    · next e he =>
      obtain ⟨d, hd⟩ := h.envid2env_dir hl hcur he
      obtain ⟨l, hsp⟩ := h.spaces
      have hok : permOk perm := permOk_iff.mpr ⟨hlack, hother⟩
      cases l with
      | nil =>
        rw [hsp.pageAlloc_nil]
        exact ⟨_, rfl⟩
      | cons pp l =>
        have hun := hsp.unlink
        have hpool := hsp.free.mem_pool_of_head.1
        have hnl := (List.nodup_cons.mp hsp.free.chain.nodup).1
        have hpp := hsp.free.target_ne List.mem_cons_self
        rw [hsp.pageAlloc_cons, show (k.envs e).envPgdir = some d from hd]
        simp only [Option.bind_eq_bind, Option.bind_some, Bool.false_eq_true, if_false]
        rcases hun.pageInsert hd (BitVec.not_le.mp hva) hpool hnl (fun r _ => hpp r) hok.lt hok.2.1
          (fun q _ => hc q) with ⟨rfl, -, heq⟩ | ⟨m', l', heq, hsp', -, -⟩
        · obtain ⟨hfree, -⟩ := hun.free.pageFree (Set.mem_insert pp ∅)
          rw [heq, Option.bind_some]
          simp only [slt_neg_eNoMem, if_true, hfree, Option.bind_some]
          exact ⟨_, rfl⟩
        · have hk : m'.page2kva pp = some pp :=
            page2kva_eq (hsp'.shape.lt_npages hpool) hsp'.shape.npages_le
          rw [heq, Option.bind_some]
          simp only [slt_zero, Bool.false_eq_true, if_false, hk, Option.bind_some]
          exact ⟨_, rfl⟩

end Sound

/-- In any state whatever, a call that returns has the result its comment gives it, but for
`sys_page_alloc` with arguments that are not `AllocFine`; and the kernel does not panic in a call
when its invariant holds. -/
theorem pageCalls_documented (k : Kernel) (c : Cpu) :
    (∀ envid va perm k' ret, sysPageAlloc k c envid va perm = some (k', ret) → ∃ r, ret = .ret r ∧
      (Documented (pageAllocErrors k c envid va perm) r ↔ AllocFine k c envid va perm)) ∧
    (∀ srcenvid srcva dstenvid dstva perm k' ret,
      sysPageMap k c srcenvid srcva dstenvid dstva perm = some (k', ret) → ∃ r, ret = .ret r ∧
        Documented (pageMapErrors k c srcenvid srcva dstenvid dstva perm) r) ∧
    (∀ envid va k' ret, sysPageUnmap k c envid va = some (k', ret) → ∃ r, ret = .ret r ∧
      Documented (pageUnmapErrors k c envid va) r) ∧
    ∀ b, Sound b k → Counted k → IdleList k → (∀ e, k.curenv c = some e → k.status e ≠ .free) →
      (∀ envid va perm, ∃ s, sysPageAlloc k c envid va perm = some s) ∧
      (∀ srcenvid srcva dstenvid dstva perm,
        ∃ s, sysPageMap k c srcenvid srcva dstenvid dstva perm = some s) ∧
      ∀ envid va, ∃ s, sysPageUnmap k c envid va = some s :=
  ⟨fun _ _ _ _ _ => sysPageAlloc_documented, fun _ _ _ _ _ _ _ => sysPageMap_documented,
    fun _ _ _ _ => sysPageUnmap_documented, fun _ h hc hl hcur =>
      ⟨h.sysPageAlloc_some hc hl hcur, h.sysPageMap_some hc hl hcur, h.sysPageUnmap_some hc hl hcur⟩⟩

theorem demo_running : ∃ b k₀ k, Booted demo (List.replicate 1 idleProg) k₀ ∧
    step k₀ (.start bootcpu) = some k ∧ Sound b k ∧ Counted k ∧ Dispatched k ∧
      k.curenv bootcpu = some env0 ∧ (k.envs env0).envPgfaultUpcall = 0 := by
  obtain ⟨k₀, s, m, l₀, hm, l, hb, hs, -⟩ := demo_booted (n := 1) (by decide)
  obtain ⟨k, hst, hsame⟩ := hs.start (by decide) (by decide)
  have hpage : PageStep k₀ (.start bootcpu) := trivial
  have hdisc : Disciplined k₀ (.start bootcpu) := trivial
  refine ⟨hm.base, k₀, k, hb, hst, hs.sound.pageStep hs.counted hpage hst, ?_,
    (hs.dispatched.step hdisc hst).1, ?_, ?_⟩
  · exact hs.counted.congr (hsame.toPhys_eq.trans (dispatch_rest k₀ bootcpu env0).1)
      (hsame.dirs_eq.trans (dispatch_dirs k₀ bootcpu env0))
  · rw [hsame.curenv_eq, dispatch_curenv, if_pos rfl]
  · obtain ⟨tf, runs, cpu, henv⟩ := hsame.envs_eq env0
    obtain ⟨⟨tf₀, ty, d, link, hnew⟩, -⟩ := hs.created (e := env0) (by decide)
    rw [henv, dispatch_field Env.envPgfaultUpcall fun _ _ => rfl, hnew]
    rfl

theorem pageCalls_documented_demo : ∃ k₀ k k' r, Booted demo (List.replicate 1 idleProg) k₀ ∧
    step k₀ (.start bootcpu) = some k ∧ sysPageAlloc k bootcpu 0 0 7 = some (k', .ret r) ∧
      Documented (pageAllocErrors k bootcpu 0 0 7) r := by
  obtain ⟨b, k₀, k, hb, hst, hs, hc, hd, -, -⟩ := demo_running
  obtain ⟨halloc, -, -, hsome⟩ := pageCalls_documented k bootcpu
  obtain ⟨⟨k', ret⟩, hcall⟩ := (hsome b hs hc hd.list fun e => hd.status_ne_free).1 0 0 7
  obtain ⟨r, rfl, hdoc⟩ := halloc 0 0 7 k' ret hcall
  exact ⟨k₀, k, k', r, hb, hst, hcall, hdoc.mpr (.inr (.inr (.inr
    ⟨by rw [LacksUser]; decide, by rw [HasOther]; decide, .inl (by decide)⟩)))⟩

/-- Asked for a page without `PTE_U` and `PTE_P` it is told that it does not exist itself. -/
theorem pageAlloc_undocumented : ∃ k₀ k, Booted demo (List.replicate 1 idleProg) k₀ ∧
    step k₀ (.start bootcpu) = some k ∧ k.curenv bootcpu = some env0 ∧
      sysPageAlloc k bootcpu 0 0 0 = some (k, .ret (-eBadEnv)) ∧
      ¬ Documented (pageAllocErrors k bootcpu 0 0 0) (-eBadEnv) := by
  obtain ⟨b, k₀, k, hb, hst, -, -, -, hcur, -⟩ := demo_running
  refine ⟨k₀, k, hb, hst, hcur, ?_, fun hdoc => ?_⟩
  · rw [sysPageAlloc, if_neg (by decide), if_pos (.inl (by decide))]
  · have hnone := documented_alloc_badEnv.mp hdoc
    rw [envid2env, if_pos rfl, hcur] at hnone
    cases hnone

end Jos.Kern
