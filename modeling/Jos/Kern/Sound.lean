import Jos.Kern.Switch
import Jos.Kern.VmSpec
import Jos.Kern.WriteSpec

/-! The memory invariant of the whole kernel, and that every system call keeps it. -/

namespace Jos.Kern

open Lib Phys Kernel

/-- The address spaces are in order, and so is the list of free environments: on it are
exactly those without a page directory. -/
structure Sound (b : Base) (k : Kernel) : Prop where
  kern_eq : k.kernPgdir = b.kern
  spaces : ∃ l, Spaces b k.toPhys k.dirs ∅ l
  list : ∃ l, Chain (fun e => (k.envs e).envLink) k.envFreeList l ∧ ∀ e, e ∈ l ↔ k.dirs e = none
  free : ∀ {e}, k.status e = .free → k.dirs e = none

/-- No page has more references than `pp_ref` can count. -/
def Counted (k : Kernel) : Prop := ∀ p, refCount (target k.toPhys k.dirs) p ≤ 65535

theorem Counted.le {k : Kernel} (h : Counted k) (p : Nat) :
    refCount (target k.toPhys k.dirs) p ≤ 65536 :=
  Nat.le_succ_of_le (h p)

namespace Sound

variable {b : Base} {k k' : Kernel} {m : Phys} {l : List Nat} {e cur : EnvIx} {c : Cpu}

theorem setEnv (h : Sound b k) {v : Env} (hpg : v.envPgdir = (k.envs e).envPgdir)
    (hl : v.envLink = (k.envs e).envLink) (hst : v.envStatus = .free → k.dirs e = none) :
    Sound b (k.setEnv e v) := by
  have hdirs := dirs_setEnv (k := k) hpg
  refine ⟨h.kern_eq, ?_, ?_, ?_⟩
  · rw [hdirs]
    exact h.spaces
  · have hlink : (fun e' => ((k.setEnv e v).envs e').envLink) = fun e' => (k.envs e').envLink :=
      funext (envs_setEnv_field Env.envLink k e hl)
    rw [hlink, hdirs]
    exact h.list
  · intro e' he'
    rw [hdirs]
    by_cases hee : e' = e
    · subst hee
      rw [status, envs_setEnv_self] at he'
      exact hst he'
    · rw [status, envs_setEnv_of_ne k v hee] at he'
      exact h.free he'

theorem phys (h : Sound b k) (hm : Spaces b m k.dirs ∅ l) : Sound b { k with toPhys := m } :=
  ⟨h.kern_eq, ⟨l, hm⟩, h.list, h.free⟩

theorem setStatus (h : Sound b k) {st : EnvStatus} (hst : st ≠ .free) :
    Sound b (k.setStatus e st) :=
  h.setEnv rfl rfl fun hf => absurd hf hst

theorem frame (h : Sound b k) (tf : Trapframe) :
    Sound b (k.setEnv e { k.envs e with envTf := tf }) :=
  h.setEnv rfl rfl fun hf => h.free hf

end Sound

theorem Sound.congr {b : Base} {k k' : Kernel} (h : Sound b k) (hp : k'.toPhys = k.toPhys)
    (hk : k'.kernPgdir = k.kernPgdir) (he : k'.envs = k.envs)
    (hl : k'.envFreeList = k.envFreeList) : Sound b k' := by
  have hdirs : k'.dirs = k.dirs := by
    funext e
    rw [dirs, dirs, he]
  refine ⟨hk.trans h.kern_eq, ?_, ?_, ?_⟩
  · rw [hp, hdirs]
    exact h.spaces
  · rw [he, hl, hdirs]
    exact h.list
  · intro e hst
    rw [hdirs]
    rw [status, he] at hst
    exact h.free hst

theorem slt_neg_eNoMem : (-eNoMem).slt 0 = true := by decide

theorem slt_zero : (0 : Word).slt 0 = false := by decide

section

variable {m m' : Phys} {pgdir : Option Nat} {pp : Nat} {va perm r : Word}

theorem pageAlloc_eq_none {zero : Bool} (h : pageAlloc m zero = some (m', none)) :
    m' = m ∧ m.pageFreeList = none := by
  rw [pageAlloc] at h
  split at h
  · next hl =>
    cases h
    exact ⟨rfl, hl⟩
  · split at h
    · obtain ⟨p, -, h⟩ := Option.bind_eq_some_iff.1 h
      cases h
    · cases h

theorem pageAlloc_false {pg : Option Nat} (h : pageAlloc m false = some (m', pg)) :
    (pg = none ∧ m.pageFreeList = none) ∨
      ∃ pp, pg = some pp ∧ m.pageFreeList = some pp ∧ m' = m.unlink pp := by
  rw [pageAlloc] at h
  split at h
  · next hl =>
    cases h
    exact .inl ⟨rfl, hl⟩
  · next pp hl =>
    cases h
    exact .inr ⟨pp, rfl, hl, rfl⟩

theorem pgdirWalk_eq_none (h : pgdirWalk m pgdir va true = some (m', none)) :
    m' = m ∧ m.pageFreeList = none := by
  obtain ⟨d, -, h⟩ := Option.bind_eq_some_iff.1 h
  split at h
  · rw [if_neg (by decide)] at h
    obtain ⟨⟨m₁, pp⟩, halloc, h⟩ := Option.bind_eq_some_iff.1 h
    cases pp with
    | none =>
      cases h
      exact pageAlloc_eq_none halloc
    | some pp =>
      obtain ⟨t, -, h⟩ := Option.bind_eq_some_iff.1 h
      cases h
  · obtain ⟨t, -, h⟩ := Option.bind_eq_some_iff.1 h
    cases h

theorem pageInsert_zero {place : Nat × Nat} {m₁ : Phys}
    (hwalk : pgdirWalk m pgdir va true = some (m₁, some place))
    (h : pageInsert m pgdir pp va perm = some (m', r)) : r = 0 := by
  rw [pageInsert, hwalk, Option.bind_eq_bind, Option.bind_some] at h
  simp only at h
  split at h
  · obtain ⟨m₂, -, h⟩ := Option.bind_eq_some_iff.1 h
    cases h
    rfl
  · cases h
    rfl

theorem pageInsert_neg (h : pageInsert m pgdir pp va perm = some (m', r)) (hr : r.slt 0 = true) :
    m' = m ∧ m.pageFreeList = none := by
  have hins := h
  obtain ⟨⟨m₁, place⟩, hwalk, h⟩ := Option.bind_eq_some_iff.1 h
  cases place with
  | none =>
    cases h
    exact pgdirWalk_eq_none hwalk
  | some place =>
    rw [pageInsert_zero hwalk hins, slt_zero] at hr
    cases hr

end

section

variable {b : Base} {m m' : Phys} {ds : Dirs} {out : Set Nat} {l : List Nat}
  {e src : EnvIx} {d pp t j : Nat} {va perm : Word}

theorem pgdir_of_pageInsert {pgdir : Option Nat} {r : Phys × Word}
    (h : pageInsert m pgdir pp va perm = some r) : ∃ d, pgdir = some d := by
  cases pgdir with
  | none => simp [pageInsert, pgdirWalk] at h
  | some d => exact ⟨d, rfl⟩

theorem pgdir_of_pageLookup {pgdir : Option Nat} {r : Option (Nat × Nat × Nat)}
    (h : pageLookup m pgdir va = some r) : ∃ d, pgdir = some d := by
  cases pgdir with
  | none => simp [pageLookup, pgdirWalk] at h
  | some d => exact ⟨d, rfl⟩

theorem pgdir_of_pageRemove {pgdir : Option Nat} {m' : Phys}
    (h : pageRemove m pgdir va = some m') : ∃ d, pgdir = some d := by
  cases pgdir with
  | none => simp [pageRemove, pageLookup, pgdirWalk] at h
  | some d => exact ⟨d, rfl⟩

theorem Spaces.pageAlloc_inv (h : Spaces b m ds out l) {m' : Phys}
    (halloc : pageAlloc m false = some (m', some pp)) : ∃ l', l = pp :: l' ∧ m' = m.unlink pp := by
  cases l with
  | nil =>
    rw [h.pageAlloc_nil] at halloc
    cases halloc
  | cons q l =>
    rw [h.pageAlloc_cons] at halloc
    cases halloc
    exact ⟨l, rfl, rfl⟩

theorem Spaces.pageLookup_inv (h : Spaces b m ds out l) (hd : ds e = some d) (hva : va < utop)
    (hlook : pageLookup m (some d) va = some (some (pp, t, j))) :
    target m ds (.pte e (dirIx va hva) (tabIx va)) = some pp ∧
      m.mem t j = entry m ds e (dirIx va hva) (tabIx va) := by
  cases hq : target m ds (.pte e (dirIx va hva) (tabIx va)) with
  | none =>
    rw [h.shape.pageLookup_none hd hva hq] at hlook
    cases hlook
  | some q =>
    obtain ⟨t', ht, heq⟩ := h.shape.pageLookup_some hd hva hq (h.free.balanced.target_mem hq)
    rw [heq] at hlook
    cases hlook
    exact ⟨rfl, (entry_eq_mem ht (tabIx va)).symm⟩

theorem Spaces.share (h : Spaces b m ds ∅ l) (hd : ds e = some d) (hva : va < utop)
    {i : Pdx} {j : Ptx} (hpp : target m ds (.pte src i j) = some pp) (hperm : permOk perm)
    (hle : ∀ q, refCount (target m ds) q ≤ 65535) :
    (l = [] ∧ Kern.pageInsert m (some d) pp va perm = some (m, -eNoMem)) ∨
    ∃ m' l', Kern.pageInsert m (some d) pp va perm = some (m', 0) ∧ Spaces b m' ds ∅ l' ∧
      Spaces.Inserted m m' ds e (dirIx va hva) (tabIx va) pp (page2pa pp ||| perm ||| pteP) l := by
  obtain ⟨hpool, hs⟩ := h.data_page hpp
  rcases h.pageInsert hd hva hpool (h.free.balanced.notMem_free hpp) hs hperm.lt hperm.2.1
    (fun q _ => hle q) with ⟨hl, -, heq⟩ | ⟨m', l', heq, hsp, -, hins⟩
  · exact .inl ⟨hl, heq⟩
  · rw [Set.empty_sdiff] at hsp
    exact .inr ⟨m', l', heq, hsp, hins⟩

end

def Maps (k k' : Kernel) (e : EnvIx) (va : Word) (hva : va < utop) (w : Word) : Prop :=
  ∀ e' i j, entry k'.toPhys k'.dirs e' i j =
    if e' = e ∧ i = dirIx va hva ∧ j = tabIx va then w else entry k.toPhys k.dirs e' i j

structure Fresh (k k' : Kernel) (pp : Nat) : Prop where
  free : ∃ l, Chain k.ppLink k.pageFreeList l ∧ pp ∈ l
  unmapped : ∀ r, target k.toPhys k.dirs r ≠ some pp
  zero : ∀ i, k'.mem pp i = 0

namespace Sound

variable {b : Base} {k k' : Kernel} {m : Phys} {l : List Nat} {e cur : EnvIx} {c : Cpu}
  {ret : Ret}

theorem sysPageUnmap (h : Sound b k) (hc : Counted k) {envid va r : Word}
    (hcall : sysPageUnmap k c envid va = some (k', .ret r)) :
    Sound b k' ∧ (r.slt 0 = false → ∃ e hva, envid2env k c envid true = some e ∧ Maps k k' e va hva 0) := by
  cases sysPageUnmap_step hcall with
  | refused hr => exact ⟨h, fun hr' => absurd (hr.symm.trans hr') (by decide)⟩
  | @removed e m he hva hrem =>
    obtain ⟨l, hsp⟩ := h.spaces
    obtain ⟨d, hd⟩ := pgdir_of_pageRemove hrem
    obtain ⟨m', l', heq, hsp', -, -, -, hent⟩ := hsp.pageRemove hd hva fun q _ => hc.le q
    rw [hd, heq] at hrem
    cases hrem
    exact ⟨h.phys hsp', fun _ => ⟨e, hva, he, hent⟩⟩

theorem sysPageMap (h : Sound b k) (hc : Counted k)
    {srcenvid srcva dstenvid dstva perm r : Word}
    (hcall : sysPageMap k c srcenvid srcva dstenvid dstva perm = some (k', .ret r)) :
    Sound b k' ∧ (r.slt 0 = false → ∃ src dst pp, ∃ hsrc : srcva < utop, ∃ hdst : dstva < utop,
      envid2env k c srcenvid true = some src ∧ envid2env k c dstenvid true = some dst ∧ permOk perm ∧
      target k.toPhys k.dirs (.pte src (dirIx srcva hsrc) (tabIx srcva)) = some pp ∧
      (perm &&& pteW ≠ 0 →
        entry k.toPhys k.dirs src (dirIx srcva hsrc) (tabIx srcva) &&& pteW ≠ 0) ∧
      Maps k k' dst dstva hdst (page2pa pp ||| perm ||| pteP)) := by
  cases sysPageMap_step hcall with
  | refused hr => exact ⟨h, fun hr' => absurd (hr.symm.trans hr') (by decide)⟩
  | @inserted src dst pp t j m r hsrcenv hdstenv hsrc hdst hperm hlook hw hins =>
    obtain ⟨l, hsp⟩ := h.spaces
    obtain ⟨d, hd⟩ := pgdir_of_pageLookup hlook
    obtain ⟨d', hd'⟩ := pgdir_of_pageInsert hins
    rw [hd] at hlook
    rw [hd'] at hins
    obtain ⟨hpp, hentry⟩ := hsp.pageLookup_inv hd hsrc hlook
    rcases hsp.share hd' hdst hpp hperm hc with ⟨-, heq⟩ | ⟨m', l', heq, hsp', hins'⟩
    · rw [heq] at hins
      cases hins
      refine ⟨h.phys hsp, fun hr => ?_⟩
      rw [if_pos slt_neg_eNoMem, slt_neg_eNoMem] at hr
      cases hr
    · rw [heq] at hins
      cases hins
      refine ⟨h.phys hsp', fun _ => ⟨src, dst, pp, hsrc, hdst, hsrcenv, hdstenv, hperm, hpp,
        fun hW => ?_, hins'.entry_eq⟩⟩
      rw [← hentry]
      exact fun hz => hw ⟨hW, hz⟩

theorem sysPageAlloc (h : Sound b k) (hc : Counted k) {envid va perm r : Word}
    (hcall : sysPageAlloc k c envid va perm = some (k', .ret r)) :
    Sound b k' ∧ (r.slt 0 = false → ∃ e pp, ∃ hva : va < utop, envid2env k c envid true = some e ∧
      permOk perm ∧ pp < 2 ^ 20 ∧ Fresh k k' pp ∧
      Maps k k' e va hva (page2pa pp ||| perm ||| pteP)) := by
  cases sysPageAlloc_step hcall with
  | refused hr => exact ⟨h, fun hr' => absurd (hr.symm.trans hr') (by decide)⟩
  | empty halloc =>
    rw [(pageAlloc_eq_none halloc).1]
    exact ⟨h, fun hr => absurd hr (by decide)⟩
  | @noTable e pp m m₁ m₂ r halloc hins hneg hfree =>
    obtain ⟨l, hsp⟩ := h.spaces
    obtain ⟨l, rfl, rfl⟩ := hsp.pageAlloc_inv halloc
    obtain ⟨rfl, -⟩ := pageInsert_neg hins hneg
    obtain ⟨heq, hfree'⟩ := hsp.unlink.free.pageFree (Set.mem_insert pp ∅)
    rw [heq] at hfree
    cases hfree
    rw [Set.insert_sdiff_self_of_notMem (Set.notMem_empty pp)] at hfree'
    exact ⟨h.phys ⟨hsp.unlink.shape.congr rfl rfl, hfree'⟩, fun hr => absurd hr (by decide)⟩
  | @mapped e pp m m₁ p r he hva hperm halloc hins hpos hk =>
    obtain ⟨l, hsp⟩ := h.spaces
    obtain ⟨l, rfl, rfl⟩ := hsp.pageAlloc_inv halloc
    obtain ⟨d, hd⟩ := pgdir_of_pageInsert hins
    rw [hd] at hins
    obtain ⟨hpool, -⟩ := hsp.free.mem_pool_of_head
    have hnl := (List.nodup_cons.1 hsp.free.chain.nodup).1
    have hpp := hsp.free.target_ne List.mem_cons_self
    rcases hsp.unlink.pageInsert hd hva hpool hnl (fun r _ => hpp r) hperm.lt hperm.2.1
      (fun q _ => hc q) with ⟨-, -, heq⟩ | ⟨m', l', heq, hsp', -, hins'⟩
    · rw [heq] at hins
      cases hins
      rw [slt_neg_eNoMem] at hpos
      cases hpos
    · rw [heq] at hins
      cases hins
      rw [page2kva_eq (hsp'.shape.lt_npages hpool) hsp'.shape.npages_le] at hk
      cases hk
      rw [Set.insert_sdiff_self_of_notMem (Set.notMem_empty pp)] at hsp'
      obtain ⟨f, -, htgt⟩ := hins'.target_eq
      have hpte : target m₁ k.dirs (.pte e (dirIx va hva) (tabIx va)) = some pp := by
        rw [htgt, Function.update_self]
      have hdata := hsp'.setPage_data hpte fun _ => 0
      refine ⟨h.phys hdata.spaces, fun _ => ⟨e, pp, hva, he, hperm, b.lt hpool,
        ⟨⟨_, hsp.free.chain, List.mem_cons_self⟩, hpp, mem_clear_self m₁ pp⟩, ?_⟩⟩
      intro e' i j
      exact (congrFun (congrFun (congrFun hdata.entry_eq e') i) j).trans (hins'.entry_eq e' i j)

theorem allocated (h : Sound b k) {parentId : Word} (ha : Allocated k parentId e k') :
    Sound b k' ∧ entry k'.toPhys k'.dirs = entry k.toPhys k.dirs := by
  obtain ⟨le, hchain, hle⟩ := h.list
  obtain ⟨l, hsp⟩ := h.spaces
  obtain ⟨d, hvm, hd⟩ := ha.vm
  rw [ha.head] at hchain
  cases hchain with
  | @cons _ le hchain =>
    have hel : e ∉ le := (List.nodup_cons.1 (Chain.cons hchain).nodup).1
    have he : k.dirs e = none := (hle e).1 List.mem_cons_self
    have hdirs : k'.dirs = Function.update k.dirs e (some d) := by
      funext e'
      by_cases hee : e' = e
      · subst hee
        rw [hd, Function.update_self]
      · rw [Function.update_of_ne hee, dirs, ha.envs_eq hee, dirs]
    have hlink : (fun e' => (k'.envs e').envLink) = fun e' => (k.envs e').envLink := by
      funext e'
      by_cases hee : e' = e
      · subst hee
        obtain ⟨_, henv⟩ := ha.envs_self
        rw [henv]
      · rw [ha.envs_eq hee]
    rw [h.kern_eq] at hvm
    have hnew : (∃ l, Spaces b k'.toPhys k'.dirs ∅ l) ∧
        entry k'.toPhys k'.dirs = entry k.toPhys k.dirs := by
      cases l with
      | nil =>
        rw [hsp.envSetupVm_nil] at hvm
        have hnone := (Prod.mk.inj (Option.some.inj hvm)).2
        cases hnone
      | cons pp l =>
        obtain ⟨m', heq, hsp', -, hent⟩ := hsp.envSetupVm_cons he
        rw [heq] at hvm
        obtain ⟨hm, hpp⟩ := Prod.mk.inj (Option.some.inj hvm)
        cases hpp
        rw [hdirs, ← hm]
        exact ⟨⟨l, hsp'⟩, hent⟩
    refine ⟨⟨ha.kernPgdir_eq.trans h.kern_eq, hnew.1, ⟨le, ?_, ?_⟩, ?_⟩, hnew.2⟩
    · rw [hlink, ha.freeList_eq]
      exact hchain
    · intro e'
      rw [hdirs]
      by_cases hee : e' = e
      · subst hee
        simp [hel]
      · rw [Function.update_of_ne hee, ← hle e', List.mem_cons, or_iff_right hee]
    · intro e' hst
      by_cases hee : e' = e
      · subst hee
        obtain ⟨_, henv⟩ := ha.envs_self
        rw [status, henv] at hst
        cases hst
      · rw [status, ha.envs_eq hee] at hst
        rw [hdirs, Function.update_of_ne hee]
        exact h.free hst

theorem noMemory (h : Sound b k) (hvm : envSetupVm k.toPhys k.kernPgdir = some (m, none)) :
    Sound b { k with toPhys := m } := by
  obtain ⟨l, hsp⟩ := h.spaces
  rw [h.kern_eq] at hvm
  cases l with
  | nil =>
    rw [hsp.envSetupVm_nil] at hvm
    cases hvm
    exact h.phys hsp
  | cons pp l =>
    -- with a page left `env_setup_vm` does not fail
    have hk : ((k.toPhys.unlink pp).clear pp).page2kva pp = some pp :=
      page2kva_eq (hsp.shape.lt_npages hsp.free.mem_pool_of_head.1) hsp.shape.npages_le
    rw [envSetupVm, hsp.pageAlloc_cons true] at hvm
    simp [hk] at hvm

theorem sysExofork (h : Sound b k) {r : Word} (hcall : sysExofork k cur = some (k', .ret r)) :
    Sound b k' := by
  rcases sysExofork_cases hcall with (rfl | ⟨m, hvm, rfl⟩) | ⟨e, k₁, tf, ha, -, rfl⟩
  · exact h
  · exact h.noMemory hvm
  · exact (h.allocated ha).1.setEnv rfl rfl (by rintro ⟨⟩)

theorem freed (h : Sound b k) (hc : ∀ q, refCount (target k.toPhys k.dirs) q ≤ 65536)
    (hf : Freed k c e k') :
    Sound b k' ∧
      (∀ {r p}, target k'.toPhys k'.dirs r = some p → target k.toPhys k.dirs r = some p) ∧
      ∀ {e'}, e' ≠ e → entry k'.toPhys k'.dirs e' = entry k.toPhys k.dirs e' := by
  obtain ⟨le, hchain, hle⟩ := h.list
  obtain ⟨l, hsp⟩ := h.spaces
  obtain ⟨d, hd, hvm⟩ := hf.vm
  obtain ⟨m', l', heq, hsp', hfewer, -, hent, -⟩ := hsp.envFreeVm hd hc
  rw [heq] at hvm
  have hm : m' = k'.toPhys := Option.some.inj hvm
  have hel : e ∉ le := by
    rw [hle, hd]
    simp
  have hdirs : k'.dirs = Function.update k.dirs e none := by
    funext e'
    by_cases hee : e' = e
    · subst hee
      rw [Function.update_self, dirs, hf.envs_self]
    · rw [Function.update_of_ne hee, dirs, hf.envs_eq hee, dirs]
  refine ⟨⟨hf.kernPgdir_eq.trans h.kern_eq, ?_, ⟨e :: le, ?_, ?_⟩, ?_⟩, ?_, ?_⟩
  · rw [hdirs, ← hm]
    exact ⟨l', hsp'⟩
  · rw [hf.link_eq, hf.freeList_eq]
    exact hchain.push hel
  · intro e'
    rw [hdirs]
    by_cases hee : e' = e
    · subst hee
      simp
    · rw [Function.update_of_ne hee, ← hle e', List.mem_cons, or_iff_right hee]
  · intro e' hst
    rw [hdirs]
    by_cases hee : e' = e
    · subst hee
      exact Function.update_self ..
    · rw [status, hf.envs_eq hee] at hst
      rw [Function.update_of_ne hee]
      exact h.free hst
  · intro r p hr
    rw [hdirs, ← hm] at hr
    exact hfewer hr
  · intro e' hee
    rw [hdirs, ← hm]
    exact hent hee

theorem ran (h : Sound b k) (hr : Ran k c e k') : Sound b k' := by
  have hdirs : k'.dirs = k.dirs := by
    funext e'
    obtain ⟨_, _, _, halike⟩ := hr.alike e'
    rw [dirs, halike, dirs]
  have hlink : (fun e' => (k'.envs e').envLink) = fun e' => (k.envs e').envLink := by
    funext e'
    obtain ⟨_, _, _, halike⟩ := hr.alike e'
    rw [halike]
  refine ⟨hr.kernPgdir_eq.trans h.kern_eq, ?_, ?_, ?_⟩
  · rw [hr.toPhys_eq, hdirs]
    exact h.spaces
  · rw [hlink, hr.freeList_eq, hdirs]
    exact h.list
  · intro e' hst
    rw [hr.status_eq] at hst
    rw [hdirs]
    split_ifs at hst
    exact h.free hst

theorem halted (h : Sound b k) (hh : Halted k c k') : Sound b k' :=
  h.congr hh.toPhys_eq hh.kernPgdir_eq hh.envs_eq hh.freeList_eq

end Sound

end Jos.Kern
