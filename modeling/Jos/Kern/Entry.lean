import Jos.Kern.Trap

/-! What one kernel entry can do, said once.  `Rules` lists the changes a trap can make to
the kernel, in the order in which it makes them; a property that obeys them is kept by every
trap. -/

namespace Jos.Kern

open Kernel

section

variable {k k' k₁ : Kernel} {c : Cpu} {e cur : EnvIx} {tf : Trapframe} {inp : Inputs}

theorem exists_slot (start : Nat) (e : EnvIx) : ∃ i, i < nenv ∧ slot (start + i) = e := by
  have he := e.isLt
  refine ⟨(e.val + (nenv - start % nenv)) % nenv, Nat.mod_lt _ (by decide), Fin.ext ?_⟩
  simp only [slot, nenv] at *
  omega

theorem schedPick_eq_some {start : Nat} (h : schedPick k start = some e) :
    k.status e = .runnable := by
  simpa using List.find?_some h

theorem schedPick_eq_none {start : Nat} (h : schedPick k start = none) (e : EnvIx) :
    k.status e ≠ .runnable := by
  obtain ⟨i, hi, hslot⟩ := exists_slot start e
  rw [schedPick, List.find?_eq_none] at h
  have hmem : i ∈ List.range nenv := List.mem_range.2 hi
  have := h _ (List.mem_map_of_mem hmem)
  rw [hslot] at this
  simpa using this

theorem schedYield_cases (h : schedYield k c = some k') :
    (∃ e, (k.status e = .runnable ∨ k.curenv c = some e ∧ k.status e = .running) ∧
      envRun k c e = some k') ∨
    ((∀ e, k.status e ≠ .runnable) ∧ (∀ e, k.curenv c = some e → k.status e ≠ .running) ∧
      schedHalt k c = some k') := by
  unfold schedYield at h
  cases hp : schedPick k (schedStart k c) with
  | some e =>
    simp only [hp] at h
    exact .inl ⟨e, .inl (schedPick_eq_some hp), h⟩
  | none =>
    simp only [hp] at h
    cases hcur : k.curenv c with
    | some idle =>
      simp only [hcur] at h
      by_cases hst : k.status idle = .running
      · rw [if_pos hst] at h
        exact .inl ⟨idle, .inr ⟨rfl, hst⟩, h⟩
      · rw [if_neg hst] at h
        refine .inr ⟨schedPick_eq_none hp, ?_, h⟩
        rintro e ⟨⟩
        exact hst
    | none =>
      simp only [hcur] at h
      refine .inr ⟨schedPick_eq_none hp, ?_, h⟩
      rintro e ⟨⟩

theorem trapReturn_cases (h : trapReturn k c = some k') :
    (∃ e, k.curenv c = some e ∧ k.status e = .running ∧ envRun k c e = some k') ∨
    schedYield k c = some k' := by
  rw [trapReturn] at h
  split at h
  · next e he =>
    split at h
    · next hst => exact .inl ⟨e, he, hst, h⟩
    · exact .inr h
  · exact .inr h

theorem envDestroy_cases {gone : Bool} (h : envDestroy k c e = some (k', gone)) :
    (k.status e = .running ∧ k.curenv c ≠ some e ∧ k' = k.setStatus e .dying ∧ gone = false) ∨
    (k.status e ≠ .running ∧ k.curenv c ≠ some e ∧ envFree k c e = some k' ∧ gone = false) ∨
    (k.curenv c = some e ∧ gone = true ∧
      ∃ k₁, envFree k c e = some k₁ ∧ schedYield (k₁.setCurenv c none) c = some k') := by
  rw [envDestroy] at h
  split at h
  · next hc =>
    cases h
    exact .inl ⟨hc.1, hc.2, rfl, rfl⟩
  · next hc =>
    obtain ⟨k₁, hfree, h⟩ := Option.bind_eq_some_iff.1 h
    split at h
    · next hself =>
      obtain ⟨k₂, hy, h⟩ := Option.bind_eq_some_iff.1 h
      cases h
      exact .inr (.inr ⟨hself, rfl, k₁, hfree, hy⟩)
    · next hself =>
      cases h
      exact .inr (.inl ⟨fun hr => hc ⟨hr, hself⟩, hself, hfree, rfl⟩)

theorem userMemAssert_cases {va len perm : Word} {gone : Bool}
    (h : userMemAssert k c e va len perm = some (k', gone)) :
    (userMemCheck k.toPhys (k.envs e).envPgdir va len (perm ||| pteU) = some none ∧ k' = k ∧
      gone = false) ∨
    envDestroy k c e = some (k', gone) := by
  rw [userMemAssert] at h
  obtain ⟨r, hr, h⟩ := Option.bind_eq_some_iff.1 h
  cases r with
  | none =>
    cases h
    exact .inl ⟨hr, rfl, rfl⟩
  | some a => exact .inr h

theorem userMemAssert_self {va len perm : Word} {gone : Bool} (hcur : k.curenv c = some cur)
    (h : userMemAssert k c cur va len perm = some (k', gone)) :
    (userMemCheck k.toPhys (k.envs cur).envPgdir va len (perm ||| pteU) = some none ∧ k' = k ∧
      gone = false) ∨
    (gone = true ∧ ∃ k₁, envFree k c cur = some k₁ ∧
      schedYield (k₁.setCurenv c none) c = some k') := by
  rcases userMemAssert_cases h with h | h
  · exact .inl h
  · rcases envDestroy_cases h with ⟨-, hne, -⟩ | ⟨-, hne, -⟩ | ⟨-, hg, h⟩
    · exact absurd hcur hne
    · exact absurd hcur hne
    · exact .inr ⟨hg, h⟩

end

/-! Calls that always come back with a result. -/

section

variable {k k' : Kernel} {c : Cpu} {cur : EnvIx} {ret : Ret}

theorem sysExofork_ret (h : sysExofork k cur = some (k', ret)) : ∃ r, ret = .ret r := by
  rw [sysExofork] at h
  obtain ⟨⟨k₁, e | e⟩, -, h⟩ := Option.bind_eq_some_iff.1 h <;> cases h <;> exact ⟨_, rfl⟩

inductive PageAllocs (k : Kernel) (c : Cpu) (envid va perm : Word) : Kernel → Ret → Prop
  | refused {r} : r.slt 0 = true → PageAllocs k c envid va perm k (.ret r)
  | empty {m} : pageAlloc k.toPhys false = some (m, none) →
      PageAllocs k c envid va perm { k with toPhys := m } (.ret (-eNoMem))
  | noTable {e pp m m₁ m₂ r} : pageAlloc k.toPhys false = some (m, some pp) →
      pageInsert m (k.envs e).envPgdir pp va perm = some (m₁, r) → r.slt 0 = true →
      pageFree m₁ pp = some m₂ →
      PageAllocs k c envid va perm { k with toPhys := m₂ } (.ret (-eNoMem))
  | mapped {e pp m m₁ p r} : envid2env k c envid true = some e → va < utop → permOk perm →
      pageAlloc k.toPhys false = some (m, some pp) →
      pageInsert m (k.envs e).envPgdir pp va perm = some (m₁, r) → r.slt 0 = false →
      m₁.page2kva pp = some p →
      PageAllocs k c envid va perm { k with toPhys := m₁.clear p } (.ret 0)

/-- What `sys_page_map` can do.  The entry looked at is word `j` of page `t`. -/
inductive PageMaps (k : Kernel) (c : Cpu) (srcenvid srcva dstenvid dstva perm : Word) :
    Kernel → Ret → Prop
  | refused {r} : r.slt 0 = true → PageMaps k c srcenvid srcva dstenvid dstva perm k (.ret r)
  | inserted {src dst pp t j m r} : envid2env k c srcenvid true = some src →
      envid2env k c dstenvid true = some dst → srcva < utop → dstva < utop → permOk perm →
      pageLookup k.toPhys (k.envs src).envPgdir srcva = some (some (pp, t, j)) →
      ¬(perm &&& pteW ≠ 0 ∧ k.mem t j &&& pteW = 0) →
      pageInsert k.toPhys (k.envs dst).envPgdir pp dstva perm = some (m, r) →
      PageMaps k c srcenvid srcva dstenvid dstva perm { k with toPhys := m }
        (.ret (if r.slt 0 then -eNoMem else 0))

inductive PageUnmaps (k : Kernel) (c : Cpu) (envid va : Word) : Kernel → Ret → Prop
  | refused {r} : r.slt 0 = true → PageUnmaps k c envid va k (.ret r)
  | removed {e m} : envid2env k c envid true = some e → va < utop →
      pageRemove k.toPhys (k.envs e).envPgdir va = some m →
      PageUnmaps k c envid va { k with toPhys := m } (.ret 0)

section

variable {envid va perm srcenvid srcva dstenvid dstva : Word}

theorem sysPageAlloc_step (h : sysPageAlloc k c envid va perm = some (k', ret)) :
    PageAllocs k c envid va perm k' ret := by
  rw [sysPageAlloc] at h
  split_ifs at h with hva hlack hother
  · cases h; exact .refused (by decide)
  · cases h; exact .refused (by decide)
  · cases h; exact .refused (by decide)
  · split at h
    · cases h; exact .refused (by decide)
    · next e he =>
      obtain ⟨⟨m, pp⟩, halloc, h⟩ := Option.bind_eq_some_iff.1 h
      cases pp with
      | none => cases h; exact .empty halloc
      | some pp =>
        obtain ⟨⟨m₁, r⟩, hins, h⟩ := Option.bind_eq_some_iff.1 h
        simp only at h
        split at h
        · next hr =>
          obtain ⟨m₂, hfree, h⟩ := Option.bind_eq_some_iff.1 h
          cases h; exact .noTable halloc hins hr hfree
        · next hr =>
          obtain ⟨p, hp, h⟩ := Option.bind_eq_some_iff.1 h
          have hperm : permOk perm := ⟨(not_or.1 hlack).2, (not_or.1 hlack).1, not_not.1 hother⟩
          cases h
          exact .mapped he (BitVec.not_le.1 hva) hperm halloc hins (Bool.eq_false_of_not_eq_true hr) hp

theorem sysPageMap_step (h : sysPageMap k c srcenvid srcva dstenvid dstva perm = some (k', ret)) :
    PageMaps k c srcenvid srcva dstenvid dstva perm k' ret := by
  rw [sysPageMap] at h
  split at h
  · next src dst hsrc hdst =>
    split_ifs at h with hargs hbits
    · cases h; exact .refused (by decide)
    · cases h; exact .refused (by decide)
    · obtain ⟨look, hlook, h⟩ := Option.bind_eq_some_iff.1 h
      cases look with
      | none => cases h; exact .refused (by decide)
      | some look =>
        simp only at h
        split at h
        · cases h; exact .refused (by decide)
        · next hw =>
          obtain ⟨⟨m, r⟩, hins, h⟩ := Option.bind_eq_some_iff.1 h
          simp only [not_or, not_not, BitVec.not_le] at hargs hbits
          cases h
          exact .inserted hsrc hdst hargs.1 hargs.2.2.1 ⟨hbits.2.1, hbits.1, hbits.2.2⟩ hlook hw hins
  · cases h; exact .refused (by decide)

theorem sysPageUnmap_step (h : sysPageUnmap k c envid va = some (k', ret)) :
    PageUnmaps k c envid va k' ret := by
  rw [sysPageUnmap] at h
  split at h
  · cases h; exact .refused (by decide)
  · next e he =>
    split at h
    · cases h; exact .refused (by decide)
    · next hva =>
      obtain ⟨m, hrem, h⟩ := Option.bind_eq_some_iff.1 h
      cases h; exact .removed he (BitVec.not_le.1 (not_or.1 hva).1) hrem

theorem sysPageAlloc_ret (h : sysPageAlloc k c envid va perm = some (k', ret)) :
    (∃ r, ret = .ret r) ∧ ∃ m, k' = { k with toPhys := m } := by
  cases sysPageAlloc_step h with
  | refused => exact ⟨⟨_, rfl⟩, k.toPhys, rfl⟩
  | empty => exact ⟨⟨_, rfl⟩, _, rfl⟩
  | noTable => exact ⟨⟨_, rfl⟩, _, rfl⟩
  | mapped => exact ⟨⟨_, rfl⟩, _, rfl⟩

theorem sysPageMap_ret (h : sysPageMap k c srcenvid srcva dstenvid dstva perm = some (k', ret)) :
    (∃ r, ret = .ret r) ∧ ∃ m, k' = { k with toPhys := m } := by
  cases sysPageMap_step h with
  | refused => exact ⟨⟨_, rfl⟩, k.toPhys, rfl⟩
  | inserted => exact ⟨⟨_, rfl⟩, _, rfl⟩

theorem sysPageUnmap_ret (h : sysPageUnmap k c envid va = some (k', ret)) :
    (∃ r, ret = .ret r) ∧ ∃ m, k' = { k with toPhys := m } := by
  cases sysPageUnmap_step h with
  | refused => exact ⟨⟨_, rfl⟩, k.toPhys, rfl⟩
  | removed => exact ⟨⟨_, rfl⟩, _, rfl⟩

end

theorem sysIpcTrySend_ret {envid value srcva perm : Word}
    (h : sysIpcTrySend k c cur envid value srcva perm = some (k', ret)) : ∃ r, ret = .ret r := by
  rw [sysIpcTrySend] at h
  split at h
  · cases h; exact ⟨_, rfl⟩
  · split at h
    · cases h; exact ⟨_, rfl⟩
    · obtain ⟨page, -, h⟩ := Option.bind_eq_some_iff.1 h
      split at h
      · cases h; exact ⟨_, rfl⟩
      · cases h; exact ⟨_, rfl⟩
      · split at h
        · obtain ⟨⟨m, r⟩, -, h⟩ := Option.bind_eq_some_iff.1 h
          simp only at h
          split at h
          · cases h; exact ⟨_, rfl⟩
          · cases h; exact ⟨_, rfl⟩
        · cases h; exact ⟨_, rfl⟩

end

def Trapframe.sysno (tf : Trapframe) : Option Sysno :=
  if tf.tfTrapno = tSyscall then Sysno.ofWord tf.tfRegs.regEax else none

/-- The traps in which the kernel may come to push a frame for a page fault upcall: page
faults, and calls that touch user memory and may fault there themselves. -/
def Trapframe.MayFault (tf : Trapframe) : Prop :=
  tf.tfTrapno = tPgflt ∨ tf.sysno = some .cputs ∨ tf.sysno = some .envSetTrapframe ∨
    tf.sysno = some .txpacket ∨ tf.sysno = some .rxpacket

def ipcBlock (k : Kernel) (cur : EnvIx) (dstva : Word) : Kernel :=
  (k.setEnv cur { k.envs cur with
    envIpcRecving := true
    envIpcDstva := dstva
    envStatus := .notRunnable
    envIpcFrom := 0 }).note (.recv cur)

/-- The ways out of a trap that `cur` takes on CPU `c`.  `P` holds when the frame is saved, `W`
while the trap may still end in a fault in kernel mode, `R` when nothing is left to do but to
return or to schedule, `Q` when the CPU has left the kernel. -/
structure Exits (c : Cpu) (cur : EnvIx) (P W R Q : Kernel → Prop) : Prop where
  weaken : ∀ {k}, P k → W k
  forget : ∀ {k}, W k → R k
  current : ∀ {k}, W k → k.curenv c = some cur
  exit : ∀ {k k'}, W k → envFree k c cur = some k' → R (k'.setCurenv c none)
  run : ∀ {k k' e}, R k → k.status e = .runnable ∨ (k.curenv c = some e ∧ k.status e = .running) →
    envRun k c e = some k' → Q k'
  resume : ∀ {k k'}, W k → envRun k c cur = some k' → Q k'
  halt : ∀ {k k'}, R k → (∀ e, k.status e ≠ .runnable) →
    (∀ e, k.curenv c = some e → k.status e ≠ .running) → schedHalt k c = some k' → Q k'

namespace Exits

variable {c : Cpu} {cur : EnvIx} {P W R Q : Kernel → Prop} {k k' : Kernel}

theorem schedYield (H : Exits c cur P W R Q) (hk : R k) (h : schedYield k c = some k') :
    Q k' := by
  rcases schedYield_cases h with ⟨e, he, hrun⟩ | ⟨hn, hcur, hhalt⟩
  · exact H.run hk he hrun
  · exact H.halt hk hn hcur hhalt

theorem trapReturn (H : Exits c cur P W R Q) (hk : R k) (h : trapReturn k c = some k') :
    Q k' := by
  rcases trapReturn_cases h with ⟨e, he, hst, hrun⟩ | hy
  · exact H.run hk (.inr ⟨he, hst⟩) hrun
  · exact H.schedYield hk hy

theorem destroySelf (H : Exits c cur P W R Q) (hk : W k) {gone : Bool}
    (h : envDestroy k c cur = some (k', gone)) : gone = true ∧ Q k' := by
  have hcur := H.current hk
  rcases envDestroy_cases h with ⟨-, hne, -⟩ | ⟨-, hne, -⟩ | ⟨-, hg, k₁, hfree, hy⟩
  · exact absurd hcur hne
  · exact absurd hcur hne
  · exact ⟨hg, H.schedYield (H.exit hk hfree) hy⟩

theorem assertSelf (H : Exits c cur P W R Q) (hk : W k) {va len perm : Word} {gone : Bool}
    (h : userMemAssert k c cur va len perm = some (k', gone)) :
    (userMemCheck k.toPhys (k.envs cur).envPgdir va len (perm ||| pteU) = some none ∧ k' = k ∧
      gone = false) ∨ gone = true ∧ Q k' := by
  rcases userMemAssert_cases h with h | h
  · exact .inl h
  · exact .inr (H.destroySelf hk h)

theorem destroyOther (H : Exits c cur P W R Q) (hk : W k) {e : EnvIx} {gone : Bool}
    (hmark : k.status e = .running → k.curenv c ≠ some e → W (k.setStatus e .dying))
    (hfree : ∀ {k'}, k.status e ≠ .running → k.curenv c ≠ some e → envFree k c e = some k' → W k')
    (h : envDestroy k c e = some (k', gone)) :
    (gone = false ∧ W k') ∨ (gone = true ∧ Q k') := by
  rcases envDestroy_cases h with ⟨hst, hne, rfl, rfl⟩ | ⟨hst, hne, hf, rfl⟩ | ⟨hself, rfl, -⟩
  · exact .inl ⟨rfl, hmark hst hne⟩
  · exact .inl ⟨rfl, hfree hst hne hf⟩
  · have hcur := H.current hk
    rw [hself] at hcur
    cases hcur
    exact .inr (H.destroySelf hk h)

end Exits

def Rules.Done (tf : Trapframe) (W R Q : Kernel → Prop) (k : Kernel) : Ret → Prop
  | .ret _ => R k
  | .gone => Q k
  | .fault => W k ∧ tf.MayFault

/-- The changes that a trap of `cur` with the frame `tf` can make, apart from those to frames. -/
structure Changes (c : Cpu) (cur : EnvIx) (tf : Trapframe) (P W R : Kernel → Prop) : Prop where
  tick : ∀ {k} (ticks : Word), P k → R { k with ticks }
  device : ∀ {k} (e1000 : E1000), W k → W { k with e1000 }
  upcall : ∀ {k e} (func : Word), P k → tf.sysno = some .envSetPgfaultUpcall →
    envid2env k c tf.tfRegs.regEdx true = some e →
    R (k.setEnv e { k.envs e with envPgfaultUpcall := func })
  fork : ∀ {k k' r}, P k → tf.sysno = some .exofork → sysExofork k cur = some (k', .ret r) → R k'
  setStatus : ∀ {k} {e} (st : EnvStatus), P k → tf.sysno = some .envSetStatus →
    envid2env k c tf.tfRegs.regEdx true = some e → st = .runnable ∨ st = .notRunnable →
    (st = .runnable ↔ tf.tfRegs.regEcx = EnvStatus.runnable.code) → R (k.setStatus e st)
  pageAlloc : ∀ {k k' r}, P k → tf.sysno = some .pageAlloc →
    sysPageAlloc k c tf.tfRegs.regEdx tf.tfRegs.regEcx tf.tfRegs.regEbx = some (k', .ret r) → R k'
  pageMap : ∀ {k k' r}, P k → tf.sysno = some .pageMap →
    sysPageMap k c tf.tfRegs.regEdx tf.tfRegs.regEcx tf.tfRegs.regEbx tf.tfRegs.regEdi
      tf.tfRegs.regEsi = some (k', .ret r) → R k'
  pageUnmap : ∀ {k k' r}, P k → tf.sysno = some .pageUnmap →
    sysPageUnmap k c tf.tfRegs.regEdx tf.tfRegs.regEcx = some (k', .ret r) → R k'
  trySend : ∀ {k k' r}, P k → tf.sysno = some .ipcTrySend →
    sysIpcTrySend k c cur tf.tfRegs.regEdx tf.tfRegs.regEcx tf.tfRegs.regEbx tf.tfRegs.regEdi =
      some (k', .ret r) → R k'
  recv : ∀ {k}, P k → tf.sysno = some .ipcRecv →
    ¬(tf.tfRegs.regEdx < utop ∧ pgoff tf.tfRegs.regEdx ≠ 0) → R (ipcBlock k cur tf.tfRegs.regEdx)
  mark : ∀ {k e}, P k → tf.sysno = some .envDestroy ∨ tf.sysno = some .envSetTrapframe →
    envid2env k c tf.tfRegs.regEdx true = some e → k.status e = .running → k.curenv c ≠ some e →
    W (k.setStatus e .dying)
  free : ∀ {k k' e}, P k → tf.sysno = some .envDestroy ∨ tf.sysno = some .envSetTrapframe →
    envid2env k c tf.tfRegs.regEdx true = some e → k.status e ≠ .running → k.curenv c ≠ some e →
    envFree k c e = some k' → W k'
  receive : ∀ {k} (bs : List Byte), P k → tf.sysno = some .rxpacket →
    userMemCheck k.toPhys (k.envs cur).envPgdir tf.tfRegs.regEdx rxbuffsize (pteU ||| pteU) =
      some none →
    W { k with toPhys := (copyOut (k.cpus c).cr3 k.toPhys bs tf.tfRegs.regEdx).1 }
  push : ∀ {k} (esp : Word) (bs : List Byte), W k → tf.MayFault →
    userMemCheck k.toPhys (k.envs cur).envPgdir (utfAddr esp) 52 (pteU ||| pteW ||| pteU) =
      some none →
    W { k with toPhys := (copyOut (k.cpus c).cr3 k.toPhys bs (utfAddr esp)).1 }

/-- A trap that `cur` takes on CPU `c` with the frame `tf`, each change it can make with what
it writes. -/
structure Traps (c : Cpu) (cur : EnvIx) (tf : Trapframe) (P W R Q : Kernel → Prop) : Prop
    extends Exits c cur P W R Q, Changes c cur tf P W R where
  upframe : ∀ {k} (eip esp : Word), W k → tf.tfTrapno = tPgflt →
    W (k.setEnv cur { k.envs cur with envTf := { tf with tfEip := eip, tfEsp := esp } })
  result : ∀ {k} (code : Word), R k → R (k.setEnv cur { k.envs cur with
    envTf := { (k.envs cur).envTf with
      tfRegs := { (k.envs cur).envTf.tfRegs with regEax := code } } })
  setFrame : ∀ {k k' ret}, P k → tf.sysno = some .envSetTrapframe →
    sysEnvSetTrapframe k c tf.tfRegs.regEdx tf.tfRegs.regEcx = some (k', ret) →
    Rules.Done tf W R Q k' ret

namespace Traps

variable {c : Cpu} {cur : EnvIx} {tf : Trapframe} {inp : Inputs} {P W R Q : Kernel → Prop}
  {k k' : Kernel}

theorem pageFaultHandler (H : Traps c cur tf P W R Q) (hk : W k) (hf : tf.MayFault) {tf' : Trapframe} {va : Word}
    {user : Bool} (hu : user = true → tf' = tf ∧ tf.tfTrapno = tPgflt) (h : pageFaultHandler k c cur tf' va user = some k') : Q k' := by
  rw [Kern.pageFaultHandler] at h
  split at h
  · obtain ⟨⟨k₁, gone⟩, hassert, h⟩ := Option.bind_eq_some_iff.1 h
    rcases H.assertSelf hk hassert with ⟨hcheck, rfl, rfl⟩ | ⟨rfl, hQ⟩
    · simp only at h
      have hpush := H.push tf'.tfEsp ((utrapframe tf' va).flatMap bytesOfWord) hk hf hcheck
      split at h
      · cases h
      · generalize copyOut (k₁.cpus c).cr3 k₁.toPhys ((utrapframe tf' va).flatMap bytesOfWord)
          (utfAddr tf'.tfEsp) = out at h hpush
        cases user with
        | true =>
          obtain ⟨rfl, hno⟩ := hu rfl
          exact H.resume (H.upframe _ _ hpush hno) h
        | false => exact H.resume hpush h
    · cases h
      exact hQ
  · obtain ⟨⟨k₁, gone⟩, hd, h⟩ := Option.bind_eq_some_iff.1 h
    cases h
    exact (H.destroySelf hk hd).2

theorem sysCputs (H : Traps c cur tf P W R Q) (hk : P k) (hno : tf.sysno = some .cputs) {s len : Word} {ret : Ret}
    (h : sysCputs k c cur s len = some (k', ret)) : Rules.Done tf W R Q k' ret := by
  rw [Kern.sysCputs] at h
  obtain ⟨⟨k₁, gone⟩, hassert, h⟩ := Option.bind_eq_some_iff.1 h
  rcases H.assertSelf (H.weaken hk) hassert with ⟨-, rfl, rfl⟩ | ⟨rfl, hQ⟩
  · simp only at h
    split at h
    · cases h
      exact H.forget (H.weaken hk)
    · obtain ⟨fault, -, h⟩ := Option.bind_eq_some_iff.1 h
      cases fault <;> cases h
      · exact H.forget (H.weaken hk)
      · exact ⟨H.weaken hk, .inr (.inl hno)⟩
  · cases h
    exact hQ

theorem sysEnvDestroy (H : Traps c cur tf P W R Q) (hk : P k) (hno : tf.sysno = some .envDestroy)
    {ret : Ret} (h : sysEnvDestroy k c tf.tfRegs.regEdx = some (k', ret)) :
    Rules.Done tf W R Q k' ret := by
  rw [Kern.sysEnvDestroy] at h
  split at h
  · cases h
    exact H.forget (H.weaken hk)
  · next e he =>
    obtain ⟨⟨k₁, gone⟩, hd, h⟩ := Option.bind_eq_some_iff.1 h
    rcases H.destroyOther (H.weaken hk) (H.mark hk (.inl hno) he) (H.free hk (.inl hno) he) hd with
      ⟨rfl, hW⟩ | ⟨rfl, hQ⟩
    · cases h
      exact H.forget hW
    · cases h
      exact hQ

theorem sysEnvSetStatus (H : Traps c cur tf P W R Q) (hk : P k)
    (hno : tf.sysno = some .envSetStatus) {ret : Ret}
    (h : sysEnvSetStatus k c tf.tfRegs.regEdx tf.tfRegs.regEcx = some (k', ret)) :
    Rules.Done tf W R Q k' ret := by
  rw [Kern.sysEnvSetStatus] at h
  split at h
  · cases h
    exact H.forget (H.weaken hk)
  · split at h
    · cases h
      exact H.forget (H.weaken hk)
    · next e he =>
      cases h
      refine H.setStatus _ hk hno he ?_ ?_
      · split
        · exact .inl rfl
        · exact .inr rfl
      · split <;> simp_all

theorem sysTxpacket (H : Traps c cur tf P W R Q) (hk : P k) (hno : tf.sysno = some .txpacket)
    {src len : Word} {ret : Ret}
    (h : sysTxpacket k c cur src len = some (k', ret)) : Rules.Done tf W R Q k' ret := by
  rw [Kern.sysTxpacket] at h
  obtain ⟨⟨k₁, gone⟩, hassert, h⟩ := Option.bind_eq_some_iff.1 h
  rcases H.assertSelf (H.weaken hk) hassert with ⟨-, rfl, rfl⟩ | ⟨rfl, hQ⟩
  · simp only [Option.pure_def, Option.some.injEq] at h
    simp only [txpacket] at h
    generalize (if txbuffsize < len then txbuffsize else len) = n at h
    split at h
    · cases h
      exact H.forget (H.weaken hk)
    · split at h
      · cases h
        exact ⟨H.device _ (H.weaken hk), .inr (.inr (.inr (.inl hno)))⟩
      · cases h
        exact H.forget (H.device _ (H.weaken hk))
  · cases h
    exact hQ

theorem sysRxpacket (H : Traps c cur tf P W R Q) (hk : P k) (hno : tf.sysno = some .rxpacket)
    {ret : Ret} (h : sysRxpacket k c cur tf.tfRegs.regEdx = some (k', ret)) :
    Rules.Done tf W R Q k' ret := by
  rw [Kern.sysRxpacket] at h
  obtain ⟨⟨k₁, gone⟩, hassert, h⟩ := Option.bind_eq_some_iff.1 h
  rcases H.assertSelf (H.weaken hk) hassert with ⟨hcheck, rfl, rfl⟩ | ⟨rfl, hQ⟩
  · simp only [Option.pure_def, Option.some.injEq] at h
    simp only [rxpacket] at h
    split at h
    · cases h
      exact H.forget (H.weaken hk)
    · have hrx := fun bs => H.receive bs hk hno hcheck
      split at h
      · cases h
        exact ⟨hrx _, .inr (.inr (.inr (.inr hno)))⟩
      · cases h
        exact H.forget (H.device _ (hrx _))
  · cases h
    exact hQ

theorem syscall (H : Traps c cur tf P W R Q) (hk : P k) (hno : tf.tfTrapno = tSyscall) {ret : Ret}
    (h : syscall k c cur inp tf.tfRegs.regEax tf.tfRegs.regEdx tf.tfRegs.regEcx tf.tfRegs.regEbx
      tf.tfRegs.regEdi tf.tfRegs.regEsi = some (k', ret)) : Rules.Done tf W R Q k' ret := by
  have hsys : tf.sysno = Sysno.ofWord tf.tfRegs.regEax := by rw [Trapframe.sysno, if_pos hno]
  have hR : R k := H.forget (H.weaken hk)
  rw [Kern.syscall] at h
  rw [← hsys] at h
  cases hs : tf.sysno with
  | none =>
    rw [hs] at h
    cases h
    exact hR
  | some s =>
    rw [hs] at h
    cases s with
    | cputs => exact H.sysCputs hk hs h
    | cgetc => cases h; exact hR
    | getenvid => cases h; exact hR
    | envDestroy => exact H.sysEnvDestroy hk hs h
    | pageAlloc =>
      obtain ⟨⟨r, rfl⟩, -⟩ := sysPageAlloc_ret h
      exact H.pageAlloc hk hs h
    | pageMap =>
      obtain ⟨⟨r, rfl⟩, -⟩ := sysPageMap_ret h
      exact H.pageMap hk hs h
    | pageUnmap =>
      obtain ⟨⟨r, rfl⟩, -⟩ := sysPageUnmap_ret h
      exact H.pageUnmap hk hs h
    | exofork =>
      obtain ⟨r, rfl⟩ := sysExofork_ret h
      exact H.fork hk hs h
    | envSetStatus => exact H.sysEnvSetStatus hk hs h
    | envSetTrapframe => exact H.setFrame hk hs h
    | envSetPgfaultUpcall =>
      simp only [sysEnvSetPgfaultUpcall] at h
      split at h
      · cases h
        exact hR
      · next e he =>
        cases h
        exact H.upcall _ hk hs he
    | yield =>
      simp only [sysYield] at h
      obtain ⟨k₁, hy, h⟩ := Option.bind_eq_some_iff.1 h
      cases h
      exact H.schedYield hR hy
    | ipcTrySend =>
      obtain ⟨r, rfl⟩ := sysIpcTrySend_ret h
      exact H.trySend hk hs h
    | ipcRecv =>
      simp only [sysIpcRecv] at h
      split at h
      · cases h
        exact hR
      · next hva =>
        obtain ⟨k₁, hy, h⟩ := Option.bind_eq_some_iff.1 h
        cases h
        exact H.schedYield (H.recv hk hs hva) hy
    | timeMsec => cases h; exact hR
    | txpacket => exact H.sysTxpacket hk hs h
    | rxpacket => exact H.sysRxpacket hk hs h

theorem trapDispatch (H : Traps c cur tf P W R Q) (hk : P k) {ret : Ret}
    (h : trapDispatch k c cur tf inp = some (k', ret)) : Rules.Done tf W R Q k' ret := by
  have hR : R k := H.forget (H.weaken hk)
  rw [Kern.trapDispatch] at h
  split_ifs at h with h1 h2 h3 h4 h5 h6 h7
  · cases h; exact hR
  · obtain ⟨k₁, htick, h⟩ := Option.bind_eq_some_iff.1 h
    obtain ⟨k₂, hy, h⟩ := Option.bind_eq_some_iff.1 h
    cases h
    simp only [timeTick] at htick
    split at htick
    · cases htick
    · cases htick
      exact H.schedYield (H.tick _ hk) hy
  · cases h; exact hR
  · cases h; exact hR
  · obtain ⟨k₁, hf, h⟩ := Option.bind_eq_some_iff.1 h
    cases h
    exact H.pageFaultHandler (H.weaken hk) (.inl h5) (fun _ => ⟨rfl, h5⟩) hf
  · cases h; exact hR
  · obtain ⟨⟨k₁, ret₁⟩, hsys, h⟩ := Option.bind_eq_some_iff.1 h
    have hdone := H.syscall hk h7 hsys
    cases ret₁ with
    | ret r =>
      cases h
      exact H.result _ hdone
    | gone => cases h; exact hdone
    | fault => cases h; exact hdone
  · obtain ⟨⟨k₁, gone⟩, hd, h⟩ := Option.bind_eq_some_iff.1 h
    cases h
    exact (H.destroySelf (H.weaken hk) hd).2

theorem trapUser (H : Traps c cur tf P W R Q) (hcur : k.curenv c = some cur)
    (hst : k.status cur ≠ .dying) (hk : P (k.setEnv cur { k.envs cur with envTf := tf }))
    (h : trapUser k c tf inp = some k') : Q k' := by
  simp only [Kern.trapUser, hcur, Option.bind_eq_bind, Option.bind_some, if_neg hst] at h
  obtain ⟨⟨k₁, ret⟩, hd, h⟩ := Option.bind_eq_some_iff.1 h
  have hdone := H.trapDispatch hk hd
  cases ret with
  | ret r => exact H.trapReturn hdone h
  | gone => cases h; exact hdone
  | fault => exact H.pageFaultHandler hdone.1 hdone.2 (fun h => by cases h) h

end Traps

/-- A trap that `cur` takes on CPU `c` with the frame `tf`, with no regard to what is written to
frames. -/
structure Rules (c : Cpu) (cur : EnvIx) (tf : Trapframe) (P W R Q : Kernel → Prop) : Prop
    extends Exits c cur P W R Q, Changes c cur tf P W R where
  frame : ∀ {k e} (tf' : Trapframe), W k →
    e = cur ∨ (tf.sysno = some .envSetTrapframe ∧
      ∃ k₁, P k₁ ∧ envid2env k₁ c tf.tfRegs.regEdx true = some e) →
    W (k.setEnv e { k.envs e with envTf := tf' })
  result : ∀ {k} (tf' : Trapframe), R k → R (k.setEnv cur { k.envs cur with envTf := tf' })

namespace Rules

variable {c : Cpu} {cur : EnvIx} {tf : Trapframe} {inp : Inputs} {P W R Q : Kernel → Prop}
  {k k' : Kernel}

theorem sysEnvSetTrapframe (H : Rules c cur tf P W R Q) (hk : P k)
    (hno : tf.sysno = some .envSetTrapframe) {ptr : Word} {ret : Ret}
    (h : sysEnvSetTrapframe k c tf.tfRegs.regEdx ptr = some (k', ret)) : Done tf W R Q k' ret := by
  rw [Kern.sysEnvSetTrapframe] at h
  split at h
  · cases h
    exact H.forget (H.weaken hk)
  · next e he =>
    obtain ⟨⟨k₁, gone⟩, hassert, h⟩ := Option.bind_eq_some_iff.1 h
    have hcases : (gone = false ∧ W k₁) ∨ (gone = true ∧ Q k₁) := by
      rcases userMemAssert_cases hassert with ⟨-, rfl, rfl⟩ | hd
      · exact .inl ⟨rfl, H.weaken hk⟩
      · exact H.destroyOther (H.weaken hk) (H.mark hk (.inr hno) he) (H.free hk (.inr hno) he) hd
    rcases hcases with ⟨rfl, hW⟩ | ⟨rfl, hQ⟩
    · have hmay : e = cur ∨ (tf.sysno = some .envSetTrapframe ∧
          ∃ k₁, P k₁ ∧ envid2env k₁ c tf.tfRegs.regEdx true = some e) := .inr ⟨hno, k, hk, he⟩
      simp only at h
      split at h
      · cases h
        exact ⟨H.frame _ hW hmay, .inr (.inr (.inl hno))⟩
      · cases h
        exact H.forget (H.frame _ hW hmay)
    · cases h
      exact hQ

theorem traps (H : Rules c cur tf P W R Q) : Traps c cur tf P W R Q where
  toExits := H.toExits
  toChanges := H.toChanges
  upframe := fun _ _ hk _ => H.frame _ hk (.inl rfl)
  result := fun _ hk => H.result _ hk
  setFrame := fun hk hno h => H.sysEnvSetTrapframe hk hno h

theorem trapUser (H : Rules c cur tf P W R Q) (hcur : k.curenv c = some cur)
    (hst : k.status cur ≠ .dying) (hk : P (k.setEnv cur { k.envs cur with envTf := tf }))
    (h : trapUser k c tf inp = some k') : Q k' := H.traps.trapUser hcur hst hk h

end Rules

theorem trapUser_dying {k k' : Kernel} {c : Cpu} {cur : EnvIx} {tf : Trapframe} {inp : Inputs}
    (hcur : k.curenv c = some cur) (hst : k.status cur = .dying)
    (h : trapUser k c tf inp = some k') :
    ∃ k₁, envFree k c cur = some k₁ ∧ schedYield (k₁.setCurenv c none) c = some k' := by
  simp only [trapUser, hcur, Option.bind_eq_bind, Option.bind_some, if_pos hst] at h
  exact Option.bind_eq_some_iff.1 h

end Jos.Kern
