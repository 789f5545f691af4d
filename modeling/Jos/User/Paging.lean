import Jos.User.Calls

/-! Whole runs of the paging calls: any environments call and access memory in any order. -/

namespace Jos.User

open Kern Lib Phys Kernel

inductive PageCall
  | alloc (envid va perm : Word)
  | map (srcenvid srcva dstenvid dstva perm : Word)
  | unmap (envid va : Word)

def PageCall.run (k : Kernel) (c : Cpu) : PageCall → Call
  | alloc envid va perm => sysPageAlloc k c envid va perm
  | map srcenvid srcva dstenvid dstva perm => sysPageMap k c srcenvid srcva dstenvid dstva perm
  | unmap envid va => sysPageUnmap k c envid va

/-- The command a call stands for, where `ρ` tells the environments that its caller may name. -/
def PageCall.cmd (ρ : Word → Option EnvIx) : PageCall → Option Cmd
  | alloc envid va perm => (ρ envid).map (.pageAlloc · va perm)
  | map srcenvid srcva dstenvid dstva perm =>
    (ρ srcenvid).bind fun src => (ρ dstenvid).map (.pageMap src srcva · dstva perm)
  | unmap envid va => (ρ envid).map (.pageUnmap · va)

/-- What happens to memory, with the answer.  A load without an answer is a page fault. -/
inductive MemEvent
  | call (c : Cpu) (q : PageCall) (r : Word)
  | load (e : EnvIx) (va : Word) (x : Option Byte)
  | store (e : EnvIx) (va : Word) (v : Byte)

def memStep (k : Kernel) : MemEvent → Option Kernel
  | .call c q r => do
    let (k', ret) ← q.run k c
    if ret = .ret r then some k' else none
  | .load e va x => do
    let d ← k.dirs e
    if va < utop ∧ mmuLoad k.toPhys d va pteU = x then some k else none
  | .store e va v => do
    let d ← k.dirs e
    let m ← mmuStore k.toPhys d va (pteU ||| pteW) v
    return { k with toPhys := m }

inductive Vm.Takes (ρ : Cpu → Word → Option EnvIx) : MemEvent → Vm → Vm → Prop
  | call {c q r cmd s s'} : q.cmd (ρ c) = some cmd → Exec cmd s r s' → Takes ρ (.call c q r) s s'
  | denied {c q r s} : q.cmd (ρ c) = none → r.slt 0 = true → Takes ρ (.call c q r) s s
  | load {e va s} : Takes ρ (.load e va (s.read e va)) s s
  | store {e va v s p f} : s.pte e (pgnum va) = some (p, f) → f &&& pteW ≠ 0 →
      Takes ρ (.store e va v) s (s.store p (pgoff va) v)

variable {b : Base} {k k' : Kernel} {s : Vm} {c : Cpu} {r : Word} {q : PageCall}

theorem Vm.Takes.failed {ρ : Cpu → Word → Option EnvIx} (hr : r.slt 0 = true) :
    Takes ρ (.call c q r) s s := by
  cases hq : q.cmd (ρ c) with
  | none => exact .denied hq hr
  | some cmd => exact .call hq (.failed hr)

theorem PageCall.run_frame (h : q.run k c = some (k', .ret r)) :
    ∃ m, k' = { k with toPhys := m } := by
  cases q with
  | alloc =>
    cases sysPageAlloc_step h with
    | refused | empty | noTable | mapped => exact ⟨_, rfl⟩
  | map =>
    cases hs : sysPageMap_step h with
    | refused | inserted => exact ⟨_, rfl⟩
  | unmap =>
    cases sysPageUnmap_step h with
    | refused | removed => exact ⟨_, rfl⟩

theorem Sees.call (h : Sees k s) (hs : Sound b k) (hc : Counted k)
    (hcall : q.run k c = some (k', .ret r)) :
    Sound b k' ∧ ∃ s', Vm.Takes (envid2env k · · true) (.call c q r) s s' ∧ Sees k' s' := by
  cases q with
  | alloc envid va perm =>
    refine ⟨(hs.sysPageAlloc hc hcall).1, ?_⟩
    obtain ⟨s', hsee, ⟨e, he, hx⟩ | ⟨hr, rfl⟩⟩ := h.pageAlloc hs hc hcall
    · exact ⟨s', .call (by rw [PageCall.cmd, he]; rfl) hx, hsee⟩
    · exact ⟨s', .failed hr, hsee⟩
  | map srcenvid srcva dstenvid dstva perm =>
    refine ⟨(hs.sysPageMap hc hcall).1, ?_⟩
    obtain ⟨s', hsee, ⟨src, dst, hse, hde, hx⟩ | ⟨hr, rfl⟩⟩ := h.pageMap hs hc hcall
    · exact ⟨s', .call (by rw [PageCall.cmd, hse, hde]; rfl) hx, hsee⟩
    · exact ⟨s', .failed hr, hsee⟩
  | unmap envid va =>
    refine ⟨(hs.sysPageUnmap hc hcall).1, ?_⟩
    obtain ⟨s', hsee, ⟨e, he, hx⟩ | ⟨hr, rfl⟩⟩ := h.pageUnmap hs hc hcall
    · exact ⟨s', .call (by rw [PageCall.cmd, he]; rfl) hx, hsee⟩
    · exact ⟨s', .failed hr, hsee⟩

/-- The memory of `k` as its environments see it. -/
def vmOf (k : Kernel) : Vm := ⟨fun _ => .live, vpte k, k.toPhys.loadByte⟩

theorem sees_vmOf : Sees k (vmOf k) := ⟨fun _ _ => rfl, fun _ _ _ _ _ _ => rfl⟩

/-- What a run from `k₀` keeps: nothing but memory changes, and `s` shows it. -/
structure Mirrors (b : Base) (k₀ k : Kernel) (s : Vm) : Prop where
  sound : Sound b k
  sees : Sees k s
  rest : ∃ m, k = { k₀ with toPhys := m }

theorem Mirrors.step {k₀ : Kernel} {ev : MemEvent} (h : Mirrors b k₀ k s) (hc : Counted k)
    (hst : memStep k ev = some k') :
    ∃ s', Vm.Takes (envid2env k₀ · · true) ev s s' ∧ Mirrors b k₀ k' s' := by
  obtain ⟨hs, hsee, m, hk⟩ := h
  cases ev with
  | call c q r =>
    obtain ⟨⟨k₁, ret⟩, hcall, hst⟩ := Option.bind_eq_some_iff.1 hst
    dsimp only at hst
    split at hst
    · next hret =>
      subst hret
      cases hst
      obtain ⟨hs', s', htake, hsee'⟩ := hsee.call hs hc hcall
      obtain ⟨m', rfl⟩ := PageCall.run_frame hcall
      subst hk
      exact ⟨s', htake, hs', hsee', m', rfl⟩
    · cases hst
  | load e va x =>
    obtain ⟨d, hd, hload⟩ := Option.bind_eq_some_iff.1 hst
    split at hload
    · next hx =>
      obtain rfl := Option.some.inj hload
      rw [← hx.2, hsee.load hs hd hx.1]
      exact ⟨s, .load, hs, hsee, m, hk⟩
    · cases hload
  | store e va v =>
    obtain ⟨d, hd, hst⟩ := Option.bind_eq_some_iff.1 hst
    obtain ⟨m', hm, hst⟩ := Option.bind_eq_some_iff.1 hst
    cases hst
    obtain ⟨l, hsp⟩ := hs.spaces
    obtain ⟨hdata, -⟩ := hsp.mmuStore hd (by decide) (.inr (by decide)) hm
    obtain ⟨p, f, hp, hf, hsee'⟩ := hsee.store hs hd hm
    subst hk
    exact ⟨_, .store hp hf, hs.phys hdata.spaces, hsee', m', rfl⟩

end Jos.User
