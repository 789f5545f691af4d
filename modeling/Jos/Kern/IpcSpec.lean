import Jos.Kern.Sound

/-! `sys_ipc_try_send`, outcome by outcome. -/

namespace Jos.Kern

open Lib Phys Kernel

theorem ipcPage_cases {k : Kernel} {cur : EnvIx} {srcva perm : Word}
    {res : Except Word (Option Nat)} (h : ipcPage k cur srcva perm = some res) :
    (utop ≤ srcva ∧ res = .ok none) ∨ res = .error (-eInval) ∨
    ∃ pp, res = .ok (some pp) ∧ srcva < utop ∧ pgoff srcva = 0 ∧ permOk perm ∧
      ∃ t j, pageLookup k.toPhys (k.envs cur).envPgdir srcva = some (some (pp, t, j)) ∧
        ¬(perm &&& pteW ≠ 0 ∧ k.mem t j &&& pteW = 0) := by
  rw [ipcPage] at h
  split at h
  · next h1 =>
    cases h
    exact .inl ⟨h1, rfl⟩
  · next h1 =>
    split_ifs at h with h2 h3 h4
    · cases h
      exact .inr (.inl rfl)
    · cases h
      exact .inr (.inl rfl)
    · cases h
      exact .inr (.inl rfl)
    · obtain ⟨look, hlook, h⟩ := Option.bind_eq_some_iff.1 h
      cases look with
      | none =>
        cases h
        exact .inr (.inl rfl)
      | some look =>
        obtain ⟨pp, t, j⟩ := look
        simp only at h
        split at h
        · cases h
          exact .inr (.inl rfl)
        · next hw =>
          cases h
          simp only [not_or] at h3
          exact .inr (.inr ⟨pp, rfl, BitVec.not_le.1 h1, not_not.1 h2,
            ⟨h3.1, h3.2, not_not.1 h4⟩, t, j, hlook, hw⟩)

theorem ipcPage_some {k : Kernel} {cur : EnvIx} {srcva perm : Word} {pp : Nat}
    (h : ipcPage k cur srcva perm = some (.ok (some pp))) :
    srcva < utop ∧ pgoff srcva = 0 ∧ permOk perm ∧
      ∃ t j, pageLookup k.toPhys (k.envs cur).envPgdir srcva = some (some (pp, t, j)) ∧
        ¬(perm &&& pteW ≠ 0 ∧ k.mem t j &&& pteW = 0) := by
  rcases ipcPage_cases h with ⟨-, hr⟩ | hr | ⟨pp', hr, hrest⟩
  · cases hr
  · cases hr
  · cases hr
    exact hrest

/-- The outcomes of `sys_ipc_try_send`: refused, sent without a page, sent with a page the
receiver did not want, out of memory, sent with a page. -/
inductive SendStep (k : Kernel) (c : Cpu) (cur : EnvIx) (envid value srcva perm : Word) :
    Kernel → Word → Prop
  | refused {r} : r.slt 0 = true → SendStep k c cur envid value srcva perm k r
  | plain {e} : envid2env k c envid false = some e → (k.envs e).envIpcRecving = true →
      (k.envs e).envIpcFrom = 0 → utop ≤ srcva →
      SendStep k c cur envid value srcva perm (ipcDeliver k cur e value) 0
  | dropped {e pp} : envid2env k c envid false = some e → (k.envs e).envIpcRecving = true →
      (k.envs e).envIpcFrom = 0 → ipcPage k cur srcva perm = some (.ok (some pp)) →
      (k.envs e).envIpcDstva = 0 →
      SendStep k c cur envid value srcva perm (ipcDeliver k cur e value) 0
  | noMemory {e pp m r} : envid2env k c envid false = some e → (k.envs e).envIpcRecving = true →
      (k.envs e).envIpcFrom = 0 → ipcPage k cur srcva perm = some (.ok (some pp)) →
      (k.envs e).envIpcDstva ≠ 0 →
      pageInsert k.toPhys (k.envs e).envPgdir pp (k.envs e).envIpcDstva perm = some (m, r) →
      r.slt 0 = true →
      SendStep k c cur envid value srcva perm { k with toPhys := m } (-eNoMem)
  | mapped {e pp m r} : envid2env k c envid false = some e → (k.envs e).envIpcRecving = true →
      (k.envs e).envIpcFrom = 0 → ipcPage k cur srcva perm = some (.ok (some pp)) →
      (k.envs e).envIpcDstva ≠ 0 →
      pageInsert k.toPhys (k.envs e).envPgdir pp (k.envs e).envIpcDstva perm = some (m, r) →
      r.slt 0 = false →
      SendStep k c cur envid value srcva perm
        (ipcDeliver (Kernel.setEnv { k with toPhys := m } e
          { k.envs e with envIpcPerm := perm }) cur e value) 0

theorem sysIpcTrySend_step {k k' : Kernel} {c : Cpu} {cur : EnvIx} {envid value srcva perm r : Word}
    (h : sysIpcTrySend k c cur envid value srcva perm = some (k', .ret r)) :
    SendStep k c cur envid value srcva perm k' r := by
  rw [sysIpcTrySend] at h
  split at h
  · cases h
    exact .refused (by decide)
  · next e he =>
    split at h
    · cases h
      exact .refused (by decide)
    · next hrecv =>
      simp only [not_or, not_not] at hrecv
      obtain ⟨page, hpage, h⟩ := Option.bind_eq_some_iff.1 h
      rcases ipcPage_cases hpage with ⟨hsrc, rfl⟩ | rfl | ⟨pp, rfl, -⟩
      · cases h
        exact .plain he hrecv.1 hrecv.2 hsrc
      · cases h
        exact .refused (by decide)
      · simp only at h
        split at h
        · next hdst =>
          obtain ⟨⟨m, r'⟩, hins, h⟩ := Option.bind_eq_some_iff.1 h
          simp only at h
          split at h
          · next hneg =>
            cases h
            exact .noMemory he hrecv.1 hrecv.2 hpage hdst hins hneg
          · next hpos =>
            cases h
            exact .mapped he hrecv.1 hrecv.2 hpage hdst hins (Bool.eq_false_iff.2 hpos)
        · next hdst =>
          cases h
          exact .dropped he hrecv.1 hrecv.2 hpage (not_not.1 hdst)

namespace Sound

variable {b : Base} {k k' : Kernel} {e cur : EnvIx} {c : Cpu}

theorem note (h : Sound b k) (n : Note) : Sound b (k.note n) := h.congr rfl rfl rfl rfl

theorem ipcDeliver (h : Sound b k) (value : Word) : Sound b (ipcDeliver k cur e value) := by
  rw [Kern.ipcDeliver]
  apply Sound.note
  apply h.setEnv
  · rfl
  · rfl
  · rintro ⟨⟩

theorem ipcInsert (h : Sound b k) (hc : Counted k) {pp : Nat} {srcva dstva perm r : Word} {m : Phys}
    (hpage : ipcPage k cur srcva perm = some (.ok (some pp))) (hdst : dstva < utop)
    (hins : pageInsert k.toPhys (k.envs e).envPgdir pp dstva perm = some (m, r)) :
    (∃ l, Spaces b m k.dirs ∅ l) ∧
      (r.slt 0 = false → Maps k { k with toPhys := m } e dstva hdst (page2pa pp ||| perm ||| pteP)) := by
  obtain ⟨l, hsp⟩ := h.spaces
  obtain ⟨hsrc, -, hperm, t, j, hlook, -⟩ := ipcPage_some hpage
  obtain ⟨d, hd⟩ := pgdir_of_pageLookup hlook
  obtain ⟨d', hd'⟩ := pgdir_of_pageInsert hins
  rw [hd] at hlook
  rw [hd'] at hins
  obtain ⟨hpp, -⟩ := hsp.pageLookup_inv hd hsrc hlook
  rcases hsp.share hd' hdst hpp hperm hc with ⟨-, heq⟩ | ⟨m', l', heq, hsp', hins'⟩
  · rw [heq] at hins
    cases hins
    exact ⟨⟨l, hsp⟩, fun hr => absurd hr (by decide)⟩
  · rw [heq] at hins
    cases hins
    exact ⟨⟨l', hsp'⟩, fun _ => hins'.entry_eq⟩

theorem send (h : Sound b k) (hc : Counted k) {envid value srcva perm r : Word}
    (hs : SendStep k c cur envid value srcva perm k' r)
    (hdst : ∀ e, envid2env k c envid false = some e → (k.envs e).envIpcRecving = true →
      srcva < utop → (k.envs e).envIpcDstva < utop) : Sound b k' := by
  cases hs with
  | refused => exact h
  | plain => exact h.ipcDeliver value
  | dropped => exact h.ipcDeliver value
  | noMemory he hrecv _ hpage _ hins _ =>
    obtain ⟨⟨l, hsp⟩, -⟩ := h.ipcInsert hc hpage (hdst _ he hrecv (ipcPage_some hpage).1) hins
    exact h.phys hsp
  | @mapped e _ m _ he hrecv _ hpage _ hins _ =>
    obtain ⟨⟨l, hsp⟩, -⟩ := h.ipcInsert hc hpage (hdst _ he hrecv (ipcPage_some hpage).1) hins
    have hm : Sound b { k with toPhys := m } := h.phys hsp
    have hset : Sound b (Kernel.setEnv { k with toPhys := m } e
        { k.envs e with envIpcPerm := perm }) := hm.setEnv rfl rfl fun hf => h.free hf
    exact hset.ipcDeliver value

end Sound

end Jos.Kern
