import Jos.Net.SysArch
import Jos.Lib.Ring
import Jos.Lib.Run

/-! A mailbox is a queue: whatever the threads do, messages come out in the order they went
in, and the two semaphores count them. -/

namespace Jos.Net

open Kern Lib

structure Stores (b : Mbox) (xs ys : List Word) : Prop where
  ring : Holds mboxslots b.msg xs ys.length
  head : b.head = if ys.length = xs.length then none else some (ys.length % mboxslots)
  nextq : b.nextq = xs.length % mboxslots
  fetched : ys = xs.take ys.length

namespace Stores

variable {b b' : Mbox} {xs ys : List Word} {msg : Word}

theorem congr (h : Stores b xs ys) (hhead : b'.head = b.head) (hnextq : b'.nextq = b.nextq)
    (hmsg : b'.msg = b.msg) : Stores b' xs ys where
  ring := hmsg ▸ h.ring
  head := hhead.trans h.head
  nextq := hnextq.trans h.nextq
  fetched := h.fetched

theorem head_ne (h : Stores b xs ys) (hroom : xs.length < ys.length + mboxslots) :
    b.head ≠ some b.nextq := by
  rw [h.head, h.nextq]
  split
  · nofun
  · next hne =>
    intro heq
    have hle := h.ring.le
    exact Holds.mod_ne (by omega) hroom (Option.some.inj heq)

theorem push (h : Stores b xs ys) (hroom : xs.length < ys.length + mboxslots) :
    Stores (b.put msg) (xs ++ [msg]) ys where
  ring := by
    dsimp only [Mbox.put]
    rw [h.nextq]
    exact (h.ring.store hroom).push hroom (Function.update_self _ _ _)
  head := by
    have hle := h.ring.le
    dsimp only [Mbox.put]
    rw [List.length_append, List.length_singleton, if_neg (show ys.length ≠ xs.length + 1 by omega),
      h.head]
    by_cases heq : ys.length = xs.length
    · rw [if_pos heq, if_pos rfl, h.nextq, heq]
    · rw [if_neg heq, if_neg (Option.some_ne_none _)]
  nextq := by
    dsimp only [Mbox.put]
    rw [h.nextq, Nat.mod_add_mod, List.length_append, List.length_singleton]
  fetched := by
    rw [List.take_append_of_le_length h.ring.le]
    exact h.fetched

theorem head_eq (h : Stores b xs ys) (hlt : ys.length < xs.length) :
    b.head = some (ys.length % mboxslots) := by
  rw [h.head, if_neg (Nat.ne_of_lt hlt)]

theorem pop (h : Stores b xs ys) (hlt : ys.length < xs.length) :
    Stores (b.drop (ys.length % mboxslots)) xs (ys ++ [b.msg (ys.length % mboxslots)]) where
  ring := by
    rw [List.length_append]
    exact h.ring.drop hlt
  head := by
    have hfits := h.ring.fits
    have hm : mboxslots = 32 := rfl
    dsimp only [Mbox.drop]
    rw [h.nextq, Nat.mod_add_mod, List.length_append, List.length_singleton]
    by_cases heq : ys.length + 1 = xs.length
    · rw [if_pos heq, heq, if_pos rfl]
    · rw [if_neg heq, if_neg (Holds.mod_ne (by omega) (by omega))]
  nextq := h.nextq
  fetched := by
    rw [List.length_append, List.length_singleton, List.take_add_one, ← h.fetched, h.ring.get hlt]
    rfl

theorem stored_eq (h : Stores b xs ys) : stored b = xs.drop ys.length := by
  have hle := h.ring.le
  have hfits := h.ring.fits
  have hm : mboxslots = 32 := rfl
  rw [stored]
  by_cases heq : ys.length = xs.length
  · rw [h.head, if_pos heq, heq, List.drop_length]
  · rw [h.head_eq (by omega), ← h.ring.map_range]
    dsimp only
    have hcount : (if b.nextq = ys.length % mboxslots then mboxslots
        else (b.nextq + mboxslots - ys.length % mboxslots) % mboxslots) = xs.length - ys.length := by
      rw [h.nextq]
      by_cases hfull : xs.length = ys.length + mboxslots
      · rw [hfull, Nat.add_mod_right, if_pos rfl, Nat.add_sub_cancel_left]
      · rw [if_neg (Holds.mod_ne (by omega) (by omega)).symm]
        exact mod_distance hle (by omega)
    rw [hcount]
    simp only [Nat.mod_add_mod]

end Stores

def Timed (now : Nat) : Pc → Prop
  | .idle => True
  | .test _ waited => waited.toNat ≤ now
  | .sleep _ waited a _ _ | .wait _ waited a _ _ _ _ | .yield _ waited a _ _ _ | .woken _ waited a =>
    waited.toNat ≤ a.toNat ∧ a.toNat ≤ now

theorem Timed.mono {now now' : Nat} {pc : Pc} (h : Timed now pc) (hle : now ≤ now') :
    Timed now' pc := by
  cases pc with
  | idle => trivial
  | test op waited => exact Nat.le_trans h hle
  | sleep op waited a val msec => exact ⟨h.1, Nat.le_trans h.2 hle⟩
  | wait op waited a val msec s p => exact ⟨h.1, Nat.le_trans h.2 hle⟩
  | yield op waited a val msec s => exact ⟨h.1, Nat.le_trans h.2 hle⟩
  | woken op waited a => exact ⟨h.1, Nat.le_trans h.2 hle⟩

structure Counts (s : Port) (q f : Nat) : Prop where
  queued : (s.mbox.sem .queuedMsg).counter.toNat = q
  free : (s.mbox.sem .freeMsg).counter.toNat = f

structure Flow (s : Port) : Prop where
  stores : Stores s.mbox s.posted s.fetched
  errMem : Out.errMem ∉ s.log
  clock : 10 * s.ticks < 2 ^ 32
  timed : ∀ j, Timed (10 * s.ticks) (s.thread j).pc

def waiting (s : Port) : Nat := s.posted.length - s.fetched.length

structure Fifo (s : Port) : Prop extends Flow s where
  counts : Counts s (waiting s) (mboxslots - waiting s)

section

variable {s : Port} {i j : SemId} {x : Sem} {tc : ThreadContext} {pc : Pc} {q f : Nat} {msg : Word}
  {op : Op} {waited : Word}

theorem sysSemSignal_counter : ((s.sysSemSignal i).mbox.sem j).counter =
    if j = i then (s.mbox.sem i).counter + 1 else (s.mbox.sem j).counter := by
  rw [Port.sysSemSignal]
  split
  · simp only [Port.setSem, Port.threadWakeup, Function.update_apply]
    split
    · rfl
    · rfl
  · simp only [Port.setSem, Function.update_apply]
    split
    · rfl
    · rfl

theorem sysSemSignal_same : (s.sysSemSignal i).mbox.head = s.mbox.head ∧
    (s.sysSemSignal i).mbox.nextq = s.mbox.nextq ∧ (s.sysSemSignal i).mbox.msg = s.mbox.msg ∧
    (s.sysSemSignal i).log = s.log ∧ (s.sysSemSignal i).ticks = s.ticks ∧
    ∀ k, ((s.sysSemSignal i).thread k).pc = (s.thread k).pc := by
  rw [Port.sysSemSignal]
  split
  · refine ⟨rfl, rfl, rfl, rfl, rfl, fun k => ?_⟩
    simp only [Port.threadWakeup]
    split
    · rfl
    · rfl
  · exact ⟨rfl, rfl, rfl, rfl, rfl, fun _ => rfl⟩

theorem Counts.signalQueued (h : Counts s q f) (hq : q < mboxslots) :
    Counts (s.sysSemSignal .queuedMsg) (q + 1) f where
  queued := by
    have hm : mboxslots = 32 := rfl
    rw [sysSemSignal_counter, if_pos rfl, BitVec.toNat_add, h.queued]
    exact Nat.mod_eq_of_lt (show q + 1 < 2 ^ 16 by omega)
  free := by
    rw [sysSemSignal_counter, if_neg nofun]
    exact h.free

theorem Counts.signalFree (h : Counts s q f) (hf : f < mboxslots) :
    Counts (s.sysSemSignal .freeMsg) q (f + 1) where
  queued := by
    rw [sysSemSignal_counter, if_neg nofun]
    exact h.queued
  free := by
    have hm : mboxslots = 32 := rfl
    rw [sysSemSignal_counter, if_pos rfl, BitVec.toNat_add, h.free]
    exact Nat.mod_eq_of_lt (show f + 1 < 2 ^ 16 by omega)

namespace Flow

theorem setSem (h : Flow s) : Flow (s.setSem i x) :=
  ⟨h.stores.congr rfl rfl rfl, h.errMem, h.clock, h.timed⟩

theorem setThread (h : Flow s) (ht : Timed (10 * s.ticks) tc.pc) : Flow (s.setThread tc) where
  stores := h.stores
  errMem := h.errMem
  clock := h.clock
  timed k := by
    by_cases hk : k = s.cur
    · subst hk
      simpa [Port.setThread] using ht
    · simpa [Port.setThread, hk] using h.timed k

theorem toNat_now (h : Flow s) : s.sysTimeMsec.toNat = 10 * s.ticks := by
  rw [Port.sysTimeMsec, BitVec.toNat_ofNat]
  exact Nat.mod_eq_of_lt h.clock

end Flow

theorem posted_ret {t : Port} {out : Out} (hlog : t.log = s.log) :
    (t.ret out).posted = s.posted ++ out.post?.toList := by
  simp only [Port.ret, Port.posted, hlog, List.filterMap_append]
  cases out <;> rfl

theorem fetched_ret {t : Port} {out : Out} (hlog : t.log = s.log) :
    (t.ret out).fetched = s.fetched ++ out.fetch?.toList := by
  simp only [Port.ret, Port.fetched, hlog, List.filterMap_append]
  cases out <;> rfl

namespace Flow

theorem ret {t : Port} {out : Out} (h : Flow s) (hlog : t.log = s.log) (hticks : t.ticks = s.ticks)
    (hpc : ∀ k, (t.thread k).pc = (s.thread k).pc) (hout : out ≠ .errMem)
    (hst : Stores t.mbox (s.posted ++ out.post?.toList) (s.fetched ++ out.fetch?.toList)) :
    Flow (t.ret out) where
  stores := by
    rw [posted_ret hlog, fetched_ret hlog]
    exact hst
  errMem := by
    simp only [Port.ret, hlog, List.mem_append, List.mem_singleton, not_or]
    exact ⟨h.errMem, hout.symm⟩
  clock := hticks ▸ h.clock
  timed k := by
    have hk : Timed (10 * s.ticks) (t.thread k).pc := by
      rw [hpc]
      exact h.timed k
    rw [← hticks] at hk
    by_cases hc : k = t.cur
    · subst hc
      simp [Port.ret, Port.setPc, Port.setThread, Timed]
    · simpa [Port.ret, Port.setPc, Port.setThread, hc] using hk

theorem signal_log (b : Mbox) : ({ s with mbox := b }.sysSemSignal i).log = s.log :=
  sysSemSignal_same.2.2.2.1

theorem signal {b : Mbox} {out : Out} (h : Flow s) (hout : out ≠ .errMem)
    (hst : Stores b (s.posted ++ out.post?.toList) (s.fetched ++ out.fetch?.toList)) :
    Flow (({ s with mbox := b }.sysSemSignal i).ret out) := by
  obtain ⟨h1, h2, h3, h4, h5, h6⟩ := sysSemSignal_same (s := { s with mbox := b }) (i := i)
  exact h.ret h4 h5 h6 hout (hst.congr h1 h2 h3)

theorem storeMsg (h : Flow s) (hroom : waiting s < mboxslots)
    (hc : Counts s (waiting s) (mboxslots - waiting s - 1)) :
    ∃ t, s.storeMsg msg = some t ∧ Fifo (t.ret (.posted msg)) := by
  have hle := h.stores.ring.le
  have hlen : s.posted.length < s.fetched.length + mboxslots := by
    rw [waiting] at hroom
    omega
  rw [Port.storeMsg, if_neg (h.stores.head_ne hlen)]
  refine ⟨_, rfl, h.signal nofun ?_, ?_⟩
  · change Stores _ (s.posted ++ [msg]) (s.fetched ++ [])
    rw [List.append_nil]
    exact h.stores.push hlen
  · have hwait (t : Port) (hlog : t.log = s.log) : waiting (t.ret (.posted msg)) = waiting s + 1 := by
      rw [waiting, waiting, posted_ret hlog, fetched_ret hlog]
      change (s.posted ++ [msg]).length - (s.fetched ++ []).length = _
      rw [List.append_nil, List.length_append, List.length_singleton]
      omega
    rw [hwait _ (signal_log _), ← Nat.sub_sub]
    have hput : Counts { s with mbox := s.mbox.put msg } _ _ := ⟨hc.queued, hc.free⟩
    exact ⟨(hput.signalQueued hroom).queued, (hput.signalQueued hroom).free⟩

theorem takeMsg (h : Flow s) (hpos : 0 < waiting s)
    (hc : Counts s (waiting s - 1) (mboxslots - waiting s)) :
    ∃ msg t, s.takeMsg = some (msg, t) ∧ Fifo (t.ret (.fetched msg)) := by
  have hlt : s.fetched.length < s.posted.length := by
    rw [waiting] at hpos
    omega
  have hle := h.stores.ring.fits
  have hw : waiting s = s.posted.length - s.fetched.length := rfl
  rw [Port.takeMsg, h.stores.head_eq hlt]
  refine ⟨_, _, rfl, h.signal nofun ?_, ?_⟩
  · change Stores _ (s.posted ++ []) (s.fetched ++ [_])
    rw [List.append_nil]
    exact h.stores.pop hlt
  · have hwait (t : Port) (m : Word) (hlog : t.log = s.log) :
        waiting (t.ret (.fetched m)) = waiting s - 1 := by
      rw [waiting, waiting, posted_ret hlog, fetched_ret hlog]
      change (s.posted ++ []).length - (s.fetched ++ [m]).length = _
      rw [List.append_nil, List.length_append, List.length_singleton]
      omega
    have hlt' : mboxslots - waiting s < mboxslots := by omega
    rw [hwait _ _ (signal_log _), show mboxslots - (waiting s - 1) = mboxslots - waiting s + 1 by omega]
    have hdrop : Counts { s with mbox := s.mbox.drop (s.fetched.length % mboxslots) } _ _ :=
      ⟨hc.queued, hc.free⟩
    exact ⟨(hdrop.signalFree hlt').queued, (hdrop.signalFree hlt').free⟩

end Flow

namespace Fifo

theorem timeout (h : Fifo s) : Fifo (s.ret .timeout) where
  toFlow := by
    refine h.toFlow.ret rfl rfl (fun _ => rfl) nofun ?_
    change Stores s.mbox (s.posted ++ []) (s.fetched ++ [])
    rw [List.append_nil, List.append_nil]
    exact h.stores
  counts := by
    have hwait : waiting (s.ret .timeout) = waiting s := by
      rw [waiting, waiting, posted_ret rfl, fetched_ret rfl]
      change (s.posted ++ []).length - (s.fetched ++ []).length = _
      rw [List.append_nil, List.append_nil]
    rw [hwait]
    exact ⟨h.counts.queued, h.counts.free⟩

theorem setThread (h : Fifo s) (ht : Timed (10 * s.ticks) tc.pc) : Fifo (s.setThread tc) :=
  ⟨h.toFlow.setThread ht, ⟨h.counts.queued, h.counts.free⟩⟩

theorem setWaiters (h : Fifo s) (hx : x.counter = (s.mbox.sem i).counter) : Fifo (s.setSem i x) where
  toFlow := h.toFlow.setSem
  counts := by
    have hsame : ∀ j, ((s.setSem i x).mbox.sem j).counter = (s.mbox.sem j).counter := by
      intro j
      simp only [Port.setSem, Function.update_apply]
      split
      · next hj => rw [hx, hj]
      · rfl
    exact ⟨(congrArg BitVec.toNat (hsame .queuedMsg)).trans h.counts.queued,
      (congrArg BitVec.toNat (hsame .freeMsg)).trans h.counts.free⟩

theorem setPc (h : Fifo s) (ht : Timed (10 * s.ticks) pc) : Fifo (s.setPc pc) := h.setThread ht

theorem waited_ne (h : Fifo s) (hw : waited.toNat ≤ 10 * s.ticks) : waited ≠ sysArchTimeout := by
  rintro rfl
  have h0 : sysArchTimeout.toNat = 4294967295 := rfl
  have hclock := h.clock
  omega

theorem countDown (h : Fifo s) (hpos : 0 < (s.mbox.sem i).counter) :
    Flow (s.setSem i { s.mbox.sem i with counter := (s.mbox.sem i).counter - 1 }) ∧
    ∀ j, ((s.setSem i { s.mbox.sem i with counter := (s.mbox.sem i).counter - 1 }).mbox.sem j).counter.toNat =
      (s.mbox.sem j).counter.toNat - if j = i then 1 else 0 := by
  refine ⟨h.toFlow.setSem, fun j => ?_⟩
  have hlt : 0 < (s.mbox.sem i).counter.toNat := hpos
  simp only [Port.setSem, Function.update_apply]
  split
  · next hj =>
    subst hj
    have h1 : (1 : BitVec 16).toNat = 1 := rfl
    rw [BitVec.toNat_sub, h1]
    omega
  · rfl

theorem post (h : Fifo s) (msg : Word) (hpos : 0 < (s.mbox.sem .freeMsg).counter) :
    ∃ t, (s.setSem .freeMsg { s.mbox.sem .freeMsg with
      counter := (s.mbox.sem .freeMsg).counter - 1 }).storeMsg msg = some t ∧
        Fifo (t.ret (.posted msg)) := by
  obtain ⟨hflow, hcount⟩ := h.countDown hpos
  have hlt : 0 < (s.mbox.sem .freeMsg).counter.toNat := hpos
  rw [h.counts.free] at hlt
  refine hflow.storeMsg (show waiting s < mboxslots by omega) ⟨?_, ?_⟩
  · exact (hcount .queuedMsg).trans h.counts.queued
  · refine (hcount .freeMsg).trans ?_
    rw [h.counts.free, if_pos rfl]
    rfl

theorem fetch (h : Fifo s) (hpos : 0 < (s.mbox.sem .queuedMsg).counter) :
    ∃ m t, (s.setSem .queuedMsg { s.mbox.sem .queuedMsg with
      counter := (s.mbox.sem .queuedMsg).counter - 1 }).takeMsg = some (m, t) ∧
        Fifo (t.ret (.fetched m)) := by
  obtain ⟨hflow, hcount⟩ := h.countDown hpos
  have hlt : 0 < (s.mbox.sem .queuedMsg).counter.toNat := hpos
  rw [h.counts.queued] at hlt
  refine hflow.takeMsg hlt ⟨?_, ?_⟩
  · refine (hcount .queuedMsg).trans ?_
    rw [h.counts.queued, if_pos rfl]
    rfl
  · exact (hcount .freeMsg).trans h.counts.free

theorem proceed (h : Fifo s) (hpos : 0 < (s.mbox.sem op.sem).counter)
    (hw : waited.toNat ≤ 10 * s.ticks) :
    ∃ t, (s.setSem op.sem { s.mbox.sem op.sem with
      counter := (s.mbox.sem op.sem).counter - 1 }).proceed op waited = some t ∧ Fifo t := by
  cases op with
  | post msg =>
    obtain ⟨t, ht, hf⟩ := h.post msg hpos
    exact ⟨_, congrArg (Option.map _) ht, hf⟩
  | trypost msg =>
    obtain ⟨t, ht, hf⟩ := h.post msg hpos
    refine ⟨t.ret (.posted msg), ?_, hf⟩
    simp only [Port.proceed, Op.sem, ht]
  | fetch tmMsec =>
    obtain ⟨m, t, ht, hf⟩ := h.fetch hpos
    refine ⟨t.ret (.fetched m), ?_, hf⟩
    simp only [Port.proceed, Op.sem, ht, if_neg (h.waited_ne hw), Option.map_some]
  | tryfetch =>
    obtain ⟨m, t, ht, hf⟩ := h.fetch hpos
    refine ⟨t.ret (.fetched m), ?_, hf⟩
    simp only [Port.proceed, Op.sem, ht, if_neg (h.waited_ne hw), Option.map_some]

theorem giveUp (h : Fifo s) (hop : op.tmMsec ≠ 0) :
    ∃ t, s.proceed op sysArchTimeout = some t ∧ Fifo t := by
  cases op with
  | post msg => exact absurd rfl hop
  | trypost msg => exact absurd rfl hop
  | fetch tmMsec => exact ⟨s.ret .timeout, by simp [Port.proceed], h.timeout⟩
  | tryfetch => exact ⟨s.ret .timeout, by simp [Port.proceed], h.timeout⟩

theorem semWait (h : Fifo s) (hw : waited.toNat ≤ 10 * s.ticks) :
    ∃ t, s.semWait op waited = some t ∧ Fifo t := by
  rw [Port.semWait]
  dsimp only
  split
  · split
    · next hpos => exact h.proceed hpos hw
    · split
      · next hnow =>
        apply h.giveUp
        rw [hnow]
        decide
      · refine ⟨_, rfl, (setWaiters h (i := op.sem) ?_).setPc ?_⟩
        · rfl
        have hnow := h.toNat_now
        exact ⟨by omega, Nat.le_of_eq hnow⟩
  · next hover =>
    apply h.giveUp
    exact fun h0 => hover (.inl h0)

theorem run (h : Fifo s) : ∃ t, s.run = some t ∧ Fifo t := by
  have ht := h.timed s.cur
  have hnow := h.toNat_now
  rw [Port.run]
  cases hpc : (s.thread s.cur).pc with
  | idle => exact ⟨s, rfl, h⟩
  | test op waited =>
    rw [hpc] at ht
    exact h.semWait ht
  | sleep op waited a val msec =>
    rw [hpc] at ht
    exact ⟨_, rfl, h.setThread ht⟩
  | wait op waited a val msec start p =>
    rw [hpc] at ht
    dsimp only
    split
    · exact ⟨_, rfl, h.setPc ht⟩
    · exact ⟨_, rfl, h.setThread ht⟩
  | yield op waited a val msec start =>
    rw [hpc] at ht
    exact ⟨_, rfl, h.setPc ht⟩
  | woken op waited a =>
    rw [hpc] at ht
    refine ⟨_, rfl, h.setPc ?_⟩
    -- the wait began at `a`, so what is added to `waited` ends now
    have hsub : (s.sysTimeMsec - a).toNat = 10 * s.ticks - a.toNat := by
      have := ht.2
      have := h.clock
      rw [BitVec.toNat_sub, hnow]
      omega
    have hclock := h.clock
    obtain ⟨h1, h2⟩ := ht
    change (waited + (s.sysTimeMsec - a)).toNat ≤ 10 * s.ticks
    rw [BitVec.toNat_add, hsub]
    omega

theorem step (h : Fifo s) (ev : PortEvent) : ∃ t, portStep s ev = some t ∧ Fifo t := by
  cases ev with
  | call op =>
    rw [portStep]
    split
    · exact ⟨_, rfl, h.setPc (Nat.zero_le _)⟩
    · exact ⟨s, rfl, h⟩
  | run => exact h.run
  | switch i =>
    rw [portStep]
    split
    · exact ⟨_, rfl, ⟨h.stores, h.errMem, h.clock, h.timed⟩, h.counts.queued, h.counts.free⟩
    · exact ⟨s, rfl, h⟩
  | tick =>
    rw [portStep]
    split
    · next hlt =>
      refine ⟨_, rfl, ⟨h.stores, h.errMem, hlt, fun j => (h.timed j).mono ?_⟩,
        h.counts.queued, h.counts.free⟩
      dsimp only
      omega
    · exact ⟨s, rfl, h⟩

theorem start {old b : Mbox} {size : Nat} (hb : sysMboxNew old size = some b) : Fifo (portStart b) := by
  rw [sysMboxNew] at hb
  split at hb
  · cases hb
    refine ⟨⟨⟨⟨Nat.le_refl 0, Nat.zero_le _, fun _ _ => .inl rfl⟩, rfl, rfl, rfl⟩, nofun, ?_, ?_⟩, rfl, rfl⟩
    · exact Nat.pow_pos (by decide)
    · exact fun _ => trivial
  · cases hb

end Fifo

end

/-- For any threads and any interleaving: messages are fetched in the order they were posted, the
semaphores count them, no `sys_mbox_trypost` runs out of slots, and no call panics. -/
theorem mbox_fifo {old b : Mbox} {size : Nat} {es : List PortEvent} {s : Port}
    (hb : sysMboxNew old size = some b) (hrun : Run portStep (fun _ _ => True) (portStart b) es s) :
    s.fetched <+: s.posted ∧
    stored s.mbox = s.posted.drop s.fetched.length ∧
    (stored s.mbox).length = (s.mbox.sem .queuedMsg).counter.toNat ∧
    (stored s.mbox).length + (s.mbox.sem .freeMsg).counter.toNat = mboxslots ∧
    Out.errMem ∉ s.log ∧
    ∀ ev, portStep s ev ≠ none := by
  have h : Fifo s := hrun.invariant Fifo (fun {t ev u} ht _ hst => by
    obtain ⟨u', hu, hf⟩ := ht.step ev
    rw [hst] at hu
    cases hu
    exact hf) (.start hb)
  have hlen : (stored s.mbox).length = waiting s := by
    rw [h.stores.stored_eq, List.length_drop]
    rfl
  refine ⟨?_, h.stores.stored_eq, hlen.trans h.counts.queued.symm, ?_, h.errMem, fun ev hnone => ?_⟩
  · rw [h.stores.fetched]
    exact List.take_prefix _ _
  · have hfits := h.stores.ring.fits
    have hw : waiting s = s.posted.length - s.fetched.length := rfl
    rw [hlen, h.counts.free]
    omega
  · obtain ⟨t, ht, -⟩ := h.step ev
    rw [ht] at hnone
    cases hnone

def blankMbox : Mbox := ⟨none, 0, fun _ => 0, fun _ => ⟨0, 0⟩⟩

theorem mbox_fifo_handover : ∃ b s, sysMboxNew blankMbox 4 = some b ∧
    Run portStep (fun _ _ => True) (portStart b)
      [.call (.fetch 0), .run, .run, .run, .switch 1, .call (.post 7), .run, .tick, .call (.post 8),
        .run, .switch 0, .run, .run, .run, .run] s ∧
    s.fetched <+: s.posted ∧ s.posted = [7, 8] ∧ s.fetched = [7] := by
  obtain ⟨s, hrun, hs⟩ : ∃ s, Run portStep (fun _ _ => True)
      (portStart ((sysMboxNew blankMbox 4).getD blankMbox))
      [.call (.fetch 0), .run, .run, .run, .switch 1, .call (.post 7), .run, .tick, .call (.post 8),
        .run, .switch 0, .run, .run, .run, .run] s ∧ s.posted = [7, 8] ∧ s.fetched = [7] := by
    apply Run.exists_ofFoldlM
    decide +kernel
  have hnew : sysMboxNew blankMbox 4 = some ((sysMboxNew blankMbox 4).getD blankMbox) := rfl
  exact ⟨_, s, hnew, hrun, (mbox_fifo hnew hrun).1, hs⟩

end Jos.Net
