import Jos.Kern.Nic
import Jos.Kern.Bytes
import Jos.Kern.Demo

/-! The receive ring of the network card.  The device is the one of Intel's manual: while
`RDH` differs from `RDT` it may fill the descriptor at `RDH` with a packet, set its `DD` bit and
move `RDH` on; otherwise it drops the packet. -/

namespace Jos.Kern

open Lib

def rxSlot (d : E1000) (i : Nat) : List Byte :=
  (List.range (d.rxqueue i).length.toNat).map (d.rxbuffer i)

def rxDone (d : E1000) (i : Nat) : Bool := (d.rxqueue i).status &&& rxdStatDD != 0

/-- The status bits are `DD` and `EOP`. -/
def receive (d : Nic) (p : List Byte) : Nic :=
  { d with
    rxqueue := Function.update d.rxqueue d.rdh ⟨BitVec.ofNat 16 p.length, 3⟩
    rxbuffer := Function.update d.rxbuffer d.rdh fun i =>
      if i < p.length then p.getD i 0 else d.rxbuffer d.rdh i
    rdh := (d.rdh + 1) % nrxdesc }

structure RxCall where
  kernel : Kernel
  cpu : Cpu
  dst : Word
  apart : Apart kernel.toPhys (kernel.cpus cpu).cr3 dst rxbuffsize.toNat

/-- The card, the packets the device has accepted and the packets that calls of `rxpacket` have
returned. -/
structure Rx where
  nic : Nic
  accepted : List (List Byte)
  returned : List (List Byte)

inductive RxEvent
  | call (x : RxCall)
  | receive (p : List Byte)

def rxBytes (k : Kernel) (c : Cpu) (dst r : Word) : List Byte :=
  (copyIn k.toPhys (k.cpus c).cr3 r.toNat dst).1

/-- A call that faults on `dst` does not come back. -/
def rxStep (s : Rx) : RxEvent → Option Rx
  | .call x =>
    match rxpacket { x.kernel with e1000 := s.nic.toE1000 } x.cpu x.dst with
    | (k', .ret r) =>
      some { s with
        nic := { s.nic with toE1000 := k'.e1000 }
        returned := if r = 0 then s.returned else s.returned ++ [rxBytes k' x.cpu x.dst r] }
    | (_, _) => none
  | .receive p =>
    if s.nic.rdh = s.nic.rdt.toNat then some s
    else some { s with nic := receive s.nic p, accepted := s.accepted ++ [p] }

def rxNext (d : E1000) : Nat := (d.rdt + 1).toNat % nrxdesc

def rxBetween (s : Rx) : List Nat := arc nrxdesc (rxNext s.nic.toE1000) s.nic.rdh

def rxWaiting (s : Rx) : List (List Byte) :=
  ((rxBetween s).filter (rxDone s.nic.toE1000)).map (rxSlot s.nic.toE1000)

def rxStart (d : Nic) : Rx := ⟨e1000Init d, [], []⟩

def rxTaken (d : E1000) : E1000 :=
  let tail := rxNext d
  { d with
    rxqueue := Function.update d.rxqueue tail
      { d.rxqueue tail with status := (d.rxqueue tail).status &&& ~~~rxdStatDD }
    rdt := BitVec.ofNat 32 tail }

theorem rxpacket_cases {k k' : Kernel} {c : Cpu} {dst r : Word}
    (h : rxpacket k c dst = (k', .ret r)) :
    (r = 0 ∧ k' = k ∧ rxDone k.e1000 (rxNext k.e1000) = false) ∨
    (rxDone k.e1000 (rxNext k.e1000) = true ∧
      r = (k.e1000.rxqueue (rxNext k.e1000)).length.setWidth 32 ∧
      k'.e1000 = rxTaken k.e1000 ∧ k'.cpus = k.cpus ∧
      copyOut (k.cpus c).cr3 k.toPhys
        (rxbytes k.e1000 (rxNext k.e1000) (k.e1000.rxqueue (rxNext k.e1000)).length.toNat) dst =
          (k'.toPhys, false)) := by
  rw [rxpacket] at h
  dsimp only at h
  split at h
  · next hdd =>
    cases h
    exact .inl ⟨rfl, rfl, by simpa [rxDone, rxNext] using hdd⟩
  · next hdd =>
    cases hout : copyOut (k.cpus c).cr3 k.toPhys
        (rxbytes k.e1000 (rxNext k.e1000) (k.e1000.rxqueue (rxNext k.e1000)).length.toNat) dst with
    | mk m fault =>
      rw [rxNext] at hout
      rw [hout] at h
      cases fault with
      | true => cases h
      | false =>
        cases h
        exact .inr ⟨by simpa [rxDone, rxNext] using hdd, rfl, rfl, rfl, rfl⟩

theorem rxbytes_eq {d : E1000} {i : Nat} (h : (d.rxqueue i).length.toNat ≤ 2048) :
    rxbytes d i (d.rxqueue i).length.toNat = rxSlot d i := by
  rw [rxbytes, rxSlot]
  apply List.map_congr_left
  intro o ho
  rw [List.mem_range] at ho
  rw [Nat.div_eq_of_lt (by omega), Nat.mod_eq_of_lt (by omega), Nat.add_zero]

theorem length_rxSlot (d : E1000) (i : Nat) : (rxSlot d i).length = (d.rxqueue i).length.toNat := by
  rw [rxSlot, List.length_map, List.length_range]

theorem rxSlot_taken (d : E1000) : rxSlot (rxTaken d) = rxSlot d := by
  funext i
  by_cases hi : i = rxNext d
  · subst hi
    simp [rxSlot, rxTaken]
  · simp [rxSlot, rxTaken, Function.update_of_ne hi]

theorem rxDone_taken (d : E1000) : rxDone (rxTaken d) = Function.update (rxDone d) (rxNext d) false := by
  funext i
  by_cases hi : i = rxNext d
  · subst hi
    rw [Function.update_self]
    simp [rxDone, rxTaken, BitVec.and_assoc, rxdStatDD]
  · simp [rxDone, rxTaken, Function.update_of_ne hi]

theorem rxSlot_receive {d : Nic} {p : List Byte} (hle : p.length ≤ 2048) :
    rxSlot (receive d p).toE1000 = Function.update (rxSlot d.toE1000) d.rdh p := by
  funext i
  by_cases hi : i = d.rdh
  · subst hi
    have hw : (BitVec.ofNat 16 p.length).toNat = p.length := by
      rw [BitVec.toNat_ofNat]
      exact Nat.mod_eq_of_lt (by omega)
    simp only [rxSlot, receive, Function.update_self, hw]
    exact map_range_getD p _
  · simp [rxSlot, receive, Function.update_of_ne hi]

theorem rxDone_receive (d : Nic) (p : List Byte) :
    rxDone (receive d p).toE1000 = Function.update (rxDone d.toE1000) d.rdh true := by
  funext i
  by_cases hi : i = d.rdh
  · subst hi
    rw [Function.update_self]
    simp only [rxDone, receive, Function.update_self]
    decide
  · simp [rxDone, receive, Function.update_of_ne hi]

def RxFits (_ : Rx) : RxEvent → Prop
  | .call _ => True
  | .receive p => 1 ≤ p.length ∧ p.length ≤ rxbuffsize.toNat

instance (s : Rx) : (ev : RxEvent) → Decidable (RxFits s ev)
  | .call _ => inferInstanceAs (Decidable True)
  | .receive _ => inferInstanceAs (Decidable (_ ∧ _))

/-- The card keeps the packets it has accepted in the slots of their numbers, and marks those
that no call has returned yet. -/
structure RxRing (s : Rx) : Prop where
  holds : Holds nrxdesc (rxSlot s.nic.toE1000) s.accepted s.returned.length
  returned : s.returned = s.accepted.take s.returned.length
  rdh : s.nic.rdh = s.accepted.length % nrxdesc
  rdt : s.nic.rdt.toNat = (s.returned.length + (nrxdesc - 1)) % nrxdesc
  room : s.accepted.length < s.returned.length + nrxdesc
  done : ∀ i, rxDone s.nic.toE1000 i = true ↔
    ∃ j, s.returned.length ≤ j ∧ j < s.accepted.length ∧ j % nrxdesc = i
  sizes : ∀ p ∈ s.accepted, 1 ≤ p.length ∧ p.length ≤ rxbuffsize.toNat

namespace RxRing

variable {s t : Rx}

theorem start (d : Nic) : RxRing (rxStart d) where
  holds := ⟨Nat.le_refl 0, Nat.zero_le _, fun _ _ => .inl rfl⟩
  returned := rfl
  rdh := rfl
  rdt := rfl
  room := Nat.zero_lt_succ _
  done i := by
    constructor
    · intro h
      exact absurd h (by simp [rxDone, rxStart, e1000Init, rxInit, rxdescInit])
    · rintro ⟨j, -, hj, -⟩
      exact absurd hj (Nat.not_lt_zero j)
  sizes := nofun

theorem next (h : RxRing s) : rxNext s.nic.toE1000 = s.returned.length % nrxdesc := by
  have hn : nrxdesc = 128 := rfl
  have hrdt := h.rdt
  rw [rxNext, BitVec.toNat_add, hrdt, hn]
  have h1 : (1 : Word).toNat = 1 := rfl
  rw [h1]
  omega

theorem between_eq (h : RxRing s) : rxBetween s =
    (List.range (s.accepted.length - s.returned.length)).map
      fun i => (s.returned.length + i) % nrxdesc := by
  rw [rxBetween, h.next, h.rdh]
  exact arc_mod h.holds.le h.room

theorem waiting (h : RxRing s) : rxWaiting s = s.accepted.drop s.returned.length := by
  have hall : (rxBetween s).filter (rxDone s.nic.toE1000) = rxBetween s := by
    apply List.filter_eq_self.mpr
    intro i hi
    rw [h.between_eq] at hi
    simp only [List.mem_map, List.mem_range] at hi
    obtain ⟨j, hj, rfl⟩ := hi
    exact (h.done _).mpr ⟨_, Nat.le_add_right _ j, by omega, rfl⟩
  rw [rxWaiting, hall, rxBetween, h.next, h.rdh]
  exact h.holds.map_arc h.room

theorem lt_of_done (h : RxRing s) (hd : rxDone s.nic.toE1000 (rxNext s.nic.toE1000) = true) :
    s.returned.length < s.accepted.length := by
  obtain ⟨j, hle, hlt, -⟩ := (h.done _).mp hd
  exact Nat.lt_of_le_of_lt hle hlt

theorem receive (h : RxRing s) {p : List Byte} (hne : s.nic.rdh ≠ s.nic.rdt.toNat)
    (hp : 1 ≤ p.length ∧ p.length ≤ rxbuffsize.toNat) :
    RxRing { s with nic := Kern.receive s.nic p, accepted := s.accepted ++ [p] } := by
  have hn : nrxdesc = 128 := rfl
  have hle := h.holds.le
  have hroom : s.accepted.length + 1 < s.returned.length + nrxdesc := by
    have := h.room
    by_contra hge
    apply hne
    rw [h.rdh, h.rdt, show s.accepted.length = s.returned.length + (nrxdesc - 1) by omega]
  constructor
  · dsimp only
    rw [rxSlot_receive hp.2, h.rdh]
    exact (h.holds.store h.room).push h.room (Function.update_self _ _ _)
  · dsimp only
    rw [List.take_append_of_le_length h.holds.le]
    exact h.returned
  · dsimp only [Kern.receive]
    rw [h.rdh, Nat.mod_add_mod, List.length_append, List.length_singleton]
  · exact h.rdt
  · dsimp only
    rw [List.length_append, List.length_singleton]
    exact hroom
  · intro i
    dsimp only
    rw [rxDone_receive, List.length_append, List.length_singleton, h.rdh]
    by_cases hi : i = s.accepted.length % nrxdesc
    · subst hi
      rw [Function.update_self]
      exact ⟨fun _ => ⟨_, hle, Nat.lt_succ_self _, rfl⟩, fun _ => rfl⟩
    · rw [Function.update_of_ne hi, h.done]
      constructor
      · rintro ⟨j, h1, h2, h3⟩
        exact ⟨j, h1, by omega, h3⟩
      · rintro ⟨j, h1, h2, h3⟩
        refine ⟨j, h1, Nat.lt_of_le_of_ne (by omega) ?_, h3⟩
        rintro rfl
        exact hi h3.symm
  · intro q hq
    rcases List.mem_append.mp hq with hq | hq
    · exact h.sizes q hq
    · rw [List.mem_singleton.mp hq]
      exact hp

theorem take (h : RxRing s) {p : List Byte} (hp : s.accepted[s.returned.length]? = some p) :
    RxRing { s with
      nic := { s.nic with toE1000 := rxTaken s.nic.toE1000 }
      returned := s.returned ++ [p] } := by
  have hn : nrxdesc = 128 := rfl
  have hlt : s.returned.length < s.accepted.length := (List.getElem?_eq_some_iff.mp hp).1
  have hroom := h.room
  have hlen : (s.returned ++ [p]).length = s.returned.length + 1 := by simp
  constructor
  · dsimp only
    rw [rxSlot_taken, hlen]
    exact h.holds.drop hlt
  · dsimp only
    rw [hlen, List.take_add_one, ← h.returned, hp]
    rfl
  · exact h.rdh
  · dsimp only [rxTaken]
    rw [hlen, h.next, BitVec.toNat_ofNat, hn]
    omega
  · dsimp only
    rw [hlen]
    omega
  · intro i
    dsimp only
    rw [rxDone_taken, h.next, hlen]
    by_cases hi : i = s.returned.length % nrxdesc
    · subst hi
      rw [Function.update_self]
      refine ⟨nofun, fun ⟨j, h1, h2, h3⟩ => ?_⟩
      exact absurd h3.symm (Holds.mod_ne h1 (by omega))
    · rw [Function.update_of_ne hi, h.done]
      constructor
      · rintro ⟨j, h1, h2, h3⟩
        refine ⟨j, Nat.lt_of_le_of_ne h1 ?_, h2, h3⟩
        rintro rfl
        exact hi h3.symm
      · rintro ⟨j, h1, h2, h3⟩
        exact ⟨j, by omega, h2, h3⟩
  · exact h.sizes

theorem read (h : RxRing s) {x : RxCall} {k' : Kernel} {r : Word} {p : List Byte}
    (hp : s.accepted[s.returned.length]? = some p)
    (hr : r = (s.nic.rxqueue (rxNext s.nic.toE1000)).length.setWidth 32)
    (hcpus : k'.cpus = x.kernel.cpus)
    (hout : copyOut (x.kernel.cpus x.cpu).cr3 x.kernel.toPhys
      (rxbytes s.nic.toE1000 (rxNext s.nic.toE1000)
        (s.nic.rxqueue (rxNext s.nic.toE1000)).length.toNat) x.dst = (k'.toPhys, false)) :
    r ≠ 0 ∧ rxBytes k' x.cpu x.dst r = p := by
  have hlt : s.returned.length < s.accepted.length := (List.getElem?_eq_some_iff.mp hp).1
  have hslot : rxSlot s.nic.toE1000 (rxNext s.nic.toE1000) = p := by
    have hget := h.holds.get hlt
    rw [hp] at hget
    rw [h.next]
    exact (Option.some.inj hget).symm
  obtain ⟨hpos, hle⟩ := h.sizes p (List.mem_of_getElem? hp)
  have hlen : (s.nic.rxqueue (rxNext s.nic.toE1000)).length.toNat = p.length := by
    rw [← length_rxSlot, hslot]
  have hbuf : rxbuffsize.toNat = 2048 := rfl
  rw [rxbytes_eq (by omega), hslot] at hout
  have hrlen : r.toNat = p.length := by
    rw [hr, BitVec.toNat_setWidth, hlen]
    exact Nat.mod_eq_of_lt (by omega)
  constructor
  · rintro rfl
    have h0 : (0 : Word).toNat = 0 := rfl
    omega
  · have hback := (copyOut_back (fun i hi => x.apart i (by omega)) (by omega) hout).back
    rw [rxBytes, hrlen, hcpus, hback]

theorem step {ev : RxEvent} (h : RxRing s) (hg : RxFits s ev) (hst : rxStep s ev = some t) :
    RxRing t := by
  cases ev with
  | call x =>
    rw [rxStep] at hst
    split at hst
    · next k' r hcall =>
      cases hst
      obtain ⟨rfl, rfl, -⟩ | ⟨hdone, hr, hdev, hcpus, hout⟩ := rxpacket_cases hcall
      · rw [if_pos rfl]
        exact h
      · obtain ⟨p, hp⟩ : ∃ p, s.accepted[s.returned.length]? = some p :=
          ⟨_, List.getElem?_eq_getElem (h.lt_of_done hdone)⟩
        obtain ⟨hr0, hbytes⟩ := h.read hp hr hcpus hout
        rw [if_neg hr0, hdev, hbytes]
        exact h.take hp
    · cases hst
  | receive p =>
    rw [rxStep] at hst
    split at hst
    · cases hst
      exact h
    · next hne =>
      cases hst
      exact h.receive hne hg

end RxRing

def RxDevice (s : Rx) (ev : RxEvent) : Prop := (∃ p, ev = .receive p) ∧ RxFits s ev

theorem rxDevice_keeps {s t : Rx} {ev : RxEvent} {i : Nat} (h : RxRing s)
    (hi : i = s.returned.length % nrxdesc) (hlt : s.returned.length < s.accepted.length)
    (hev : RxDevice s ev) (hst : rxStep s ev = some t) :
    t.returned = s.returned ∧ s.accepted.length ≤ t.accepted.length ∧
      t.nic.rdt = s.nic.rdt ∧ t.nic.rxqueue i = s.nic.rxqueue i ∧
      t.nic.rxbuffer i = s.nic.rxbuffer i := by
  obtain ⟨⟨p, rfl⟩, -⟩ := hev
  rw [rxStep] at hst
  split at hst
  · cases hst
    exact ⟨rfl, Nat.le_refl _, rfl, rfl, rfl⟩
  · cases hst
    have hne : i ≠ s.nic.rdh := by
      rw [hi, h.rdh]
      exact Holds.mod_ne hlt h.room
    refine ⟨rfl, ?_, rfl, Function.update_of_ne hne _ _, Function.update_of_ne hne _ _⟩
    rw [List.length_append]
    exact Nat.le_add_right _ _

/-- In a run in which every packet has at least one byte, the calls return the packets the device
accepted, in order; the others wait between `RDT` and `RDH`; and however many packets come in
while `rxpacket` reads a slot, the device does not write it. -/
theorem rx_faithful {d : Nic} {es : List RxEvent} {s : Rx}
    (hrun : Run rxStep RxFits (rxStart d) es s) :
    s.returned <+: s.accepted ∧
    rxWaiting s = s.accepted.drop s.returned.length ∧
    (rxDone s.nic.toE1000 (rxNext s.nic.toE1000) = true →
      ∀ es' t, Run rxStep RxDevice s es' t →
        t.nic.rxqueue (rxNext s.nic.toE1000) = s.nic.rxqueue (rxNext s.nic.toE1000) ∧
        t.nic.rxbuffer (rxNext s.nic.toE1000) = s.nic.rxbuffer (rxNext s.nic.toE1000)) := by
  have h : RxRing s := hrun.invariant RxRing RxRing.step (RxRing.start d)
  refine ⟨?_, h.waiting, fun hdone es' t hdev => ?_⟩
  · rw [h.returned]
    exact List.take_prefix _ _
  · have hlt := h.lt_of_done hdone
    have hnext := h.next
    generalize rxNext s.nic.toE1000 = i at hnext ⊢
    obtain ⟨-, -, -, hslot⟩ := hdev.invariant
      (fun t => RxRing t ∧ t.returned = s.returned ∧ s.accepted.length ≤ t.accepted.length ∧
        t.nic.rxqueue i = s.nic.rxqueue i ∧ t.nic.rxbuffer i = s.nic.rxbuffer i)
      (fun {t ev u} ht hev hst => by
        obtain ⟨hring, hret, hle, hq, hb⟩ := ht
        have hkeep := rxDevice_keeps hring (i := i) (by rw [hret, hnext]) (by rw [hret]; omega) hev hst
        obtain ⟨hret', hle', -, hq', hb'⟩ := hkeep
        exact ⟨hring.step hev.2 hst, hret'.trans hret, Nat.le_trans hle hle', hq'.trans hq,
          hb'.trans hb⟩)
      ⟨h, rfl, Nat.le_refl _, rfl, rfl⟩
    exact hslot

def mirrorKernel : Kernel where
  npages := 3
  mem := fun p _ => if p = 0 then 0x1007 else if p = 1 then 0x2007 else 0
  ppRef := fun _ => 0
  ppLink := fun _ => none
  pageFreeList := none
  kernPgdir := 0
  envs := fun _ => envZero
  envFreeList := none
  cpus := fun _ => ⟨.started, none, 0⟩
  ticks := 0
  e1000 := noE1000
  trace := []

theorem mirrorKernel_apart (va : Word) (n : Nat) : Apart mirrorKernel.toPhys 0 va n := by
  intro i _ p hp
  have h : translate mirrorKernel.toPhys 0 (va + BitVec.ofNat 32 i) pteW = some 2 := by
    have hdir : ∀ j, mirrorKernel.mem 0 j = 0x1007 := fun _ => rfl
    have htab : ∀ j, mirrorKernel.mem 1 j = 0x2007 := fun _ => rfl
    have hpg : pgnum 0x1007 = 1 := by decide
    simp only [translate, mmuWalk, hdir, hpg, htab]
    decide
  rw [h] at hp
  cases hp
  refine ⟨by decide, by decide, fun j => ?_⟩
  exact (by decide : pgnum 0x1007 ≠ 2)

def rxRead : RxEvent := .call ⟨mirrorKernel, bootcpu, 0, mirrorKernel_apart 0 _⟩

def rxNic : Nic := ⟨noE1000, 0, 0⟩

theorem rx_faithful_two : ∃ s, Run rxStep RxFits (rxStart rxNic)
    [.receive [1, 2], .receive [3], rxRead] s ∧ s.returned <+: s.accepted ∧
    rxWaiting s = s.accepted.drop s.returned.length ∧
    s.returned = [[1, 2]] ∧ s.accepted = [[1, 2], [3]] := by
  obtain ⟨s, hrun, hs⟩ : ∃ s, Run rxStep RxFits (rxStart rxNic)
      [.receive [1, 2], .receive [3], rxRead] s ∧
        s.returned = [[1, 2]] ∧ s.accepted = [[1, 2], [3]] := by
    apply Run.exists_ofFoldlM
    decide +kernel
  exact ⟨s, hrun, (rx_faithful hrun).1, (rx_faithful hrun).2.1, hs⟩

/-- A packet without bytes is taken by a call that returns 0, as if there had been none. -/
theorem rx_empty_lost : ∃ s, Run rxStep (fun _ _ => True) (rxStart rxNic)
    [.receive [], .receive [3], rxRead, rxRead] s ∧
    s.accepted = [[], [3]] ∧ s.returned = [[3]] ∧ ¬ s.returned <+: s.accepted := by
  apply Run.exists_ofFoldlM
  decide +kernel

end Jos.Kern
