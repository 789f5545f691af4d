import Jos.Kern.Nic
import Jos.Kern.Demo

/-! The transmit ring of the network card.  The device is the one of Intel's manual: while
`TDH` differs from `TDT` it may transmit the descriptor at `TDH`, set its `DD` bit and move
`TDH` on. -/

namespace Jos.Kern

open Lib

def txSlot (d : E1000) (i : Nat) : List Byte :=
  (List.range (d.txqueue i).length.toNat).map (d.txbuffer i)

def transmit (d : Nic) : Nic :=
  let done := { d.txqueue d.tdh with status := (d.txqueue d.tdh).status ||| txdStatDD }
  { d with
    txqueue := Function.update d.txqueue d.tdh done
    tdh := (d.tdh + 1) % ntxdesc }

/-- The card, the packets that have gone out on the wire and the packets of the calls of
`txpacket` that returned 0. -/
structure Tx where
  nic : Nic
  sent : List (List Byte)
  accepted : List (List Byte)

/-- A call is made by a kernel that may be any as far as its memory goes. -/
inductive TxEvent
  | call (k : Kernel) (c : Cpu) (src length : Word)
  | transmit

def txBytes (k : Kernel) (c : Cpu) (src length : Word) : List Byte :=
  (copyIn k.toPhys (k.cpus c).cr3 length.toNat src).1

def txStep (s : Tx) : TxEvent → Option Tx
  | .call k c src length =>
    match txpacket { k with e1000 := s.nic.toE1000 } c src length with
    | (k', .ret r) =>
      some { s with
        nic := { s.nic with toE1000 := k'.e1000 }
        accepted := if r = 0 then s.accepted ++ [txBytes k c src length] else s.accepted }
    | (_, _) => none
  | .transmit =>
    if s.nic.tdh = s.nic.tdt.toNat then some s
    else some { s with nic := transmit s.nic, sent := s.sent ++ [txSlot s.nic.toE1000 s.nic.tdh] }

def txOwned (s : Tx) : List Nat := arc ntxdesc s.nic.tdh s.nic.tdt.toNat

def txQueued (s : Tx) : List (List Byte) := (txOwned s).map (txSlot s.nic.toE1000)

def txStart (d : Nic) : Tx := ⟨e1000Init d, [], []⟩

def txFilled (d : E1000) (length : Word) (bs : List Byte) : E1000 :=
  let tail := d.tdt.toNat
  { d with
    txqueue := Function.update d.txqueue tail
      { length := length.setWidth 16, cmd := 9, status := (d.txqueue tail).status &&& ~~~txdStatDD }
    txbuffer := Function.update d.txbuffer tail fun i =>
      if i < bs.length then bs.getD i 0 else d.txbuffer tail i
    tdt := BitVec.ofNat 32 ((tail + 1) % ntxdesc) }

theorem copyIn_length {m : Phys} {cr3 n : Nat} {va : Word} (h : (copyIn m cr3 n va).2 = false) :
    (copyIn m cr3 n va).1.length = n := by
  induction n generalizing va with
  | zero => rfl
  | succ n ih =>
    rw [copyIn] at h ⊢
    cases hl : mmuLoad m cr3 va 0 with
    | none =>
      rw [hl] at h
      cases h
    | some b =>
      rw [hl] at h
      rw [List.length_cons, ih h]

theorem txpacket_cases {k k' : Kernel} {c : Cpu} {src length r : Word}
    (h : txpacket k c src length = (k', .ret r)) :
    (r = -1 ∧ k'.e1000 = k.e1000 ∧ (k.e1000.txqueue k.e1000.tdt.toNat).status &&& txdStatDD = 0) ∨
    (r = 0 ∧ (k.e1000.txqueue k.e1000.tdt.toNat).status &&& txdStatDD ≠ 0 ∧
      ∃ n bs, n = (if txbuffsize < length then txbuffsize else length) ∧
        copyIn k.toPhys (k.cpus c).cr3 n.toNat src = (bs, false) ∧
        k'.e1000 = txFilled k.e1000 n bs) := by
  rw [txpacket] at h
  dsimp only at h
  split at h
  · next hbusy =>
    cases h
    exact .inl ⟨rfl, rfl, hbusy⟩
  · next hdd =>
    generalize hn : (if txbuffsize < length then txbuffsize else length) = n at h
    cases hbs : copyIn k.toPhys (k.cpus c).cr3 n.toNat src with
    | mk bs fault =>
      rw [hbs] at h
      cases fault with
      | true => cases h
      | false =>
        cases h
        exact .inr ⟨rfl, hdd, n, bs, rfl, hbs, rfl⟩

theorem txSlot_filled {d : E1000} {length : Word} {bs : List Byte} (hlen : bs.length = length.toNat)
    (hle : length ≤ txbuffsize) : txSlot (txFilled d length bs) d.tdt.toNat = bs := by
  have hlt : length.toNat ≤ 2048 := hle
  have hw : (length.setWidth 16).toNat = bs.length := by
    rw [BitVec.toNat_setWidth, hlen]
    exact Nat.mod_eq_of_lt (by omega)
  simp only [txSlot, txFilled, Function.update_self, hw]
  exact map_range_getD bs _

theorem txSlot_of_ne {d : E1000} {length : Word} {bs : List Byte} {i : Nat} (h : i ≠ d.tdt.toNat) :
    txSlot (txFilled d length bs) i = txSlot d i := by
  simp only [txSlot, txFilled, Function.update_of_ne h]

theorem txSlot_transmit (d : Nic) : txSlot (transmit d).toE1000 = txSlot d.toE1000 := by
  funext i
  by_cases h : i = d.tdh
  · subst h
    simp [txSlot, transmit]
  · simp [txSlot, transmit, Function.update_of_ne h]

structure TxRing (s : Tx) : Prop where
  holds : Holds ntxdesc (txSlot s.nic.toE1000) s.accepted s.sent.length
  sent : s.sent = s.accepted.take s.sent.length
  tdh : s.nic.tdh = s.sent.length % ntxdesc
  tdt : s.nic.tdt.toNat = s.accepted.length % ntxdesc
  room : s.accepted.length < s.sent.length + ntxdesc

/-- The driver is called while a slot beside its own is free, and with a packet that fits a
buffer. -/
def TxRoom (s : Tx) : TxEvent → Prop
  | .call _ _ _ length => length ≤ txbuffsize ∧ (s.nic.tdt.toNat + 1) % ntxdesc ≠ s.nic.tdh
  | .transmit => True

instance (s : Tx) : (ev : TxEvent) → Decidable (TxRoom s ev)
  | .call _ _ _ _ => inferInstanceAs (Decidable (_ ∧ _))
  | .transmit => inferInstanceAs (Decidable True)

namespace TxRing

variable {s t : Tx}

theorem start (d : Nic) : TxRing (txStart d) where
  holds := ⟨Nat.le_refl 0, Nat.zero_le _, fun _ _ => .inl rfl⟩
  sent := rfl
  tdh := rfl
  tdt := rfl
  room := Nat.zero_lt_succ _

theorem queued (h : TxRing s) : txQueued s = s.accepted.drop s.sent.length := by
  rw [txQueued, txOwned, h.tdh, h.tdt]
  exact h.holds.map_arc h.room

theorem faithful (h : TxRing s) : s.sent ++ txQueued s = s.accepted := by
  rw [h.queued]
  nth_rewrite 1 [h.sent]
  exact List.take_append_drop _ _

theorem lt_of_ne (h : TxRing s) (hne : (s.nic.tdt.toNat + 1) % ntxdesc ≠ s.nic.tdh) :
    s.accepted.length + 1 < s.sent.length + ntxdesc := by
  have hroom := h.room
  by_contra hge
  apply hne
  rw [h.tdt, h.tdh, Nat.mod_add_mod,
    show s.accepted.length + 1 = s.sent.length + ntxdesc by omega, Nat.add_mod_right]

theorem accept (h : TxRing s) {length : Word} {bs : List Byte} (hlen : bs.length = length.toNat)
    (hle : length ≤ txbuffsize) (hne : (s.nic.tdt.toNat + 1) % ntxdesc ≠ s.nic.tdh) :
    TxRing { s with
      nic := { s.nic with toE1000 := txFilled s.nic.toE1000 length bs }
      accepted := s.accepted ++ [bs] } := by
  have hroom := h.lt_of_ne hne
  have hslots : txSlot (txFilled s.nic.toE1000 length bs) =
      Function.update (txSlot s.nic.toE1000) (s.accepted.length % ntxdesc) bs := by
    funext i
    rw [← h.tdt]
    by_cases hi : i = s.nic.tdt.toNat
    · subst hi
      rw [Function.update_self]
      exact txSlot_filled hlen hle
    · rw [Function.update_of_ne hi]
      exact txSlot_of_ne hi
  constructor
  · dsimp only
    rw [hslots]
    exact (h.holds.store h.room).push h.room (Function.update_self _ _ _)
  · dsimp only
    rw [List.take_append_of_le_length h.holds.le]
    exact h.sent
  · exact h.tdh
  · dsimp only [txFilled]
    rw [h.tdt, Nat.mod_add_mod, List.length_append, List.length_singleton, BitVec.toNat_ofNat]
    exact Nat.mod_eq_of_lt (Nat.lt_trans (Nat.mod_lt _ (by decide)) (by decide))
  · dsimp only
    rw [List.length_append, List.length_singleton]
    exact hroom

theorem transmit (h : TxRing s) (hne : s.nic.tdh ≠ s.nic.tdt.toNat) :
    TxRing { s with
      nic := Kern.transmit s.nic
      sent := s.sent ++ [txSlot s.nic.toE1000 s.nic.tdh] } := by
  have hlt : s.sent.length < s.accepted.length := by
    apply Nat.lt_of_le_of_ne h.holds.le
    intro heq
    apply hne
    rw [h.tdh, h.tdt, heq]
  constructor
  · dsimp only
    rw [txSlot_transmit, List.length_append]
    exact h.holds.drop hlt
  · dsimp only
    rw [List.length_append, List.length_singleton, List.take_add_one, ← h.sent, h.tdh,
      h.holds.get hlt]
    rfl
  · dsimp only [Kern.transmit]
    rw [h.tdh, Nat.mod_add_mod, List.length_append, List.length_singleton]
  · exact h.tdt
  · dsimp only
    rw [List.length_append, List.length_singleton]
    have := h.room
    omega

theorem step {ev : TxEvent} (h : TxRing s) (hg : TxRoom s ev) (hst : txStep s ev = some t) :
    TxRing t := by
  cases ev with
  | call k c src length =>
    rw [txStep] at hst
    split at hst
    · next k' r hcall =>
      cases hst
      obtain ⟨rfl, hdev, -⟩ | ⟨rfl, -, n, bs, rfl, hbs, hdev⟩ := txpacket_cases hcall
      · rw [if_neg (by decide), hdev]
        exact h
      · have hn : (if txbuffsize < length then txbuffsize else length) = length :=
          if_neg (BitVec.not_lt.mpr hg.1)
        rw [hn] at hbs hdev
        have hlen : bs.length = length.toNat := by
          have := copyIn_length (congrArg Prod.snd hbs)
          rwa [hbs] at this
        have hbytes : txBytes k c src length = bs := congrArg Prod.fst hbs
        rw [if_pos rfl, hdev, hbytes]
        exact h.accept hlen hg.1 hg.2
    · cases hst
  | transmit =>
    rw [txStep] at hst
    split at hst
    · cases hst
      exact h
    · next hne =>
      cases hst
      exact h.transmit hne

end TxRing

theorem txStep_busy {s t : Tx} {k : Kernel} {c : Cpu} {src length : Word}
    (hst : txStep s (.call k c src length) = some t) {i : Nat}
    (hi : i ≠ s.nic.tdt.toNat ∨ (s.nic.txqueue i).status &&& txdStatDD = 0) :
    t.nic.txqueue i = s.nic.txqueue i ∧ t.nic.txbuffer i = s.nic.txbuffer i := by
  rw [txStep] at hst
  split at hst
  · next k' r hcall =>
    cases hst
    obtain ⟨rfl, hdev, -⟩ | ⟨rfl, hdd, n, bs, -, -, hdev⟩ := txpacket_cases hcall
    · dsimp only
      rw [hdev]
      exact ⟨rfl, rfl⟩
    · have hne : i ≠ s.nic.tdt.toNat := by
        rcases hi with hne | hbusy
        · exact hne
        · rintro rfl
          exact hdd hbusy
      dsimp only
      rw [hdev]
      exact ⟨Function.update_of_ne hne _ _, Function.update_of_ne hne _ _⟩
  · cases hst

theorem TxRing.notMem_owned {s : Tx} (h : TxRing s) : s.nic.tdt.toNat ∉ txOwned s := by
  intro hmem
  rw [txOwned, h.tdh, h.tdt, arc_mod h.holds.le h.room] at hmem
  simp only [List.mem_map, List.mem_range] at hmem
  obtain ⟨j, hj, heq⟩ := hmem
  have hroom := h.room
  exact Holds.mod_ne (show s.sent.length + j < s.accepted.length by omega) (by omega) heq

def echoKernel : Kernel where
  npages := 2
  mem := fun _ _ => 0x1007
  ppRef := fun _ => 0
  ppLink := fun _ => none
  pageFreeList := none
  kernPgdir := 0
  envs := fun _ => envZero
  envFreeList := none
  cpus := fun _ => ⟨.started, none, 0⟩
  ticks := 0
  e1000 := noE1000
  trace := []

def blankNic : Nic := ⟨noE1000, 0, 0⟩

def txFrame : TxEvent := .call echoKernel bootcpu 0 60

/-- In a run in which the ring never fills up and no packet is longer than a buffer, what went
out and what is queued are the packets of the successful calls, and no call touches a slot the
device owns. -/
theorem tx_faithful {d : Nic} {es : List TxEvent} {s : Tx}
    (hrun : Run txStep TxRoom (txStart d) es s) :
    s.sent ++ txQueued s = s.accepted ∧
    ∀ k c src length t, txStep s (.call k c src length) = some t →
      (∀ i ∈ txOwned s, t.nic.txqueue i = s.nic.txqueue i ∧ t.nic.txbuffer i = s.nic.txbuffer i) ∧
      ∀ i, (s.nic.txqueue i).status &&& txdStatDD = 0 →
        t.nic.txqueue i = s.nic.txqueue i ∧ t.nic.txbuffer i = s.nic.txbuffer i := by
  have h : TxRing s := hrun.invariant TxRing TxRing.step (TxRing.start d)
  refine ⟨h.faithful, fun k c src length t hst => ⟨fun i hi => ?_, fun i hi => ?_⟩⟩
  · apply txStep_busy hst
    apply Or.inl
    rintro rfl
    exact h.notMem_owned hi
  · exact txStep_busy hst (.inr hi)

theorem tx_faithful_two : ∃ s, Run txStep TxRoom (txStart blankNic)
    [txFrame, txFrame, .transmit] s ∧ s.sent ++ txQueued s = s.accepted ∧
    s.sent = [txBytes echoKernel bootcpu 0 60] ∧ txQueued s = [txBytes echoKernel bootcpu 0 60] := by
  obtain ⟨s, hrun, hs⟩ : ∃ s, Run txStep TxRoom (txStart blankNic)
      [txFrame, txFrame, .transmit] s ∧ s.sent = [txBytes echoKernel bootcpu 0 60] ∧
        txQueued s = [txBytes echoKernel bootcpu 0 60] := by
    apply Run.exists_ofFoldlM
    decide +kernel
  exact ⟨s, hrun, (tx_faithful hrun).1, hs⟩

/-- Sixty-four packets fill the ring, which the device then takes for an empty one; and of a
packet of 2049 bytes one byte is lost. -/
theorem tx_full_lost :
    (∃ s, Run txStep (fun _ _ => True) (txStart blankNic) (List.replicate 64 txFrame) s ∧
      s.accepted = List.replicate 64 (txBytes echoKernel bootcpu 0 60) ∧
      s.sent = [] ∧ txQueued s = [] ∧ s.nic.tdh = s.nic.tdt.toNat) ∧
    ∃ s, Run txStep (fun _ _ => True) (txStart blankNic)
        [.call echoKernel bootcpu 0 2049, .transmit] s ∧
      s.accepted.map List.length = [2049] ∧ s.sent.map List.length = [2048] := by
  refine ⟨Run.exists_ofFoldlM ?_, Run.exists_ofFoldlM ?_⟩
  · decide +kernel
  · decide +kernel

end Jos.Kern
