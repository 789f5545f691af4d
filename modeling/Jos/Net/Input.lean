import Jos.Kern.State
import Jos.Lib.Image
import Jos.Lib.Run

/-! The way of a received packet: `input` (`net/input.c`) copies it to the page of `nsipcbuf` and
sends the page; a thread of the network server reads it there, in `low_level_input`
(`net/lwip/jos/jif/jif.c`).  The two environments share the page, and either may be stopped
between two bytes. -/

namespace Jos.Net

open Kern Lib

/-- Where `input` is.  Of the packet it copies, `i` bytes are done; of the 500 yields, `i`. -/
inductive InputPc
  | polling
  | copying (pkt : List Byte) (i : Nat)
  | sending (pkt : List Byte)
  | resting (i : Nat)

/-- Where the main loop of the server is; a packet has arrived until its thread is made. -/
inductive ServePc
  | top
  | receiving
  | arrived
  deriving DecidableEq

/-- A thread that serves `NSREQ_INPUT`.  In `low_level_input`, `chain` are the sizes of the pbufs
still to be filled, `left` the bytes to go in this one and `got` those that were copied. -/
inductive Reader
  | created
  | reading (len : Nat) (chain : List Nat) (left : Nat) (got : List Byte)

/-- `sent` and `received` are the packets that went out with `ipc_send` and those that
`low_level_input` has returned. -/
structure Link where
  page : Lib.Image
  input : InputPc
  serve : ServePc
  readers : List Reader
  sent : List (List Byte)
  received : List (List Byte)

def jpLen (page : Lib.Image) : Nat := ((page.word 0).setWidth 16).toInt.toNat

namespace Link

variable (s : Link)

def inputStep : Link :=
  match s.input with
  | .polling => s
  | .copying pkt i =>
    match pkt[i]? with
    | some b => { s with page := Function.update s.page (4 + i) b, input := .copying pkt (i + 1) }
    | none => { s with page := s.page.putWord 0 (BitVec.ofNat 32 pkt.length), input := .sending pkt }
  | .sending pkt =>
    if s.serve = .receiving then
      { s with serve := .arrived, input := .resting 0, sent := s.sent ++ [pkt] }
    else s
  | .resting i => if i < 500 then { s with input := .resting (i + 1) } else { s with input := .polling }

/-- The next step of thread `i`.  `alloc` is the chain of `pbuf_alloc`, or `none`. -/
def readStep (i : Nat) (alloc : Option (List Nat)) : Option Link :=
  match s.readers[i]? with
  | none => none
  | some .created =>
    match alloc with
    | none => some { s with readers := s.readers.eraseIdx i }
    | some chain => some { s with readers := s.readers.set i (.reading (jpLen s.page) chain 0 []) }
  | some (.reading len chain (left + 1) got) =>
    some { s with readers := s.readers.set i (.reading len chain left (got ++ [s.page (4 + got.length)])) }
  | some (.reading len (q :: chain) 0 got) =>
    some { s with readers := s.readers.set i (.reading len chain (min q (len - got.length)) got) }
  | some (.reading _ [] 0 got) =>
    some { s with readers := s.readers.eraseIdx i, received := s.received ++ [got] }

end Link

/-- `rx` is what `sys_rxpacket` gives; without a packet `input` yields.  `other` is a message that
is no packet. -/
inductive LinkEvent
  | rx (pkt : List Byte)
  | input
  | listen
  | other
  | create (ok : Bool)
  | read (i : Nat) (alloc : Option (List Nat))

def linkStep (s : Link) : LinkEvent → Option Link
  | .rx pkt =>
    match s.input with
    | .polling => some (if pkt = [] then s else { s with input := .copying pkt 0 })
    | _ => none
  | .input => some s.inputStep
  | .listen => if s.serve = .top then some { s with serve := .receiving } else none
  | .other => if s.serve = .receiving then some { s with serve := .top } else none
  | .create ok =>
    if s.serve = .arrived then
      some { s with serve := .top, readers := if ok then s.readers ++ [.created] else s.readers }
    else none
  | .read i alloc => if s.serve = .receiving then none else s.readStep i alloc

def linkStart (page : Lib.Image) : Link := ⟨page, .polling, .top, [], [], []⟩

def Link.unread (s : Link) : Nat := (if s.serve = .arrived then 1 else 0) + s.readers.length

namespace LinkEvent

variable (s : Link)

/-- A packet is no longer than a buffer of the device, and `pbuf_alloc` gives what it is asked for. -/
def Legal : LinkEvent → Prop
  | .rx pkt => pkt.length ≤ 2048
  | .read _ alloc => ∀ chain ∈ alloc, chain.sum = jpLen s.page
  | _ => True

/-- The last packet has been read before the next one is copied, and no memory is short. -/
def Paced : LinkEvent → Prop
  | .rx pkt => pkt ≠ [] → s.unread = 0
  | .create ok => ok = true
  | .read _ alloc => alloc ≠ none
  | _ => True

end LinkEvent

def HoldsPacket (page : Lib.Image) (pkt : List Byte) : Prop :=
  page.word 0 = BitVec.ofNat 32 pkt.length ∧ ∀ i b, pkt[i]? = some b → page (4 + i) = b

def InputOk (page : Lib.Image) : InputPc → Prop
  | .copying pkt i => pkt.length ≤ 2048 ∧ ∀ j b, j < i → pkt[j]? = some b → page (4 + j) = b
  | .sending pkt => pkt.length ≤ 2048 ∧ HoldsPacket page pkt
  | _ => True

def InputPc.Away : InputPc → Prop
  | .polling | .resting _ => True
  | _ => False

def ReaderOk (pkt : List Byte) : Reader → Prop
  | .created => True
  | .reading len chain left got =>
    len = pkt.length ∧ got <+: pkt ∧ got.length + left + chain.sum = pkt.length

inductive Stage (s : Link) : Prop
  | idle : s.serve ≠ .arrived → s.readers = [] → s.sent = s.received → InputOk s.page s.input → Stage s
  | flight (pkt : List Byte) : s.sent = s.received ++ [pkt] → pkt.length ≤ 2048 →
      HoldsPacket s.page pkt → s.input.Away →
      (s.serve = .arrived ∧ s.readers = [] ∨
        s.serve ≠ .arrived ∧ ∃ r, s.readers = [r] ∧ ReaderOk pkt r) → Stage s

namespace HoldsPacket

variable {page : Lib.Image} {pkt : List Byte}

theorem jpLen_eq (h : HoldsPacket page pkt) (hlen : pkt.length ≤ 2048) : jpLen page = pkt.length := by
  have hbound : (BitVec.ofNat 32 pkt.length).toNat = pkt.length := by
    rw [BitVec.toNat_ofNat]
    exact Nat.mod_eq_of_lt (by omega)
  have hcut : ((BitVec.ofNat 32 pkt.length).setWidth 16).toNat = pkt.length := by
    rw [BitVec.toNat_setWidth, hbound]
    exact Nat.mod_eq_of_lt (by omega)
  rw [jpLen, h.1, BitVec.toInt_eq_toNat_of_lt (by omega), hcut, Int.toNat_natCast]

theorem of_copied (hcopy : ∀ j b, pkt[j]? = some b → page (4 + j) = b) :
    HoldsPacket (page.putWord 0 (BitVec.ofNat 32 pkt.length)) pkt :=
  ⟨Lib.Image.word_putWord, fun j b hj =>
    (Lib.Image.put_of_notMem (by omega)).trans (hcopy j b hj)⟩

theorem read_next (h : HoldsPacket page pkt) {got : List Byte} (hgot : got <+: pkt)
    (hlt : got.length < pkt.length) : got ++ [page (4 + got.length)] <+: pkt := by
  obtain ⟨rest, rfl⟩ := hgot
  cases rest with
  | nil =>
    rw [List.append_nil] at hlt
    exact absurd hlt (Nat.lt_irrefl _)
  | cons b rest =>
    have hb := h.2 got.length b (by rw [List.getElem?_append_right (Nat.le_refl _), Nat.sub_self]; rfl)
    rw [hb]
    exact ⟨rest, List.append_assoc ..⟩

end HoldsPacket

section

variable {s s' : Link}

theorem InputPc.Away.ok {pc : InputPc} (h : pc.Away) (page : Lib.Image) : InputOk page pc := by
  cases pc with
  | polling => trivial
  | copying => exact h.elim
  | sending => exact h.elim
  | resting => trivial

theorem Stage.input (h : Stage s) : Stage s.inputStep := by
  obtain ⟨page, pc, serve, readers, sent, received⟩ := s
  cases pc with
  | polling => exact h
  | copying pkt i =>
    cases h with
    | flight _ _ _ _ haway => exact haway.elim
    | idle h1 h2 h3 h4 =>
      obtain ⟨hlen, hcopy⟩ := h4
      rw [Link.inputStep]
      dsimp only
      cases hb : pkt[i]? with
      | none =>
        have hall : ∀ j b, pkt[j]? = some b → page (4 + j) = b := by
          intro j b hj
          refine hcopy j b ?_ hj
          have hj' := (List.getElem?_eq_some_iff.mp hj).1
          have hi := List.getElem?_eq_none_iff.mp hb
          omega
        exact .idle h1 h2 h3 ⟨hlen, .of_copied hall⟩
      | some b =>
        refine .idle h1 h2 h3 ⟨hlen, fun j c hj hc => ?_⟩
        dsimp only
        by_cases hji : j = i
        · subst hji
          rw [hb] at hc
          cases hc
          exact Function.update_self ..
        · rw [Function.update_of_ne (by omega)]
          exact hcopy j c (by omega) hc
  | sending pkt =>
    cases h with
    | flight _ _ _ _ haway => exact haway.elim
    | idle h1 h2 h3 h4 =>
      rw [Link.inputStep]
      dsimp only
      split
      · refine .flight pkt ?_ h4.1 h4.2 trivial (.inl ⟨rfl, h2⟩)
        dsimp only at h3 ⊢
        rw [h3]
      · exact .idle h1 h2 h3 h4
  | resting i =>
    rw [Link.inputStep]
    dsimp only
    split
    · cases h with
      | idle h1 h2 h3 _ => exact .idle h1 h2 h3 trivial
      | flight pkt h1 h2 h3 _ h5 => exact .flight pkt h1 h2 h3 trivial h5
    · cases h with
      | idle h1 h2 h3 _ => exact .idle h1 h2 h3 trivial
      | flight pkt h1 h2 h3 _ h5 => exact .flight pkt h1 h2 h3 trivial h5

theorem Stage.read {i : Nat} {alloc : Option (List Nat)} (h : Stage s)
    (hl : ∀ chain ∈ alloc, chain.sum = jpLen s.page) (hp : alloc ≠ none)
    (hst : s.readStep i alloc = some s') : Stage s' := by
  obtain ⟨page, pc, serve, readers, sent, received⟩ := s
  cases h with
  | idle _ h2 _ _ =>
    dsimp only at h2
    subst h2
    cases hst
  | flight pkt h1 h2 h3 h4 h5 =>
    rcases h5 with ⟨-, h5⟩ | ⟨hserve, r, h5, hr⟩
    · dsimp only at h5
      subst h5
      cases hst
    · dsimp only at h5 h1 h3 hserve
      subst h5 h1
      cases i with
      | succ i => cases hst
      | zero =>
        cases r with
        | created =>
          cases alloc with
          | none => exact absurd rfl hp
          | some chain =>
            cases hst
            refine .flight pkt rfl h2 h3 h4 (.inr ⟨hserve, _, rfl, h3.jpLen_eq h2, List.nil_prefix, ?_⟩)
            rw [hl chain rfl]
            dsimp only
            rw [h3.jpLen_eq h2]
            exact Nat.zero_add _
        | reading len chain left got =>
          obtain ⟨hlen, hgot, hsum⟩ := hr
          cases left with
          | succ left =>
            cases hst
            refine .flight pkt rfl h2 h3 h4 (.inr ⟨hserve, _, rfl, hlen, h3.read_next hgot (by omega), ?_⟩)
            rw [List.length_append, List.length_singleton]
            omega
          | zero =>
            cases chain with
            | cons q chain =>
              cases hst
              rw [List.sum_cons] at hsum
              refine .flight pkt rfl h2 h3 h4 (.inr ⟨hserve, _, rfl, hlen, hgot, ?_⟩)
              rw [Nat.min_eq_left (by omega)]
              omega
            | nil =>
              cases hst
              have heq : got = pkt := hgot.eq_of_length hsum
              rw [heq]
              exact .idle hserve rfl rfl (h4.ok page)

theorem Stage.turn {pc : ServePc} (h : Stage s) (hs : s.serve ≠ .arrived) (hpc : pc ≠ .arrived) :
    Stage { s with serve := pc } := by
  cases h with
  | idle _ h2 h3 h4 => exact .idle hpc h2 h3 h4
  | flight pkt h1 h2 h3 h4 h5 =>
    rcases h5 with ⟨h5, -⟩ | ⟨-, h5⟩
    · exact absurd h5 hs
    · exact .flight pkt h1 h2 h3 h4 (.inr ⟨hpc, h5⟩)

theorem Stage.step {e : LinkEvent} (h : Stage s) (hl : e.Legal s) (hp : e.Paced s)
    (hst : linkStep s e = some s') : Stage s' := by
  cases e with
  | rx pkt =>
    obtain ⟨page, pc, serve, readers, sent, received⟩ := s
    cases pc with
    | copying | sending | resting => cases hst
    | polling =>
      cases hst
      split
      · exact h
      · next hne =>
        have hunread := hp hne
        cases h with
        | idle h1 h2 h3 _ => exact .idle h1 h2 h3 ⟨hl, fun j b hj => absurd hj (Nat.not_lt_zero j)⟩
        | flight _ _ _ _ _ h5 =>
          rw [Link.unread] at hunread
          rcases h5 with ⟨h5, -⟩ | ⟨-, r, h5, -⟩
          · rw [if_pos h5] at hunread
            omega
          · rw [h5, List.length_singleton] at hunread
            omega
  | input =>
    cases hst
    exact h.input
  | listen =>
    rw [linkStep] at hst
    split at hst
    · next htop =>
      cases hst
      exact h.turn (by rw [htop]; decide) (by decide)
    · cases hst
  | other =>
    rw [linkStep] at hst
    split at hst
    · next hrecv =>
      cases hst
      exact h.turn (by rw [hrecv]; decide) (by decide)
    · cases hst
  | create ok =>
    obtain rfl : ok = true := hp
    rw [linkStep] at hst
    split at hst
    · next harr =>
      cases hst
      cases h with
      | idle h1 _ _ _ => exact absurd harr h1
      | flight pkt h1 h2 h3 h4 h5 =>
        rcases h5 with ⟨-, h5⟩ | ⟨h5, -⟩
        · refine .flight pkt h1 h2 h3 h4 (.inr ⟨nofun, .created, ?_, trivial⟩)
          dsimp only
          rw [h5]
          rfl
        · exact absurd harr h5
    · cases hst
  | read i alloc =>
    rw [linkStep] at hst
    split at hst
    · cases hst
    · exact h.read hl hp hst

/-- While the server has read each packet before `input` copies the next one, the packets are read
as they were sent, once and in order; those not yet read are still to be. -/
theorem packets_intact {page : Lib.Image} {es : List LinkEvent}
    (h : Run linkStep (fun s e => e.Legal s ∧ e.Paced s) (linkStart page) es s) :
    ∃ rest, s.sent = s.received ++ rest ∧ rest.length = s.unread := by
  have hstage : Stage s := h.invariant Stage (fun hI hg hst => hI.step hg.1 hg.2 hst)
    (.idle nofun rfl rfl trivial)
  cases hstage with
  | idle h1 h2 h3 _ =>
    refine ⟨[], by rw [h3, List.append_nil], ?_⟩
    rw [Link.unread, if_neg h1, h2]
    rfl
  | flight pkt h1 _ _ _ h5 =>
    refine ⟨[pkt], h1, ?_⟩
    rw [Link.unread]
    rcases h5 with ⟨h5, h6⟩ | ⟨h5, r, h6, -⟩
    · rw [if_pos h5, h6]
      rfl
    · rw [if_neg h5, h6]
      rfl

end

instance (s : Link) : ∀ e : LinkEvent, Decidable (e.Legal s)
  | .rx _ => inferInstanceAs (Decidable (_ ≤ _))
  | .read _ none => isTrue nofun
  | .read _ (some chain) =>
    decidable_of_iff (chain.sum = jpLen s.page) ⟨fun h _ hc => by cases hc; exact h, fun h => h chain rfl⟩
  | .input | .listen | .other | .create _ => isTrue trivial

instance (s : Link) : ∀ e : LinkEvent, Decidable (e.Paced s)
  | .rx _ => inferInstanceAs (Decidable (_ → _))
  | .create _ => inferInstanceAs (Decidable (_ = _))
  | .read _ _ => inferInstanceAs (Decidable (_ ≠ _))
  | .input | .listen | .other => isTrue trivial

theorem packets_intact_two : ∃ s, Run linkStep (fun s e => e.Legal s ∧ e.Paced s) (linkStart fun _ => 0)
    [.listen, .rx [7, 9], .input, .input, .input, .input, .create true, .read 0 (some [1, 1]),
      .read 0 (some [1, 1]), .read 0 (some [1, 1]), .read 0 (some [1, 1]), .read 0 (some [1, 1]),
      .read 0 (some [1, 1])] s ∧ s.received = [[7, 9]] ∧ s.sent = s.received := by
  have hrun : ∃ s, Run linkStep (fun s e => e.Legal s ∧ e.Paced s) (linkStart fun _ => 0)
      [.listen, .rx [7, 9], .input, .input, .input, .input, .create true, .read 0 (some [1, 1]),
        .read 0 (some [1, 1]), .read 0 (some [1, 1]), .read 0 (some [1, 1]), .read 0 (some [1, 1]),
        .read 0 (some [1, 1])] s ∧ (s.received = [[7, 9]] ∧ s.unread = 0) := by
    apply Run.exists_ofFoldlM
    decide +kernel
  obtain ⟨s, hrun, hrec, hun⟩ := hrun
  obtain ⟨rest, hsent, hlen⟩ := packets_intact hrun
  rw [hun, List.length_eq_zero_iff] at hlen
  rw [hlen, List.append_nil] at hsent
  exact ⟨s, hrun, hrec, hsent⟩

/-- The server does not run while `input` yields 500 times, and reads the second packet for the
first one. -/
theorem packet_overwritten : ∃ s, Run linkStep (fun s e => e.Legal s) (linkStart fun _ => 0)
    ([.listen, .rx [7], .input, .input, .input] ++ List.replicate 501 .input ++ [.rx [9], .input,
      .create true, .read 0 (some [1]), .read 0 (some [1]), .read 0 (some [1]), .read 0 (some [1])]) s ∧
    (s.sent = [[7]] ∧ s.received = [[9]]) := by
  apply Run.exists_ofFoldlM
  decide +kernel

end Jos.Net
