import Jos.User.PipeData

/-! A pipe is a queue: what the reader has stored is a prefix of what the writer was given. -/

namespace Jos.User

open Kern Lib

/-- Positions below this are not negative as an `off_t`. -/
def posLimit : Nat := 2 ^ 31

/-- What the reader knows at each point: `rpos` is its own, and `p_wpos` only goes up. -/
def ReaderAt (rpos : Word) (written stored : List Byte) (got : Nat) : Reading → Prop
  | .idle => stored = written.take rpos.toNat ∧ got = 0
  | .test _ i r w => stored = written.take rpos.toNat ∧ got = i ∧ (∀ x ∈ r, x = rpos) ∧
      ∀ x ∈ w, rpos.toNat ≤ x.toNat ∧ x.toNat ≤ written.length
  | .poll _ => stored = written.take rpos.toNat ∧ got = 0
  | .index _ i => stored = written.take rpos.toNat ∧ got = i ∧ rpos.toNat < written.length
  | .fetch _ i r => stored = written.take rpos.toNat ∧ got = i ∧ rpos.toNat < written.length ∧
      r = rpos
  | .bump _ i => stored = written.take (rpos.toNat + 1) ∧ got = i + 1 ∧
      rpos.toNat < written.length
  | .save _ i r => stored = written.take (rpos.toNat + 1) ∧ got = i + 1 ∧
      rpos.toNat < written.length ∧ r = rpos

/-- What the writer knows: `wpos` is its own, and `p_rpos` only goes up. -/
def WriterAt (rpos wpos : Word) (buf : Nat → Byte) (len : Nat) : Writing → Prop
  | .idle => True
  | .test bs i w r => i < bs.length ∧ (∀ x ∈ w, x = wpos) ∧ ∀ x ∈ r, x.toNat ≤ rpos.toNat
  | .poll bs i => i < bs.length
  | .index bs i => i < bs.length ∧ len < rpos.toNat + pipebufsiz
  | .store bs i w => i < bs.length ∧ len < rpos.toNat + pipebufsiz ∧ w = wpos
  | .bump bs i => i < bs.length ∧ len < rpos.toNat + pipebufsiz ∧
      buf (len % pipebufsiz) = bs.getD i 0
  | .save bs i w => i < bs.length ∧ len < rpos.toNat + pipebufsiz ∧
      buf (len % pipebufsiz) = bs.getD i 0 ∧ w = wpos

def Writing.rest : Writing → List Byte
  | .idle => []
  | .test bs i _ _ | .poll bs i | .index bs i | .store bs i _ | .bump bs i | .save bs i _ =>
    bs.drop i

structure Flowing (c : Channel) : Prop where
  wpos : c.pipe.wpos.toNat = c.written.length
  ring : Holds pipebufsiz c.pipe.buf c.written c.pipe.rpos.toNat
  reader : ReaderAt c.pipe.rpos c.written c.stored c.got c.reader
  writer : WriterAt c.pipe.rpos c.pipe.wpos c.pipe.buf c.written.length c.writer
  /-- A writer gives up only when the reader has closed its end. -/
  supply : c.supplied = c.written ++ c.writer.rest ∨ c.rfd = .closed ∧ c.stored <+: c.supplied
  ropen : c.reader ≠ .idle → c.rfd = .opened
  wopen : c.writer ≠ .idle → c.wfd = .opened
  returns : ∀ x ∈ c.returns, x.1 = x.2

theorem ReaderAt.append {rpos : Word} {written stored : List Byte} {got : Nat} {pc : Reading}
    (h : ReaderAt rpos written stored got pc) (hle : rpos.toNat ≤ written.length) (b : Byte) :
    ReaderAt rpos (written ++ [b]) stored got pc := by
  have hlen : (written ++ [b]).length = written.length + 1 := List.length_append
  have htake {k : Nat} (hk : k ≤ written.length) : (written ++ [b]).take k = written.take k :=
    List.take_append_of_le_length hk
  cases pc with
  | idle => exact ⟨h.1.trans (htake hle).symm, h.2⟩
  | test n i r w =>
    refine ⟨h.1.trans (htake hle).symm, h.2.1, h.2.2.1, fun x hx => ⟨(h.2.2.2 x hx).1, ?_⟩⟩
    have := (h.2.2.2 x hx).2
    omega
  | poll n => exact ⟨h.1.trans (htake hle).symm, h.2⟩
  | index n i => exact ⟨h.1.trans (htake hle).symm, h.2.1, by have := h.2.2; omega⟩
  | fetch n i r =>
    exact ⟨h.1.trans (htake hle).symm, h.2.1, by have := h.2.2.1; omega, h.2.2.2⟩
  | bump n i => exact ⟨h.1.trans (htake h.2.2).symm, h.2.1, by have := h.2.2; omega⟩
  | save n i r =>
    exact ⟨h.1.trans (htake h.2.2.1).symm, h.2.1, by have := h.2.2.1; omega, h.2.2.2⟩

theorem WriterAt.advance {rpos rpos' wpos : Word} {buf : Nat → Byte} {len : Nat} {pc : Writing}
    (h : WriterAt rpos wpos buf len pc) (hle : rpos.toNat ≤ rpos'.toNat) :
    WriterAt rpos' wpos buf len pc := by
  cases pc with
  | idle => trivial
  | test bs i w r => exact ⟨h.1, h.2.1, fun x hx => (h.2.2 x hx).trans hle⟩
  | poll bs i => exact h
  | index bs i => exact ⟨h.1, h.2.trans_le (Nat.add_le_add_right hle _)⟩
  | store bs i w => exact ⟨h.1, h.2.1.trans_le (Nat.add_le_add_right hle _), h.2.2⟩
  | bump bs i => exact ⟨h.1, h.2.1.trans_le (Nat.add_le_add_right hle _), h.2.2⟩
  | save bs i w => exact ⟨h.1, h.2.1.trans_le (Nat.add_le_add_right hle _), h.2.2⟩

theorem Pipe.index_of_lt {pos : Word} (h : pos.toNat < posLimit) :
    Pipe.index pos = some (pos.toNat % pipebufsiz) := by
  have hpos : pos.msb = false := by
    rw [BitVec.msb_eq_false_iff_two_mul_lt]
    rw [posLimit] at h
    omega
  have hrem : pos.srem (BitVec.ofNat 32 pipebufsiz) = pos % BitVec.ofNat 32 pipebufsiz := by
    rw [BitVec.srem_eq, hpos]
    rfl
  have hval : (pos % BitVec.ofNat 32 pipebufsiz).toNat = pos.toNat % pipebufsiz := BitVec.toNat_umod
  have h32 : pos.toNat % pipebufsiz < 32 := Nat.mod_lt _ (by decide)
  have hslt : ¬ (pos % BitVec.ofNat 32 pipebufsiz).slt 0 := by
    rw [BitVec.slt_eq_decide, BitVec.toInt_eq_toNat_of_lt (by omega), decide_eq_true_iff]
    exact Int.not_lt.mpr (Int.natCast_nonneg _)
  rw [Pipe.index, hrem, if_neg hslt, hval]

theorem Pipe.index_of_le {pos : Word} (h : pos.toNat ≤ posLimit) :
    Pipe.index pos = some (pos.toNat % pipebufsiz) := by
  obtain hlt | heq := Nat.lt_or_eq_of_le h
  · exact index_of_lt hlt
  · obtain rfl : pos = 0x80000000#32 := BitVec.eq_of_toNat_eq heq
    decide

theorem pipeisclosedNow_iff {other : Desc} :
    pipeisclosedNow .opened other = true ↔ other = .closed := by
  cases other <;> decide

namespace Flowing

variable {c c' : Channel} {first : Bool}

theorem readReturn (h : Flowing c) {v : Nat}
    (hst : c.stored = c.written.take c.pipe.rpos.toNat) (hv : c.got = v) :
    Flowing (c.readReturn v) :=
  { h with
    reader := ⟨hst, rfl⟩
    ropen := fun hne => absurd rfl hne
    returns := by
      intro x hx
      rcases List.mem_append.mp hx with hx | hx
      · exact h.returns x hx
      · rw [List.mem_singleton.mp hx]
        exact hv.symm }

theorem readNext (h : Flowing c) (hopen : c.rfd = .opened) {n i : Nat}
    (hst : c.stored = c.written.take c.pipe.rpos.toNat) (hi : c.got = i) :
    Flowing (c.readNext n i) := by
  rw [Channel.readNext]
  split
  · exact { h with
      reader := ⟨hst, hi, nofun, nofun⟩
      ropen := fun _ => hopen }
  · exact h.readReturn hst hi

theorem setReader (h : Flowing c) {pc : Reading} (hopen : c.rfd = .opened)
    (hpc : ReaderAt c.pipe.rpos c.written c.stored c.got pc) :
    Flowing { c with reader := pc } :=
  { h with reader := hpc, ropen := fun _ => hopen }

theorem readStep (h : Flowing c) (hb : c.written.length ≤ posLimit + 1)
    (hs : c.readStep first = some c') : Flowing c' := by
  have hpc := h.reader
  have hopen := h.ropen
  rw [Channel.readStep] at hs
  split at hs
  case h_1 => cases hs
  case h_2 n i hr =>
    rw [hr] at hpc
    have hop := hopen (by rw [hr]; nofun)
    split at hs <;> cases hs
    · refine h.setReader hop ⟨hpc.1, hpc.2.1, fun x hx => ?_, nofun⟩
      exact (Option.mem_some.mp hx).symm
    · refine h.setReader hop ⟨hpc.1, hpc.2.1, nofun, fun x hx => ?_⟩
      rw [← Option.mem_some.mp hx, h.wpos]
      exact ⟨h.ring.le, le_rfl⟩
  case h_3 n i r hr =>
    rw [hr] at hpc
    cases hs
    refine h.setReader (hopen (by rw [hr]; nofun)) ⟨hpc.1, hpc.2.1, hpc.2.2.1, fun x hx => ?_⟩
    rw [← Option.mem_some.mp hx, h.wpos]
    exact ⟨h.ring.le, le_rfl⟩
  case h_4 n i w hr =>
    rw [hr] at hpc
    cases hs
    refine h.setReader (hopen (by rw [hr]; nofun)) ⟨hpc.1, hpc.2.1, fun x hx => ?_, hpc.2.2.2⟩
    exact (Option.mem_some.mp hx).symm
  case h_5 n i r w hr =>
    rw [hr] at hpc
    have hop := hopen (by rw [hr]; nofun)
    have hrpos : r = c.pipe.rpos := hpc.2.2.1 r rfl
    have hw := hpc.2.2.2 w rfl
    split at hs
    · split at hs <;> cases hs
      · exact h.readReturn hpc.1 hpc.2.1
      · have hgot := hpc.2.1
        exact h.setReader hop ⟨hpc.1, by omega⟩
    · cases hs
      refine h.setReader hop ⟨hpc.1, hpc.2.1, ?_⟩
      have hne : c.pipe.rpos.toNat ≠ w.toNat := fun he =>
        ‹¬r = w› (hrpos.trans (BitVec.eq_of_toNat_eq he))
      omega
  case h_6 n hr =>
    rw [hr] at hpc
    split at hs <;> cases hs
    · exact h.readReturn hpc.1 hpc.2
    · exact h.setReader (hopen (by rw [hr]; nofun)) ⟨hpc.1, hpc.2, nofun, nofun⟩
  case h_7 n i hr =>
    rw [hr] at hpc
    cases hs
    exact h.setReader (hopen (by rw [hr]; nofun)) ⟨hpc.1, hpc.2.1, hpc.2.2, rfl⟩
  case h_8 n i r hr =>
    rw [hr] at hpc
    obtain ⟨hst, hgot, hlen, rfl⟩ := hpc
    rw [Pipe.index_of_le (by omega)] at hs
    cases hs
    have hop := hopen (by rw [hr]; nofun)
    refine { h with
      reader := ⟨?_, congrArg (· + 1) hgot, hlen⟩
      supply := .inl (h.supply.resolve_right fun hcl => ?_)
      ropen := fun _ => hop }
    · change c.stored ++ _ = _
      rw [List.take_add_one, h.ring.get hlen, hst]
      rfl
    · exact absurd (hop.symm.trans hcl.1) nofun
  case h_9 n i hr =>
    rw [hr] at hpc
    cases hs
    exact h.setReader (hopen (by rw [hr]; nofun)) ⟨hpc.1, hpc.2.1, hpc.2.2, rfl⟩
  case h_10 n i r hr =>
    rw [hr] at hpc
    obtain ⟨hst, hgot, hlen, rfl⟩ := hpc
    cases hs
    have hop := hopen (by rw [hr]; nofun)
    have hnext : (c.pipe.rpos + 1).toNat = c.pipe.rpos.toNat + 1 := by
      rw [posLimit] at hb
      bv_omega
    have hstored : c.stored = c.written.take (c.pipe.rpos + 1).toNat := by
      rw [hnext, hst]
    have hmore : c.pipe.rpos.toNat ≤ (c.pipe.rpos + 1).toNat := hnext ▸ Nat.le_succ _
    have hbumped : Flowing { c with
        pipe := { c.pipe with rpos := c.pipe.rpos + 1 }
        reader := .test n (i + 1) none none } :=
      { h with
        ring := hnext ▸ h.ring.drop hlen
        reader := ⟨hstored, hgot, nofun, nofun⟩
        writer := h.writer.advance hmore
        ropen := fun _ => hop }
    exact hbumped.readNext hop hstored hgot

theorem setWriter (h : Flowing c) {pc : Writing} (hopen : c.wfd = .opened)
    (hrest : pc.rest = c.writer.rest)
    (hpc : WriterAt c.pipe.rpos c.pipe.wpos c.pipe.buf c.written.length pc) :
    Flowing { c with writer := pc } :=
  { h with
    writer := hpc
    supply := h.supply.imp (fun he => he.trans (congrArg (c.written ++ ·) hrest.symm)) id
    wopen := fun _ => hopen }

theorem writeNext {bs : List Byte} {i : Nat}
    (h : ∀ pc : Writing, pc.rest = bs.drop i →
      WriterAt c.pipe.rpos c.pipe.wpos c.pipe.buf c.written.length pc →
      Flowing { c with writer := pc }) :
    Flowing (c.writeNext bs i) := by
  rw [Channel.writeNext]
  split
  case isTrue hi => exact h (.test bs i none none) rfl ⟨hi, nofun, nofun⟩
  case isFalse hi =>
    exact h .idle (List.drop_of_length_le (Nat.le_of_not_lt hi)).symm trivial

theorem stored_prefix_written (h : Flowing c) : c.stored <+: c.written := by
  have hpc := h.reader
  cases hr : c.reader with
  | idle | test | poll | index | fetch | bump | save =>
    rw [hr] at hpc
    rw [hpc.1]
    exact List.take_prefix _ _

theorem stored_prefix_supplied (h : Flowing c) : c.stored <+: c.supplied := by
  rcases h.supply with hsup | hsup
  · rw [hsup]
    exact h.stored_prefix_written.trans (List.prefix_append _ _)
  · exact hsup.2

theorem writeStep (h : Flowing c) (hb : c.written.length ≤ posLimit)
    (hs : c.writeStep first = some c') : Flowing c' := by
  have hpc := h.writer
  have hopen := h.wopen
  have hlen := h.wpos
  have hle := h.ring.le
  rw [Channel.writeStep] at hs
  split at hs
  case h_1 => cases hs
  case h_2 bs i hw =>
    rw [hw] at hpc
    have hop := hopen (by rw [hw]; nofun)
    split at hs <;> cases hs
    · refine h.setWriter hop (by rw [hw]; rfl) ⟨hpc.1, fun x hx => ?_, nofun⟩
      exact (Option.mem_some.mp hx).symm
    · refine h.setWriter hop (by rw [hw]; rfl) ⟨hpc.1, nofun, fun x hx => ?_⟩
      rw [Option.mem_some.mp hx]
  case h_3 bs i w hw =>
    rw [hw] at hpc
    cases hs
    refine h.setWriter (hopen (by rw [hw]; nofun)) (by rw [hw]; rfl)
      ⟨hpc.1, hpc.2.1, fun x hx => ?_⟩
    rw [Option.mem_some.mp hx]
  case h_4 bs i r hw =>
    rw [hw] at hpc
    cases hs
    refine h.setWriter (hopen (by rw [hw]; nofun)) (by rw [hw]; rfl)
      ⟨hpc.1, fun x hx => ?_, hpc.2.2⟩
    exact (Option.mem_some.mp hx).symm
  case h_5 bs i w r hw =>
    rw [hw] at hpc
    have hop := hopen (by rw [hw]; nofun)
    have hwpos : w = c.pipe.wpos := hpc.2.1 w rfl
    have hr := hpc.2.2 r rfl
    split at hs <;> cases hs
    · exact h.setWriter hop (by rw [hw]; rfl) hpc.1
    case isFalse hroom =>
      refine h.setWriter hop (by rw [hw]; rfl) ⟨hpc.1, ?_⟩
      rw [posLimit] at hb
      rw [hwpos, BitVec.le_def, BitVec.toNat_add, hlen] at hroom
      have h32 : (BitVec.ofNat 32 pipebufsiz).toNat = pipebufsiz := rfl
      have hsize : pipebufsiz = 32 := rfl
      omega
  case h_6 bs i hw =>
    rw [hw] at hpc
    have hop := hopen (by rw [hw]; nofun)
    split at hs <;> cases hs
    case isTrue hcl =>
      rw [hop, pipeisclosedNow_iff] at hcl
      exact { h with
        writer := trivial
        supply := .inr ⟨hcl, h.stored_prefix_supplied⟩
        wopen := fun hne => absurd rfl hne }
    · exact h.setWriter hop (by rw [hw]; rfl) ⟨hpc, nofun, nofun⟩
  case h_7 bs i hw =>
    rw [hw] at hpc
    cases hs
    exact h.setWriter (hopen (by rw [hw]; nofun)) (by rw [hw]; rfl) ⟨hpc.1, hpc.2, rfl⟩
  case h_8 bs i w hw =>
    rw [hw] at hpc
    obtain ⟨hi, hroom, rfl⟩ := hpc
    rw [Pipe.index_of_le (hlen ▸ hb), hlen] at hs
    cases hs
    exact { h with
      ring := h.ring.store hroom
      writer := ⟨hi, hroom, Function.update_self _ _ _⟩
      supply := h.supply.imp (fun he => he.trans (by rw [hw]; rfl)) id
      wopen := fun _ => hopen (by rw [hw]; nofun) }
  case h_9 bs i hw =>
    rw [hw] at hpc
    cases hs
    exact h.setWriter (hopen (by rw [hw]; nofun)) (by rw [hw]; rfl)
      ⟨hpc.1, hpc.2.1, hpc.2.2, rfl⟩
  case h_10 bs i w hw =>
    rw [hw] at hpc
    obtain ⟨hi, hroom, hbyte, rfl⟩ := hpc
    cases hs
    have hop := hopen (by rw [hw]; nofun)
    have hnext : (c.pipe.wpos + 1).toNat = (c.written ++ [bs.getD i 0]).length := by
      rw [posLimit] at hb
      rw [List.length_append, List.length_singleton, ← hlen]
      bv_omega
    have hdrop : bs.drop i = bs.getD i 0 :: bs.drop (i + 1) := by
      rw [List.drop_eq_getElem_cons hi, List.getD_eq_getElem _ _ hi]
    refine writeNext fun pc hrest hat => ?_
    exact { h with
      wpos := hnext
      ring := h.ring.push hroom hbyte
      reader := h.reader.append hle _
      writer := hat
      supply := by
        refine h.supply.imp (fun he => he.trans ?_) id
        rw [hw]
        change c.written ++ bs.drop i = c.written ++ [bs.getD i 0] ++ pc.rest
        rw [hrest, hdrop, List.append_assoc]
        rfl
      wopen := fun _ => hop }

theorem step (h : Flowing c) (hr : c.written.length ≤ posLimit + 1)
    (hw : c.writer ≠ .idle → c.written.length ≤ posLimit) {a : Access}
    (hs : c.step a = some c') : Flowing c' := by
  cases a with
  | read n =>
    rw [Channel.step] at hs
    split at hs
    case isFalse => cases hs
    case isTrue hidle =>
      cases hs
      have hpc := h.reader
      rw [hidle.1] at hpc
      exact h.readNext hidle.2 hpc.1 hpc.2
  | readStep first => exact h.readStep hr hs
  | write bs =>
    rw [Channel.step] at hs
    split at hs
    case isFalse => cases hs
    case isTrue hidle =>
      cases hs
      refine writeNext fun pc hrest hat => ?_
      exact { h with
        writer := hat
        supply := by
          refine h.supply.imp (fun he => ?_) fun hcl =>
            ⟨hcl.1, hcl.2.trans (List.prefix_append _ _)⟩
          change c.supplied ++ bs = c.written ++ pc.rest
          rw [hrest, he, hidle.1]
          simp [Writing.rest]
        wopen := fun _ => hidle.2 }
  | writeStep first =>
    refine h.writeStep (hw fun hidle => ?_) hs
    rw [Channel.step, Channel.writeStep, hidle] at hs
    cases hs
  | closeReader =>
    rw [Channel.step] at hs
    split at hs
    case isFalse => cases hs
    case isTrue hidle =>
      split at hs <;> cases hs
      all_goals exact { h with
        supply := h.supply.imp id fun hcl => ⟨by simp_all, hcl.2⟩
        ropen := fun hne => absurd hidle hne }
  | closeWriter =>
    rw [Channel.step] at hs
    split at hs
    case isFalse => cases hs
    case isTrue hidle =>
      split at hs <;> cases hs
      all_goals exact { h with wopen := fun hne => absurd hidle hne }

end Flowing

namespace Channel

variable {c c' : Channel} {first : Bool}

@[simp] theorem readReturn_written (v : Nat) : (c.readReturn v).written = c.written := rfl

@[simp] theorem readNext_written (n i : Nat) : (c.readNext n i).written = c.written := by
  rw [readNext]
  split <;> rfl

@[simp] theorem writeNext_written (bs : List Byte) (i : Nat) :
    (c.writeNext bs i).written = c.written := by
  rw [writeNext]
  split <;> rfl

theorem readStep_written (hs : c.readStep first = some c') : c'.written = c.written := by
  rw [readStep] at hs
  split at hs
  case h_1 => cases hs
  case h_8 n i r hr =>
    obtain ⟨j, -, hs⟩ := Option.bind_eq_some_iff.mp hs
    cases hs
    rfl
  case h_2 | h_5 | h_6 => split_ifs at hs <;> cases hs <;> rfl
  all_goals
    cases hs
    simp

theorem writeStep_written (hs : c.writeStep first = some c') : c.written <+: c'.written := by
  rw [writeStep] at hs
  split at hs
  case h_1 => cases hs
  case h_8 bs i w hw =>
    obtain ⟨j, -, hs⟩ := Option.bind_eq_some_iff.mp hs
    cases hs
    exact List.prefix_rfl
  case h_2 | h_5 | h_6 => split_ifs at hs <;> cases hs <;> exact List.prefix_rfl
  all_goals
    cases hs
    simp

theorem step_written {a : Access} (hs : c.step a = some c') : c.written <+: c'.written := by
  cases a with
  | readStep first => exact (readStep_written hs).symm ▸ List.prefix_rfl
  | writeStep first => exact writeStep_written hs
  | read n | write bs =>
    rw [step] at hs
    split_ifs at hs
    cases hs
    simp
  | closeReader | closeWriter =>
    rw [step] at hs
    split_ifs at hs
    split at hs <;> cases hs <;> exact List.prefix_rfl

end Channel

theorem Channel.start_sound : Flowing Channel.start where
  wpos := rfl
  ring := ⟨le_rfl, Nat.zero_le _, fun _ _ => .inl rfl⟩
  reader := ⟨rfl, rfl⟩
  writer := trivial
  supply := .inl rfl
  ropen h := absurd rfl h
  wopen h := absurd rfl h
  returns := nofun

/-- In every run of a reader and a writer that has put fewer than `2 ^ 31` bytes through the
pipe: the bytes read are a prefix of the bytes supplied, the positions are at most one buffer
apart, and every `devpipe_read` that came back returned the number of bytes it stored. -/
theorem pipe_fifo {es : List Access} {c : Channel}
    (h : Run Channel.step (fun _ _ => True) Channel.start es c)
    (hb : c.written.length < posLimit) :
    c.stored <+: c.supplied ∧
      (0 ≤ c.pipe.wpos.toInt - c.pipe.rpos.toInt ∧
        c.pipe.wpos.toInt - c.pipe.rpos.toInt ≤ pipebufsiz) ∧
      ∀ x ∈ c.returns, x.1 = x.2 := by
  have hsound : Flowing c := by
    refine h.invariant (fun c => c.written.length < posLimit → Flowing c) ?_
      (fun _ => Channel.start_sound) hb
    intro c a c' ih _ hs hlt
    have hlt' : c.written.length < posLimit := (Channel.step_written hs).length_le.trans_lt hlt
    exact (ih hlt').step (Nat.le_succ_of_le hlt'.le) (fun _ => hlt'.le) hs
  refine ⟨hsound.stored_prefix_supplied, ?_, hsound.returns⟩
  have hw : 2 * c.pipe.wpos.toNat < 2 ^ 32 := by
    rw [hsound.wpos]
    rw [posLimit] at hb
    omega
  have hle := hsound.ring.le
  have hfits := hsound.ring.fits
  have hlen := hsound.wpos
  rw [BitVec.toInt_eq_toNat_of_lt hw, BitVec.toInt_eq_toNat_of_lt (by omega), hsound.wpos]
  omega

/-- Two bytes go through: the writer is ahead by one when the reader looks for the second. -/
def twoBytes : List Access :=
  [.write [7, 8], .read 5] ++ List.replicate 7 (.writeStep true) ++
    List.replicate 7 (.readStep false) ++ List.replicate 7 (.writeStep false) ++
    List.replicate 10 (.readStep true)

theorem pipe_fifo_twoBytes :
    ∃ c, Run Channel.step (fun _ _ => True) Channel.start twoBytes c ∧
      c.stored = [7, 8] ∧ c.returns = [(2, 2)] ∧ c.stored <+: c.supplied := by
  have hrun : ∃ c, twoBytes.foldlM Channel.step Channel.start = some c ∧ c.stored = [7, 8] ∧
      c.returns = [(2, 2)] ∧ c.written.length < posLimit := ⟨_, rfl, rfl, rfl, by decide⟩
  obtain ⟨c, hc, hst, hret, hb⟩ := hrun
  have h := Run.ofFoldlM hc
  exact ⟨c, h, hst, hret, (pipe_fifo h hb).1⟩

end Jos.User
