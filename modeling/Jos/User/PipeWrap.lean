import Jos.User.PipeFifo

/-! How far the positions of a pipe go.  They only grow, and a remainder of a negative position
is no index of the buffer. -/

namespace Jos.User

open Kern Lib

namespace Channel

variable (c : Channel)

/-- The bytes taken out of the pipe: those stored, but for one that is not counted yet. -/
def taken : Nat :=
  match c.reader with
  | .bump _ _ | .save _ _ _ => c.stored.length - 1
  | _ => c.stored.length

def unread : Nat := c.written.length - c.taken

end Channel

def FullTest (w r : Word) : Prop := r + BitVec.ofNat 32 pipebufsiz ≤ w

/-- The indices used are indices of the buffer, and the two tests tell how much is unread.  A
test under way has loaded its operands one by one: `k` bytes had been taken, or written, when the
other side's position was loaded. -/
structure InOrder (c : Channel) : Prop where
  readIndex : ∀ n i r, c.reader = .fetch n i r → ∃ j, Pipe.index r = some j ∧ j < pipebufsiz
  writeIndex : ∀ bs i w, c.writer = .store bs i w → ∃ j, Pipe.index w = some j ∧ j < pipebufsiz
  full : FullTest c.pipe.wpos c.pipe.rpos ↔ c.unread = pipebufsiz
  empty : c.pipe.rpos = c.pipe.wpos ↔ c.unread = 0
  testFull : ∀ bs i w r, c.writer = .test bs i (some w) (some r) →
    ∃ k, r = BitVec.ofNat 32 k ∧ k ≤ c.taken ∧
      (FullTest w r ↔ c.written.length - k = pipebufsiz)
  testEmpty : ∀ n i r w, c.reader = .test n i (some r) (some w) →
    ∃ k, w = BitVec.ofNat 32 k ∧ c.taken ≤ k ∧ k ≤ c.written.length ∧
      (r = w ↔ k - c.taken = 0)

/-- The bytes handed to `devpipe_write`, with those of this call, are no more than the positions
can count. -/
def InRange (c : Channel) : Access → Prop
  | .write bs => c.supplied.length + bs.length ≤ posLimit + 1
  | _ => True

instance {c : Channel} {a : Access} : Decidable (InRange c a) :=
  match a with
  | .write _ => inferInstanceAs (Decidable (_ ≤ _))
  | .read _ | .readStep _ | .writeStep _ | .closeReader | .closeWriter =>
    inferInstanceAs (Decidable True)

structure Paced (c : Channel) : Prop where
  budget : c.written.length + c.writer.rest.length ≤ c.supplied.length
  window : ∀ bs i w r, c.writer = .test bs i w (some r) →
    c.written.length ≤ r.toNat + pipebufsiz
  supply : c.supplied.length ≤ posLimit + 1

theorem Channel.readStep_writer {c c' : Channel} {first : Bool}
    (hs : c.readStep first = some c') : c'.writer = c.writer ∧ c'.supplied = c.supplied := by
  have hnext : ∀ (c : Channel) n i, (c.readNext n i).writer = c.writer ∧
      (c.readNext n i).supplied = c.supplied := by
    intro c n i
    rw [readNext]
    split
    · exact ⟨rfl, rfl⟩
    · exact ⟨rfl, rfl⟩
  rw [readStep] at hs
  split at hs
  case h_1 => cases hs
  case h_8 n i r hr =>
    obtain ⟨j, -, hs⟩ := Option.bind_eq_some_iff.mp hs
    cases hs
    exact ⟨rfl, rfl⟩
  case h_2 | h_5 | h_6 => split_ifs at hs <;> cases hs <;> exact ⟨rfl, rfl⟩
  case h_10 n i r hr =>
    cases hs
    exact hnext _ _ _
  all_goals
    cases hs
    exact ⟨rfl, rfl⟩

namespace Paced

variable {c c' : Channel} {first : Bool}

theorem setWriter (h : Paced c) {pc : Writing} (hrest : pc.rest.length ≤ c.writer.rest.length)
    (hwin : ∀ bs i w r, pc = .test bs i w (some r) → c.written.length ≤ r.toNat + pipebufsiz) :
    Paced { c with writer := pc } where
  budget := (Nat.add_le_add_left hrest _).trans h.budget
  window := hwin
  supply := h.supply

theorem writeNext {bs : List Byte} {i : Nat}
    (hb : c.written.length + (bs.drop i).length ≤ c.supplied.length)
    (hs : c.supplied.length ≤ posLimit + 1) : Paced (c.writeNext bs i) := by
  rw [Channel.writeNext]
  split
  · exact ⟨hb, by rintro _ _ _ _ ⟨⟩, hs⟩
  · exact ⟨(Nat.le_add_right _ _).trans hb, by rintro _ _ _ _ ⟨⟩, hs⟩

theorem writeStep (h : Paced c) (hf : Flowing c) (hs : c.writeStep first = some c') :
    Paced c' := by
  have hpc := hf.writer
  have hfits := hf.ring.fits
  rw [Channel.writeStep] at hs
  split at hs
  case h_1 => cases hs
  case h_2 bs i hw =>
    split at hs <;> cases hs
    · refine h.setWriter (by rw [hw]; exact Nat.le_refl _) fun _ _ _ r hr => ?_
      cases hr
    · refine h.setWriter (by rw [hw]; exact Nat.le_refl _) fun _ _ _ r hr => ?_
      cases hr
      exact hfits
  case h_3 bs i w hw =>
    cases hs
    refine h.setWriter (by rw [hw]; exact Nat.le_refl _) fun _ _ _ r hr => ?_
    cases hr
    exact hfits
  case h_4 bs i r hw =>
    cases hs
    refine h.setWriter (by rw [hw]; exact Nat.le_refl _) fun _ _ _ r' hr => ?_
    cases hr
    exact h.window bs i none r hw
  case h_5 bs i w r hw =>
    split at hs <;> cases hs
    all_goals exact h.setWriter (by rw [hw]; exact Nat.le_refl _) (by rintro _ _ _ _ ⟨⟩)
  case h_6 bs i hw =>
    split at hs <;> cases hs
    · exact h.setWriter (Nat.zero_le _) (by rintro _ _ _ _ ⟨⟩)
    · exact h.setWriter (by rw [hw]; exact Nat.le_refl _) (by rintro _ _ _ _ ⟨⟩)
  case h_7 bs i hw =>
    cases hs
    exact h.setWriter (by rw [hw]; exact Nat.le_refl _) (by rintro _ _ _ _ ⟨⟩)
  case h_8 bs i w hw =>
    obtain ⟨j, -, hs⟩ := Option.bind_eq_some_iff.mp hs
    cases hs
    have hb := h.budget
    rw [hw] at hb
    exact ⟨hb, by rintro _ _ _ _ ⟨⟩, h.supply⟩
  case h_9 bs i hw =>
    cases hs
    exact h.setWriter (by rw [hw]; exact Nat.le_refl _) (by rintro _ _ _ _ ⟨⟩)
  case h_10 bs i w hw =>
    cases hs
    rw [hw] at hpc
    have hb := h.budget
    have hi := hpc.1
    rw [hw, Writing.rest, List.length_drop] at hb
    refine writeNext ?_ h.supply
    rw [List.length_append, List.length_singleton, List.length_drop]
    change _ ≤ c.supplied.length
    omega

theorem step (h : Paced c) (hf : Flowing c) {a : Access} (hg : InRange c a)
    (hs : c.step a = some c') : Paced c' := by
  cases a with
  | read n =>
    rw [Channel.step] at hs
    split_ifs at hs
    cases hs
    rw [Channel.readNext]
    split
    · exact ⟨h.budget, h.window, h.supply⟩
    · exact ⟨h.budget, h.window, h.supply⟩
  | readStep first =>
    have hw := Channel.readStep_writer hs
    have hl := Channel.readStep_written hs
    refine ⟨?_, ?_, ?_⟩
    · rw [hl, hw.1, hw.2]
      exact h.budget
    · rw [hl, hw.1]
      exact h.window
    · rw [hw.2]
      exact h.supply
  | write bs =>
    rw [Channel.step] at hs
    split_ifs at hs with hidle
    cases hs
    have hb := h.budget
    have hlen : (c.supplied ++ bs).length = c.supplied.length + bs.length := List.length_append
    refine writeNext ?_ (hlen ▸ hg)
    change c.written.length + bs.length ≤ (c.supplied ++ bs).length
    omega
  | writeStep first => exact h.writeStep hf hs
  | closeReader | closeWriter =>
    rw [Channel.step] at hs
    split_ifs at hs
    split at hs <;> cases hs <;> exact ⟨h.budget, h.window, h.supply⟩

theorem written_le (h : Paced c) (hf : Flowing c) (hw : c.writer ≠ .idle) :
    c.written.length ≤ posLimit := by
  have hpc := hf.writer
  have hb := h.budget
  have hs := h.supply
  have hrest : 0 < c.writer.rest.length := by
    cases hc : c.writer with
    | idle => exact absurd hc hw
    | test bs i w r | poll bs i | index bs i | store bs i w | bump bs i | save bs i w =>
      rw [hc] at hpc
      rw [Writing.rest, List.length_drop]
      first
        | exact Nat.sub_pos_of_lt hpc.1
        | exact Nat.sub_pos_of_lt hpc
  omega

end Paced

theorem Flowing.taken_eq {c : Channel} (h : Flowing c) : c.taken = c.pipe.rpos.toNat := by
  have hpc := h.reader
  have hle := h.ring.le
  rw [Channel.taken]
  cases hr : c.reader with
  | idle | test | poll | index | fetch =>
    rw [hr] at hpc
    dsimp only
    rw [hpc.1, List.length_take]
    omega
  | bump | save =>
    rw [hr] at hpc
    dsimp only
    have hlen := hpc.2.2
    rw [hpc.1, List.length_take]
    omega

theorem fullTest_iff {w r : Word} (hw : w.toNat ≤ posLimit + 1) (hr : r.toNat ≤ w.toNat)
    (hfits : w.toNat ≤ r.toNat + pipebufsiz) :
    FullTest w r ↔ w.toNat - r.toNat = pipebufsiz := by
  rw [posLimit] at hw
  have hsize : pipebufsiz = 32 := rfl
  have h32 : (BitVec.ofNat 32 pipebufsiz).toNat = 32 := rfl
  rw [FullTest, BitVec.le_def, BitVec.toNat_add, h32]
  omega

theorem Flowing.inOrder {c : Channel} (h : Flowing c) (hp : Paced c) : InOrder c := by
  have htaken := h.taken_eq
  have hle := h.ring.le
  have hfits := h.ring.fits
  have hlen := h.wpos
  have hb := hp.budget
  have hs := hp.supply
  have hindex : ∀ {pos : Word}, pos.toNat ≤ posLimit →
      ∃ j, Pipe.index pos = some j ∧ j < pipebufsiz := by
    intro pos hpos
    exact ⟨_, Pipe.index_of_le hpos, Nat.mod_lt _ (by decide)⟩
  refine ⟨?_, ?_, ?_, ?_, ?_, ?_⟩
  · intro n i r hr
    have hpc := h.reader
    rw [hr] at hpc
    obtain ⟨-, -, hlt, rfl⟩ := hpc
    exact hindex (by omega)
  · intro bs i w hw
    have hpc := h.writer
    have hle' := hp.written_le h (by rw [hw]; nofun)
    rw [hw] at hpc
    obtain ⟨-, -, rfl⟩ := hpc
    exact hindex (by omega)
  · rw [fullTest_iff (by omega) (by omega) (by omega), Channel.unread, htaken, hlen]
  · rw [Channel.unread, htaken, ← BitVec.toNat_inj, hlen]
    omega
  · intro bs i w r hw
    have hpc := h.writer
    rw [hw] at hpc
    obtain ⟨-, hwpos, hrle⟩ := hpc
    have hwin := hp.window bs i (some w) r hw
    have hrle := hrle r rfl
    obtain rfl : w = c.pipe.wpos := hwpos w rfl
    refine ⟨r.toNat, by rw [BitVec.ofNat_toNat, BitVec.setWidth_eq], by omega, ?_⟩
    rw [fullTest_iff (by omega) (by omega) (by omega), hlen]
  · intro n i r w hr
    have hpc := h.reader
    rw [hr] at hpc
    obtain ⟨-, -, hrpos, hwle⟩ := hpc
    obtain ⟨hlo, hhi⟩ := hwle w rfl
    obtain rfl : r = c.pipe.rpos := hrpos r rfl
    refine ⟨w.toNat, by rw [BitVec.ofNat_toNat, BitVec.setWidth_eq], by omega, hhi, ?_⟩
    rw [htaken, ← BitVec.toNat_inj]
    omega

/-- However the reader and the writer take turns, the positions stay in order as long as no more
than `2 ^ 31 + 1` bytes have been handed to `devpipe_write`. -/
theorem pipe_inOrder {es : List Access} {c : Channel}
    (h : Run Channel.step InRange Channel.start es c) : InOrder c := by
  have hinv : Flowing c ∧ Paced c := by
    refine h.invariant (fun c => Flowing c ∧ Paced c) ?_ ?_
    · rintro c a c' ⟨hf, hp⟩ hg hs
      refine ⟨hf.step ?_ (hp.written_le hf) hs, hp.step hf hg hs⟩
      have := hp.budget
      have := hp.supply
      omega
    · exact ⟨Channel.start_sound, Nat.zero_le _, nofun, Nat.zero_le _⟩
  exact hinv.1.inOrder hinv.2

theorem pipe_inOrder_twoBytes :
    ∃ c, Run Channel.step InRange Channel.start twoBytes c ∧ c.written = [7, 8] ∧ InOrder c := by
  have hrun : ∃ c, Run Channel.step InRange Channel.start twoBytes c ∧ c.written = [7, 8] :=
    Run.exists_ofFoldlM (by decide)
  obtain ⟨c, hc, hw⟩ := hrun
  exact ⟨c, hc, hw, pipe_inOrder hc⟩

def Channel.at (pos : Word) (buf : Nat → Byte) (xs ys zs : List Byte) (rs : List (Nat × Nat)) :
    Channel where
  pipe := ⟨pos, pos, buf⟩
  reader := .idle
  writer := .idle
  rfd := .opened
  wfd := .opened
  supplied := xs
  written := ys
  stored := zs
  got := 0
  returns := rs

def oneByte : List Access :=
  .write [0] :: List.replicate 7 (.writeStep true) ++ .read 1 :: List.replicate 7 (.readStep true)

theorem oneByte_write {pos : Word} (hpos : pos.toNat ≤ posLimit) (buf : Nat → Byte)
    (xs ys zs : List Byte) (rs : List (Nat × Nat)) :
    (.write [0] :: List.replicate 7 (.writeStep true)).foldlM Channel.step (.at pos buf xs ys zs rs) =
      some { Channel.at pos buf (xs ++ [0]) (ys ++ [0]) zs rs with
        pipe := ⟨pos, pos + 1, Function.update buf (pos.toNat % pipebufsiz) 0⟩ } := by
  have hroom : ¬ pos + BitVec.ofNat 32 pipebufsiz ≤ pos := by
    rw [posLimit] at hpos
    have h32 : (BitVec.ofNat 32 pipebufsiz).toNat = 32 := rfl
    rw [BitVec.le_def, BitVec.toNat_add, h32]
    omega
  simp [List.replicate, Channel.at, Channel.step, Channel.writeStep, Channel.writeNext, hroom,
    Pipe.index_of_le hpos]

theorem oneByte_read {pos : Word} (hpos : pos.toNat ≤ posLimit) (buf : Nat → Byte)
    (xs ys zs : List Byte) (rs : List (Nat × Nat)) :
    (.read 1 :: List.replicate 7 (.readStep true)).foldlM Channel.step
        { Channel.at pos buf xs ys zs rs with pipe := ⟨pos, pos + 1, buf⟩ } =
      some (.at (pos + 1) buf xs ys (zs ++ [buf (pos.toNat % pipebufsiz)]) (rs ++ [(1, 1)])) := by
  simp [List.replicate, Channel.at, Channel.step, Channel.readStep, Channel.readNext,
    Channel.readReturn, Pipe.index_of_le hpos]

theorem oneByte_run {pos : Word} (hpos : pos.toNat ≤ posLimit) (buf : Nat → Byte)
    (xs ys zs : List Byte) (rs : List (Nat × Nat)) :
    ∃ buf' xs' ys' zs' rs', oneByte.foldlM Channel.step (.at pos buf xs ys zs rs) =
      some (.at (pos + 1) buf' xs' ys' zs' rs') := by
  rw [oneByte, List.foldlM_append, oneByte_write hpos]
  exact ⟨_, _, _, _, _, oneByte_read hpos ..⟩

theorem exists_run_at (n : Nat) (hn : n ≤ posLimit + 1) :
    ∃ es buf xs ys zs rs, Run Channel.step (fun _ _ => True) Channel.start es
      (.at (BitVec.ofNat 32 n) buf xs ys zs rs) := by
  induction n with
  | zero => exact ⟨[], fun _ => 0, [], [], [], [], .nil⟩
  | succ n ih =>
    obtain ⟨es, buf, xs, ys, zs, rs, hrun⟩ := ih (Nat.le_of_succ_le hn)
    have hpos : (BitVec.ofNat 32 n).toNat ≤ posLimit := by
      rw [BitVec.toNat_ofNat]
      exact (Nat.mod_le _ _).trans (Nat.le_of_succ_le_succ hn)
    obtain ⟨buf', xs', ys', zs', rs', hround⟩ := oneByte_run hpos buf xs ys zs rs
    rw [← BitVec.ofNat_add_ofNat] at *
    exact ⟨es ++ oneByte, buf', xs', ys', zs', rs', hrun.append (.ofFoldlM hround)⟩

/-- After `2 ^ 31 + 1` bytes the writer is about to store the next one at index -31. -/
theorem pipe_index_negative : ∃ es c,
    Run Channel.step (fun _ _ => True) Channel.start es c ∧
      c.writer = .store [0] 0 (BitVec.ofNat 32 (posLimit + 1)) ∧ ¬ InOrder c := by
  obtain ⟨es, buf, xs, ys, zs, rs, hrun⟩ := exists_run_at (posLimit + 1) (Nat.le_refl _)
  have hstep : ∃ c, (Access.write [0] :: List.replicate 4 (.writeStep true)).foldlM Channel.step
      (.at (BitVec.ofNat 32 (posLimit + 1)) buf xs ys zs rs) = some c ∧
        c.writer = .store [0] 0 (BitVec.ofNat 32 (posLimit + 1)) := ⟨_, rfl, rfl⟩
  obtain ⟨c, hc, hw⟩ := hstep
  refine ⟨_, c, hrun.append (.ofFoldlM hc), hw, fun h => ?_⟩
  obtain ⟨j, hj, -⟩ := h.writeIndex _ _ _ hw
  have hnone : Pipe.index (BitVec.ofNat 32 (posLimit + 1)) = none := by decide
  rw [hnone] at hj
  cases hj

end Jos.User
