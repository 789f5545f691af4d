import Jos.Kern.State
import Mathlib.Logic.Function.Basic

/-! `memset` and `memmove` of `lib/string.c`, the versions with string instructions and the
plain ones. -/

namespace Jos.User

open Kern

abbrev Mem := Word → Byte

/-- `movsb` for `w = 1` and `movsl` for `w = 4`: all is read before anything is written. -/
def movs (w : Nat) (edi esi : Word) (m : Mem) : Mem := fun a =>
  if (a - edi).toNat < w then m (esi + (a - edi)) else m a

def stos (w : Nat) (eax edi : Word) (m : Mem) : Mem := fun a =>
  if (a - edi).toNat < w then eax.extractLsb' (8 * (a - edi).toNat) 8 else m a

def repMovs (w : Nat) (step : Word) : Nat → Word → Word → Mem → Mem
  | 0, _, _, m => m
  | ecx + 1, edi, esi, m => repMovs w step ecx (edi + step) (esi + step) (movs w edi esi m)

def repStos (w : Nat) (eax : Word) : Nat → Word → Mem → Mem
  | 0, _, m => m
  | ecx + 1, edi, m => repStos w eax ecx (edi + BitVec.ofNat 32 w) (stos w eax edi m)

def memsetAsm (v c n : Word) (m : Mem) : Word × Mem :=
  if n = 0 then (v, m)
  else if v.srem 4 = 0 ∧ n % 4 = 0 then
    let c := c &&& 0xFF
    let c := c <<< 24 ||| c <<< 16 ||| c <<< 8 ||| c
    (v, repStos 4 c (n / 4).toNat v m)
  else (v, repStos 1 c n.toNat v m)

def memmoveAsm (dst src n : Word) (m : Mem) : Word × Mem :=
  let s := src
  let d := dst
  if s < d ∧ s + n > d then
    let s := s + n
    let d := d + n
    if s.srem 4 = 0 ∧ d.srem 4 = 0 ∧ n % 4 = 0 then
      (dst, repMovs 4 (-4) (n / 4).toNat (d - 4) (s - 4) m)
    else (dst, repMovs 1 (-1) n.toNat (d - 1) (s - 1) m)
  else if s.srem 4 = 0 ∧ d.srem 4 = 0 ∧ n % 4 = 0 then
    (dst, repMovs 4 4 (n / 4).toNat d s m)
  else (dst, repMovs 1 1 n.toNat d s m)

def memsetLoop (c : Word) : Nat → Word → Mem → Mem
  | 0, _, m => m
  | k + 1, p, m => memsetLoop c k (p + 1) (Function.update m p (c.setWidth 8))

/-- The counter is an `int`. -/
def memset (v c n : Word) (m : Mem) : Word × Mem := (v, memsetLoop c n.toInt.toNat v m)

def memmoveDown : Nat → Word → Word → Mem → Mem
  | 0, _, _, m => m
  | k + 1, d, s, m => memmoveDown k (d - 1) (s - 1) (Function.update m (d - 1) (m (s - 1)))

def memmoveUp : Nat → Word → Word → Mem → Mem
  | 0, _, _, m => m
  | k + 1, d, s, m => memmoveUp k (d + 1) (s + 1) (Function.update m d (m s))

def memmove (dst src n : Word) (m : Mem) : Word × Mem :=
  let s := src
  let d := dst
  if s < d ∧ s + n > d then (dst, memmoveDown n.toNat (d + n) (s + n) m)
  else (dst, memmoveUp n.toNat d s m)

def copied (m : Mem) (dst src : Word) (lo hi : Nat) : Mem := fun a =>
  if lo ≤ (a - dst).toNat ∧ (a - dst).toNat < hi then m (src + (a - dst)) else m a

def filled (m : Mem) (v : Word) (c : Byte) (hi : Nat) : Mem := fun a =>
  if (a - v).toNat < hi then c else m a

section

variable {m : Mem} {dst src v c n : Word} {w k lo hi i N : Nat}

theorem sub_add (a b c : Word) : a - (b + c) = a - b - c := by
  rw [BitVec.sub_eq_add_neg, BitVec.neg_add, BitVec.sub_eq_add_neg, BitVec.sub_eq_add_neg,
    BitVec.sub_eq_add_neg, BitVec.add_assoc]

theorem add_add_sub (a d s i : Word) : s + i + (a - (d + i)) = s + (a - d) := by
  rw [sub_add, BitVec.add_assoc, BitVec.add_comm i, BitVec.sub_add_cancel]

theorem sub_add_lt_iff {a : Word} (hi : i + w ≤ 2 ^ 32) :
    (a - (dst + BitVec.ofNat 32 i)).toNat < w ↔ i ≤ (a - dst).toNat ∧ (a - dst).toNat < i + w := by
  rw [sub_add, BitVec.toNat_sub, BitVec.toNat_ofNat]
  have := (a - dst).isLt
  omega

theorem movs_copied {lo' hi' : Nat} (hw : i + w ≤ 2 ^ 32)
    (hread : ∀ a : Word, i ≤ a.toNat → a.toNat < i + w →
      ¬ (lo ≤ (src + a - dst).toNat ∧ (src + a - dst).toNat < hi))
    (hparts : ∀ j, (lo' ≤ j ∧ j < hi') ↔ (lo ≤ j ∧ j < hi) ∨ (i ≤ j ∧ j < i + w)) :
    movs w (dst + BitVec.ofNat 32 i) (src + BitVec.ofNat 32 i) (copied m dst src lo hi) =
      copied m dst src lo' hi' := by
  funext a
  rw [movs, copied, add_add_sub]
  by_cases hin : (a - (dst + BitVec.ofNat 32 i)).toNat < w
  · have hj := (sub_add_lt_iff hw).1 hin
    rw [if_pos hin, if_neg (hread _ hj.1 hj.2), copied, if_pos ((hparts _).2 (.inr hj))]
  · rw [if_neg hin, copied, copied]
    refine if_congr ((hparts _).trans (or_iff_left ?_)).symm rfl rfl
    exact fun hj => hin ((sub_add_lt_iff hw).2 hj)

theorem repMovs_up (hd : dst.toNat + N ≤ 2 ^ 32) (hs : src.toNat + N ≤ 2 ^ 32)
    (hapart : ¬ (src.toNat < dst.toNat ∧ dst.toNat < src.toNat + N)) (hk : i + k * w ≤ N) :
    repMovs w (BitVec.ofNat 32 w) k (dst + BitVec.ofNat 32 i) (src + BitVec.ofNat 32 i)
      (copied m dst src 0 i) = copied m dst src 0 (i + k * w) := by
  induction k generalizing i with
  | zero => rw [repMovs, Nat.zero_mul, Nat.add_zero]
  | succ k ih =>
    rw [Nat.succ_mul] at hk
    rw [repMovs, movs_copied (by omega) (fun a ha ha' => ?_) fun j => (by omega : (0 ≤ j ∧
      j < i + w) ↔ _), BitVec.add_assoc, BitVec.add_assoc, ← BitVec.ofNat_add, ih (by omega),
      Nat.succ_mul, Nat.add_assoc, Nat.add_comm w]
    rw [BitVec.toNat_sub, BitVec.toNat_add]
    omega

theorem repMovs_down (hd : dst.toNat + N ≤ 2 ^ 32) (hlt : src.toNat < dst.toNat) (hk : k * w ≤ N) :
    repMovs w (-BitVec.ofNat 32 w) k (dst + BitVec.ofNat 32 (k * w) - BitVec.ofNat 32 w)
      (src + BitVec.ofNat 32 (k * w) - BitVec.ofNat 32 w) (copied m dst src (k * w) N) =
      copied m dst src 0 N := by
  induction k with
  | zero => rw [repMovs, Nat.zero_mul]
  | succ k ih =>
    have hpos : ∀ b : Word, b + BitVec.ofNat 32 ((k + 1) * w) - BitVec.ofNat 32 w =
        b + BitVec.ofNat 32 (k * w) := by
      intro b
      rw [Nat.succ_mul, BitVec.ofNat_add, ← BitVec.add_assoc, BitVec.add_sub_cancel]
    rw [Nat.succ_mul] at hk
    rw [repMovs, hpos, hpos, movs_copied (by omega) (fun a ha ha' => ?_) fun j => (by
      rw [Nat.succ_mul]; omega : (k * w ≤ j ∧ j < N) ↔ _), ← BitVec.sub_eq_add_neg,
      ← BitVec.sub_eq_add_neg, ih (by omega)]
    rw [Nat.succ_mul, BitVec.toNat_sub, BitVec.toNat_add]
    omega

theorem copied_empty : copied m dst src N N = m := by
  funext a
  rw [copied, if_neg (by omega)]

theorem sub_lt_one_iff {a : Word} : (a - dst).toNat < 1 ↔ a = dst := by
  have := dst.isLt
  have := a.isLt
  rw [BitVec.toNat_sub, ← BitVec.toNat_inj]
  omega

theorem movs_one : movs 1 dst src m = Function.update m dst (m src) := by
  funext a
  rw [movs, Function.update_apply]
  by_cases ha : a = dst
  · rw [if_pos (sub_lt_one_iff.2 ha), if_pos ha, ha, BitVec.sub_self, BitVec.add_zero]
  · rw [if_neg fun h => ha (sub_lt_one_iff.1 h), if_neg ha]

theorem memmoveUp_eq : memmoveUp k dst src m = repMovs 1 1 k dst src m := by
  induction k generalizing dst src m with
  | zero => rfl
  | succ k ih => rw [memmoveUp, repMovs, movs_one, ih]

theorem memmoveDown_eq : memmoveDown k dst src m = repMovs 1 (-1) k (dst - 1) (src - 1) m := by
  induction k generalizing dst src m with
  | zero => rfl
  | succ k ih =>
    rw [memmoveDown, repMovs, movs_one, ih]
    simp only [BitVec.sub_eq_add_neg]

theorem repStos_filled {b : Byte} (hc : ∀ j, j < w → c.extractLsb' (8 * j) 8 = b)
    (hk : i + k * w ≤ 2 ^ 32) :
    repStos w c k (v + BitVec.ofNat 32 i) (filled m v b i) = filled m v b (i + k * w) := by
  induction k generalizing i with
  | zero => rw [repStos, Nat.zero_mul, Nat.add_zero]
  | succ k ih =>
    rw [Nat.succ_mul] at hk
    have hone : stos w c (v + BitVec.ofNat 32 i) (filled m v b i) = filled m v b (i + w) := by
      funext a
      rw [stos, filled, filled]
      by_cases hin : (a - (v + BitVec.ofNat 32 i)).toNat < w
      · rw [if_pos hin, hc _ hin, if_pos ((sub_add_lt_iff (by omega)).1 hin).2]
      · rw [if_neg hin]
        rw [sub_add_lt_iff (by omega)] at hin
        exact if_congr (by omega) rfl rfl
    rw [repStos, hone, BitVec.add_assoc, ← BitVec.ofNat_add, ih (by omega), Nat.succ_mul,
      Nat.add_assoc, Nat.add_comm w]

theorem extract_low : c.extractLsb' 0 8 = c.setWidth 8 := by
  apply BitVec.eq_of_getLsbD_eq
  simp

theorem memsetLoop_eq : memsetLoop c k v m = repStos 1 c k v m := by
  induction k generalizing v m with
  | zero => rfl
  | succ k ih =>
    have hone : stos 1 c v m = Function.update m v (c.setWidth 8) := by
      funext a
      rw [stos, Function.update_apply]
      by_cases ha : a = v
      · rw [if_pos (sub_lt_one_iff.2 ha), if_pos ha, ha, BitVec.sub_self]
        exact extract_low
      · rw [if_neg fun h => ha (sub_lt_one_iff.1 h), if_neg ha]
    rw [memsetLoop, repStos, hone, ih]
    rfl

theorem spread_byte {j : Nat} (hj : j < 4) :
    ((c &&& 0xFF) <<< 24 ||| (c &&& 0xFF) <<< 16 ||| (c &&& 0xFF) <<< 8 ||| c &&& 0xFF).extractLsb'
      (8 * j) 8 = c.setWidth 8 := by
  have hff : ∀ i, (0xFF : Word).getLsbD i = decide (i < 8) := by
    intro i
    rw [show (0xFF : Word) = BitVec.ofNat 32 (2 ^ 8 - 1) from rfl, BitVec.getLsbD_ofNat,
      Nat.testBit_two_pow_sub_one]
    grind
  apply BitVec.eq_of_getLsbD_eq
  intro i hi
  simp only [BitVec.getLsbD_extractLsb', BitVec.getLsbD_or, BitVec.getLsbD_shiftLeft,
    BitVec.getLsbD_and, hff, BitVec.getLsbD_setWidth, hi, decide_true, Bool.true_and]
  obtain rfl | rfl | rfl | rfl : j = 0 ∨ j = 1 ∨ j = 2 ∨ j = 3 := by omega
  all_goals grind

theorem add_ofNat_zero : v + BitVec.ofNat 32 0 = v := BitVec.add_zero v

theorem words_mul (h : n % 4 = 0) : (n / 4).toNat * 4 = n.toNat := by
  have h : n.toNat % 4 = 0 := by
    rw [← BitVec.toNat_inj, BitVec.toNat_umod] at h
    exact h
  rw [BitVec.toNat_udiv]
  change n.toNat / 4 * 4 = n.toNat
  omega

theorem memmove_eq (hd : dst.toNat + n.toNat ≤ 2 ^ 32) (hs : src.toNat + n.toNat ≤ 2 ^ 32) :
    memmove dst src n m = (dst, copied m dst src 0 n.toNat) ∧
      memmoveAsm dst src n m = (dst, copied m dst src 0 n.toNat) := by
  have hn : BitVec.ofNat 32 n.toNat = n := by rw [BitVec.ofNat_toNat, BitVec.setWidth_eq]
  have hback : src < dst ∧ src + n > dst → ∀ w k, k * w = n.toNat →
      repMovs w (-BitVec.ofNat 32 w) k (dst + n - BitVec.ofNat 32 w) (src + n - BitVec.ofNat 32 w) m =
        copied m dst src 0 n.toNat := by
    intro hlt w k hk
    have h := repMovs_down (m := m) hd (BitVec.lt_def.1 hlt.1) hk.le
    rwa [hk, hn, copied_empty] at h
  have hforth : ¬ (src < dst ∧ src + n > dst) → ∀ w k, k * w = n.toNat →
      repMovs w (BitVec.ofNat 32 w) k dst src m = copied m dst src 0 n.toNat := by
    intro hno w k hk
    have h := repMovs_up (m := m) (i := 0) hd hs (fun hlt => hno ⟨hlt.1, ?_⟩) (by omega : 0 + k * w ≤ _)
    · rwa [add_ofNat_zero, add_ofNat_zero, copied_empty, Nat.zero_add, hk] at h
    · rw [gt_iff_lt, BitVec.lt_def, BitVec.toNat_add]
      omega
  rw [memmove, memmoveAsm]
  dsimp only
  split
  · next hlt =>
    rw [memmoveDown_eq]
    refine ⟨congrArg _ (hback hlt 1 _ (Nat.mul_one _)), ?_⟩
    split
    · next hal => exact congrArg _ (hback hlt 4 _ (words_mul hal.2.2))
    · exact congrArg _ (hback hlt 1 _ (Nat.mul_one _))
  · next hno =>
    rw [memmoveUp_eq]
    refine ⟨congrArg _ (hforth hno 1 _ (Nat.mul_one _)), ?_⟩
    split
    · next hal => exact congrArg _ (hforth hno 4 _ (words_mul hal.2.2))
    · exact congrArg _ (hforth hno 1 _ (Nat.mul_one _))

theorem memset_eq (hn : n.toNat < 2 ^ 31) :
    memset v c n m = (v, filled m v (c.setWidth 8) n.toNat) ∧
      memsetAsm v c n m = (v, filled m v (c.setWidth 8) n.toNat) := by
  have hfill : ∀ eax w k, (∀ j, j < w → eax.extractLsb' (8 * j) 8 = c.setWidth 8) →
      k * w = n.toNat → repStos w eax k v m = filled m v (c.setWidth 8) n.toNat := by
    intro eax w k hc hk
    have h := repStos_filled (m := m) (v := v) (i := 0) (k := k) hc (by omega)
    have h0 : filled m v (c.setWidth 8) 0 = m := rfl
    rwa [add_ofNat_zero, h0, Nat.zero_add, hk] at h
  have hbyte : ∀ j, j < 1 → c.extractLsb' (8 * j) 8 = c.setWidth 8 := by
    intro j hj
    rw [Nat.lt_one_iff.1 hj]
    exact extract_low
  have hint : n.toInt.toNat = n.toNat := by
    rw [BitVec.toInt_eq_toNat_of_lt (by omega)]
    rfl
  rw [memset, memsetAsm, hint, memsetLoop_eq, hfill _ 1 _ hbyte (Nat.mul_one _)]
  refine ⟨rfl, ?_⟩
  split
  · next h0 =>
    rw [h0]
    rfl
  · split
    · next hal => exact congrArg _ (hfill _ 4 _ (fun j hj => spread_byte hj) (words_mul hal.2))
    · rfl

end

/-- The versions with string instructions do what the plain ones do: for every overlap
`memmove` leaves at `dst` what was at `src`, and nothing else changes. -/
theorem memmove_memset_asm {dst src c n : Word} {m : Mem} (hn : n.toNat < 2 ^ 31)
    (hd : dst.toNat + n.toNat ≤ 2 ^ 32) (hs : src.toNat + n.toNat ≤ 2 ^ 32) :
    (memmoveAsm dst src n m = memmove dst src n m ∧
      memmove dst src n m = (dst, copied m dst src 0 n.toNat)) ∧
    memsetAsm dst c n m = memset dst c n m ∧
      memset dst c n m = (dst, filled m dst (c.setWidth 8) n.toNat) := by
  obtain ⟨hmove, hmove'⟩ := memmove_eq (m := m) hd hs
  obtain ⟨hset, hset'⟩ := memset_eq (v := dst) (c := c) (m := m) hn
  exact ⟨⟨hmove'.trans hmove.symm, hmove⟩, hset'.trans hset.symm, hset⟩

theorem memmove_eight : memmoveAsm 0x1004 0x1000 8 (fun a => a.setWidth 8) =
    memmove 0x1004 0x1000 8 fun a => a.setWidth 8 :=
  (memmove_memset_asm (c := 0) (by decide) (by decide) (by decide)).1.1

end Jos.User
