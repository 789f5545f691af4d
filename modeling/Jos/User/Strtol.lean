import Jos.User.Printfmt

/-! `lib/string.c`, `strtol`, and the numbers `snprintf` prints. -/

namespace Jos.User

open Kern

/-! A string is given with its NUL.  `none` stands for a read behind it. -/

def gobble : List Byte → Option (List Byte)
  | [] => none
  | c :: s => if c = chr ' ' ∨ c = chr '\t' then gobble s else some (c :: s)

def sign : List Byte → Option (Bool × List Byte)
  | [] => none
  | c :: s =>
    if c = chr '+' then some (false, s)
    else if c = chr '-' then some (true, s)
    else some (false, c :: s)

def hexPrefix : List Byte → Option Bool
  | [] => none
  | c :: s => if c = chr '0' then s.head?.map fun d => d = chr 'x' else some false

def basePrefix (base : Word) (s : List Byte) : Option (Word × List Byte) := do
  if ← (if base = 0 ∨ base = 16 then hexPrefix s else some false) then some (16, s.drop 2)
  else if base = 0 then
    if (← s.head?) = chr '0' then some (8, s.drop 1) else some (10, s)
  else some (base, s)

def strtolDigit (c : Byte) : Option Word :=
  let c := charInt c
  if (charInt (chr '0')).sle c ∧ c.sle (charInt (chr '9')) then some (c - charInt (chr '0'))
  else if (charInt (chr 'a')).sle c ∧ c.sle (charInt (chr 'z')) then
    some (c - charInt (chr 'a') + 10)
  else if (charInt (chr 'A')).sle c ∧ c.sle (charInt (chr 'Z')) then
    some (c - charInt (chr 'A') + 10)
  else none

def strtolDigits (base : Word) : Word → List Byte → Option (Word × List Byte)
  | _, [] => none
  | val, c :: s =>
    match strtolDigit c with
    | none => some (val, c :: s)
    | some dig => if base.sle dig then some (val, c :: s) else strtolDigits base (val * base + dig) s

def strtol (s : List Byte) (base : Word) : Option (Word × List Byte) := do
  let s ← gobble s
  let (neg, s) ← sign s
  let (base, s) ← basePrefix base s
  let (val, s) ← strtolDigits base 0 s
  some (if neg then -val else val, s)

def numeral (base : Nat) (hb : 1 < base) (num : Nat) : List Byte :=
  if h : base ≤ num then
    have : num / base < num := Nat.div_lt_self (Nat.lt_of_lt_of_le (Nat.zero_lt_of_lt hb) h) hb
    numeral base hb (num / base) ++ [(digitChar (num % base)).setWidth 8]
  else [(digitChar (num % base)).setWidth 8]
termination_by num

section

variable {base num k : Nat} {hb : 1 < base}

theorem pads_eq_nil {padc width : Word} (h : width.toInt ≤ 0) : pads padc width = [] := by
  rw [pads, Int.toNat_of_nonpos h, List.replicate_zero]

theorem printnum_numeral {width padc : Word} (hk : num < 2 ^ k) (hw : width.toInt ≤ 0)
    (hw' : -2 ^ 31 + k + 1 ≤ width.toInt) :
    (printnum base hb num width padc).map (BitVec.setWidth 8) = numeral base hb num := by
  induction num using Nat.strong_induction_on generalizing k width with
  | h num ih =>
    have hsub : (width - 1).toInt = width.toInt - 1 := by
      rw [BitVec.toInt_sub, show (1 : Word).toInt = 1 from rfl]
      exact Int.bmod_eq_of_le (by omega) (by omega)
    rw [printnum, numeral]
    split_ifs with h
    · have hlt : num / base < num := Nat.div_lt_self (by omega) hb
      cases k with
      | zero => omega
      | succ k =>
        have hle : num / base < 2 ^ k := by
          rw [Nat.div_lt_iff_lt_mul (by omega)]
          calc num < 2 ^ (k + 1) := hk
            _ = 2 ^ k * 2 := Nat.pow_succ ..
            _ ≤ 2 ^ k * base := Nat.mul_le_mul_left _ hb
        rw [List.map_append, ih _ hlt hle (by omega) (by push_cast at hw'; omega)]
        rfl
    · rw [pads_eq_nil (by omega)]
      rfl

theorem digit_forall {P : Byte → Prop} (h : ∀ d : Fin 16, P ((digitChar d).setWidth 8)) :
    ∀ d < 16, P ((digitChar d).setWidth 8) := fun d hd => h ⟨d, hd⟩

theorem forall_numeral (hb16 : base ≤ 16) {P : Byte → Prop}
    (h : ∀ d < 16, P ((digitChar d).setWidth 8)) : ∀ c ∈ numeral base hb num, P c := by
  induction num using Nat.strong_induction_on with
  | h num ih =>
    have hmod : num % base < 16 := (Nat.mod_lt num (by omega)).trans_le hb16
    rw [numeral]
    split_ifs with hle
    · intro c hc
      rcases List.mem_append.1 hc with hc | hc
      · exact ih _ (Nat.div_lt_self (by omega) hb) c hc
      · exact List.mem_singleton.1 hc ▸ h _ hmod
    · intro c hc
      exact List.mem_singleton.1 hc ▸ h _ hmod

theorem numeral_ne_nil : numeral base hb num ≠ [] := by
  rw [numeral]
  split_ifs <;> simp

theorem strtolDigits_digit (hb16 : base ≤ 16) {d : Nat} (hd : d < base) (val : Word)
    (rest : List Byte) :
    strtolDigits (BitVec.ofNat 32 base) val ((digitChar d).setWidth 8 :: rest) =
      strtolDigits (BitVec.ofNat 32 base) (val * BitVec.ofNat 32 base + BitVec.ofNat 32 d) rest := by
  have hdig : ∀ d : Fin 16, strtolDigit ((digitChar d).setWidth 8) = some (BitVec.ofNat 32 d) := by
    decide
  have hsle : ∀ b : Fin 17, ∀ d : Fin 16, d.val < b.val →
      (BitVec.ofNat 32 b).sle (BitVec.ofNat 32 d) = false := by decide
  rw [strtolDigits, hdig ⟨d, by omega⟩]
  dsimp only
  rw [hsle ⟨base, by omega⟩ ⟨d, by omega⟩ hd, if_neg Bool.false_ne_true]

theorem strtolDigits_numeral (hb16 : base ≤ 16) (rest : List Byte) :
    strtolDigits (BitVec.ofNat 32 base) 0 (numeral base hb num ++ rest) =
      strtolDigits (BitVec.ofNat 32 base) (BitVec.ofNat 32 num) rest := by
  induction num using Nat.strong_induction_on generalizing rest with
  | h num ih =>
    rw [numeral]
    split_ifs with hle
    · rw [List.append_assoc, ih _ (Nat.div_lt_self (by omega) hb), List.singleton_append,
        strtolDigits_digit hb16 (Nat.mod_lt _ (by omega)), ← BitVec.ofNat_mul, ← BitVec.ofNat_add,
        Nat.mul_comm, Nat.div_add_mod]
    · rw [List.singleton_append, strtolDigits_digit hb16 (Nat.mod_lt _ (by omega)),
        Nat.mod_eq_of_lt (by omega), show (0 : Word) * BitVec.ofNat 32 base = 0 from
          BitVec.zero_mul, show (0 : Word) + BitVec.ofNat 32 num = BitVec.ofNat 32 num from
          BitVec.zero_add _]

theorem strtolDigits_nul (b val : Word) : strtolDigits b val [0] = some (val, [0]) := rfl

theorem gobble_eq {c : Byte} {s : List Byte} (h : ¬ (c = chr ' ' ∨ c = chr '\t')) :
    gobble (c :: s) = some (c :: s) := if_neg h

theorem basePrefix_numeral (hb16 : base ≤ 16) :
    basePrefix (BitVec.ofNat 32 base) (numeral base hb num ++ [0]) =
      some (BitVec.ofNat 32 base, numeral base hb num ++ [0]) := by
  have hx : ∀ c ∈ numeral base hb num ++ [0], c ≠ chr 'x' := by
    intro c hc
    rcases List.mem_append.1 hc with hc | hc
    · exact forall_numeral (P := (· ≠ chr 'x')) hb16
        (digit_forall (P := (· ≠ chr 'x')) (by decide)) c hc
    · exact List.mem_singleton.1 hc ▸ by decide
  have hhex : hexPrefix (numeral base hb num ++ [0]) = some false := by
    obtain ⟨c, s, hs⟩ := List.exists_cons_of_ne_nil (@numeral_ne_nil base num hb)
    rw [hs, List.cons_append, hexPrefix]
    split_ifs
    · obtain ⟨d, t, ht⟩ : ∃ d t, s ++ [0] = d :: t :=
        List.exists_cons_of_ne_nil (List.append_ne_nil_of_right_ne_nil _ (by simp))
      have hd : d ≠ chr 'x' := hx d (by rw [hs, List.cons_append, ht]; simp)
      rw [ht, List.head?_cons, Option.map_some, decide_eq_false hd]
    · rfl
  have hbase : BitVec.ofNat 32 base ≠ 0 := by
    intro h0
    have := congrArg BitVec.toNat h0
    rw [BitVec.toNat_ofNat, Nat.mod_eq_of_lt (by omega)] at this
    exact absurd this (by simp; omega)
  rw [basePrefix]
  split_ifs
  · rw [hhex]
    simp
  · simp

theorem strtol_eq (hb16 : base ≤ 16) {s s' : List Byte} {neg : Bool} (hgob : gobble s = some s')
    (hsign : sign s' = some (neg, numeral base hb num ++ [0])) :
    strtol s (BitVec.ofNat 32 base) =
      some (if neg then -BitVec.ofNat 32 num else BitVec.ofNat 32 num, [0]) := by
  simp only [strtol, hgob, hsign, basePrefix_numeral hb16, strtolDigits_numeral hb16,
    strtolDigits_nul, Option.bind_eq_bind, Option.bind_some]

def Unsigned (c : Byte) : Prop := ¬ (c = chr ' ' ∨ c = chr '\t') ∧ c ≠ chr '+' ∧ c ≠ chr '-'

instance : DecidablePred Unsigned := fun _ => inferInstanceAs (Decidable (_ ∧ _))

theorem strtol_numeral (hb16 : base ≤ 16) :
    strtol (numeral base hb num ++ [0]) (BitVec.ofNat 32 base) =
      some (BitVec.ofNat 32 num, [0]) := by
  obtain ⟨c, s, hs⟩ := List.exists_cons_of_ne_nil (@numeral_ne_nil base num hb)
  have hc : Unsigned c :=
    forall_numeral hb16 (digit_forall (P := Unsigned) (by decide)) c (hs ▸ List.mem_cons_self)
  have hgob : gobble (numeral base hb num ++ [0]) = some (numeral base hb num ++ [0]) := by
    rw [hs]
    exact gobble_eq hc.1
  have hsign : sign (numeral base hb num ++ [0]) = some (false, numeral base hb num ++ [0]) := by
    rw [hs, List.cons_append, sign, if_neg hc.2.1, if_neg hc.2.2]
  exact strtol_eq hb16 hgob hsign

theorem strtol_neg_numeral (hb16 : base ≤ 16) :
    strtol (chr '-' :: numeral base hb num ++ [0]) (BitVec.ofNat 32 base) =
      some (-BitVec.ofNat 32 num, [0]) := by
  have hsign : sign (chr '-' :: (numeral base hb num ++ [0])) =
      some (true, numeral base hb num ++ [0]) := rfl
  exact strtol_eq hb16 (gobble_eq (by decide)) hsign

theorem vprintfmt_single {fuel : Nat} {c : Byte} {k : Conv} {ap a : List Arg} {out : List Word}
    (hc : caseOf c = .conv k)
    (hout : convert (fun fmt ap => vprintfmt (fuel + 2) fmt ap 0) .start ap k = some (out, a)) :
    vprintfmt (fuel + 3) [chr '%', c] ap 0 = some out := by
  have hsw : reswitch [chr '%', c] (fuel + 2) .start ap 1 = some (c, .start, ap, 2) := by
    have hat : fmtAt [chr '%', c] 1 = some c := rfl
    rw [reswitch, hat, Option.bind_eq_bind, Option.bind_some, hc]
  have hrest : vprintfmt (fuel + 2) [chr '%', c] a 2 = some [] := rfl
  have h := vprintfmt_conv (p := 0) rfl hsw hc hout hrest
  rwa [List.append_nil] at h

theorem vsnprintf_fits {fuel : Nat} {n : Word} {fmt : List Byte} {ap : List Arg} {out : List Word}
    (h : vprintfmt fuel fmt ap 0 = some out) (hn : (out.length : Int) < n.toInt) :
    vsnprintf fuel n fmt ap =
      some (BitVec.ofNat 32 out.length, out.map (BitVec.setWidth 8) ++ [0]) := by
  have hlen : out.length ≤ n.toNat - 1 := by
    have := BitVec.toInt_eq_toNat_cond n
    have := n.isLt
    omega
  rw [vsnprintf_eq h (by omega), List.take_of_length_le hlen]

theorem length_numeral (h : num < base ^ (k + 1)) : (numeral base hb num).length ≤ k + 1 := by
  induction num using Nat.strong_induction_on generalizing k with
  | h num ih =>
    rw [numeral]
    split_ifs with hle
    · cases k with
      | zero =>
        rw [Nat.zero_add, Nat.pow_one] at h
        omega
      | succ k =>
        have := ih (num / base) (Nat.div_lt_self (by omega) hb)
          ((Nat.div_lt_iff_lt_mul (by omega)).2 h)
        simpa using this
    · simp

theorem putNumber_start (num : BitVec 64) :
    (putNumber .start base hb num).map (BitVec.setWidth 8) = numeral base hb num.toNat :=
  printnum_numeral num.isLt (by decide) (by decide)

end

inductive Radix
  | d
  | u
  | x
  | o

namespace Radix

def char : Radix → Byte
  | d => chr 'd'
  | u => chr 'u'
  | x => chr 'x'
  | o => chr 'o'

def base : Radix → Word
  | d | u => 10
  | x => 16
  | o => 8

structure Text (f : Radix) (v : Word) (out : List Word) : Prop where
  printed : ∀ fuel, 3 ≤ fuel → vprintfmt fuel [chr '%', f.char] [.int v] 0 = some out
  length : out.length ≤ 11
  read : strtol (out.map (BitVec.setWidth 8) ++ [0]) f.base = some (v, [0])

theorem text_unsigned {f : Radix} {v : Word} {b : Nat} {hb : 1 < b} {k : Conv} (h16 : b ≤ 16)
    (h8 : 8 ≤ b) (hbase : f.base = BitVec.ofNat 32 b) (hc : caseOf f.char = .conv k)
    (hk : ∀ print, convert print .start [.int v] k =
      some (putNumber .start b hb (v.setWidth 64), [])) :
    f.Text v (putNumber .start b hb (v.setWidth 64)) := by
  have hnum : (v.setWidth 64).toNat = v.toNat :=
    BitVec.toNat_setWidth_of_le (by decide)
  refine ⟨fun fuel hf => ?_, ?_, ?_⟩
  · obtain ⟨n, rfl⟩ := Nat.exists_eq_add_of_le' hf
    exact vprintfmt_single hc (hk _)
  · rw [← List.length_map (BitVec.setWidth 8), putNumber_start, hnum]
    refine length_numeral (k := 10) ?_
    calc v.toNat < 2 ^ 32 := v.isLt
      _ ≤ 8 ^ 11 := by decide
      _ ≤ b ^ (10 + 1) := Nat.pow_le_pow_left h8 _
  · rw [putNumber_start, hnum, hbase, strtol_numeral h16, BitVec.ofNat_toNat, BitVec.setWidth_eq]

theorem toNat_signExtend (v : Word) : (v.signExtend 64).toNat =
    if v.slt 0 then v.toNat + (2 ^ 64 - 2 ^ 32) else v.toNat := by
  rw [BitVec.toNat_signExtend, BitVec.toNat_setWidth_of_le (by decide),
    show v.slt 0 = v.msb from BitVec.slt_zero_eq_msb]
  split_ifs <;> rfl

theorem slt_signExtend (v : Word) : (v.signExtend 64).slt 0 = v.slt 0 := by
  rw [BitVec.slt_eq_decide, BitVec.slt_eq_decide, BitVec.toInt_signExtend_of_le (by decide)]
  rfl

theorem text_neg {v : Word} (h : v.slt 0 = true) :
    Text d v (charInt (chr '-') :: putNumber .start 10 (by decide) (-v.signExtend 64)) := by
  have hv : 2 ^ 31 ≤ v.toNat := by
    rw [show v.slt 0 = v.msb from BitVec.slt_zero_eq_msb, BitVec.msb_eq_decide] at h
    simpa using h
  have hnum : (-v.signExtend 64).toNat = 2 ^ 32 - v.toNat := by
    have := v.isLt
    have hext := toNat_signExtend v
    rw [if_pos h] at hext
    rw [BitVec.toNat_neg, hext]
    omega
  have hmap : (charInt (chr '-') :: putNumber .start 10 (by decide) (-v.signExtend 64)).map
      (BitVec.setWidth 8) = chr '-' :: numeral 10 (by decide) (2 ^ 32 - v.toNat) := by
    rw [List.map_cons, putNumber_start, hnum]
    rfl
  refine ⟨fun fuel hf => ?_, ?_, ?_⟩
  · obtain ⟨n, rfl⟩ := Nat.exists_eq_add_of_le' hf
    refine vprintfmt_single (k := .signed) (a := []) rfl ?_
    have hget : getint 0 [.int v] = some (v.signExtend 64, []) := rfl
    rw [convert, show Escape.start.lflag = 0 from rfl, hget, Option.bind_eq_bind, Option.bind_some]
    dsimp only
    rw [slt_signExtend, if_pos h]
  · rw [← List.length_map (BitVec.setWidth 8), hmap, List.length_cons]
    refine Nat.succ_le_succ (length_numeral (k := 9) ?_)
    calc 2 ^ 32 - v.toNat ≤ 2 ^ 31 := by omega
      _ < 10 ^ (9 + 1) := by decide
  · rw [hmap, base, show (10 : Word) = BitVec.ofNat 32 10 from rfl, strtol_neg_numeral (by decide)]
    have : -BitVec.ofNat 32 (2 ^ 32 - v.toNat) = v := by
      have := v.isLt
      apply BitVec.eq_of_toNat_eq
      rw [BitVec.toNat_neg, BitVec.toNat_ofNat]
      omega
    rw [this]

theorem text_nonneg {v : Word} (h : v.slt 0 = false) :
    Text d v (putNumber .start 10 (by decide) (v.setWidth 64)) := by
  refine text_unsigned (k := .signed) (by decide) (by decide) rfl rfl fun print => ?_
  have hext : v.signExtend 64 = v.setWidth 64 := by
    apply BitVec.eq_of_toNat_eq
    rw [toNat_signExtend, h, if_neg Bool.false_ne_true, BitVec.toNat_setWidth_of_le (by decide)]
  have hget : getint 0 [.int v] = some (v.setWidth 64, []) := hext ▸ rfl
  rw [convert, show Escape.start.lflag = 0 from rfl, hget, Option.bind_eq_bind, Option.bind_some,
    ← hext]
  dsimp only
  rw [slt_signExtend, h, if_neg Bool.false_ne_true]

theorem exists_text (f : Radix) (v : Word) : ∃ out, f.Text v out := by
  cases f with
  | d =>
    cases h : v.slt 0 with
    | true => exact ⟨_, text_neg h⟩
    | false => exact ⟨_, text_nonneg h⟩
  | u => exact ⟨_, text_unsigned (k := .unsigned) (by decide) (by decide) rfl rfl fun _ => rfl⟩
  | x => exact ⟨_, text_unsigned (k := .hex) (by decide) (by decide) rfl rfl fun _ => rfl⟩
  | o => exact ⟨_, text_unsigned (k := .octal) (by decide) (by decide) rfl rfl fun _ => rfl⟩

/-- `strtol` reads back what `snprintf` prints.  A buffer of 12 bytes is large enough. -/
theorem snprintf_strtol (f : Radix) (v : Word) : ∃ text : List Byte, text.length ≤ 11 ∧
    (∀ fuel n, 3 ≤ fuel → (text.length : Int) < n.toInt →
      vsnprintf fuel n [chr '%', f.char] [.int v] =
        some (BitVec.ofNat 32 text.length, text ++ [0])) ∧
    strtol (text ++ [0]) f.base = some (v, [0]) := by
  obtain ⟨out, hout⟩ := f.exists_text v
  refine ⟨out.map (BitVec.setWidth 8), ?_, fun fuel n hf hn => ?_, hout.read⟩
  · rw [List.length_map]
    exact hout.length
  · rw [List.length_map] at hn ⊢
    exact vsnprintf_fits (hout.printed fuel hf) hn

end Radix

end Jos.User
