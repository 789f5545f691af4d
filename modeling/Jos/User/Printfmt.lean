import Jos.Kern.State

/-! `lib/printfmt.c`.  What is printed is the list of the arguments of `putch`. -/

namespace Jos.User

open Kern

def chr (c : Char) : Byte := BitVec.ofNat 8 c.toNat

def bytes (s : String) : List Byte := s.toList.map chr

/-- `char` as `int`; it is signed. -/
def charInt (c : Byte) : Word := c.signExtend 32

def ucharInt (c : Byte) : Word := c.setWidth 32

/-- An argument of a call with a variable number of them.  A string is given by its characters
and ends at the first NUL or behind the last one; `none` is a null pointer. -/
inductive Arg
  | int (v : Word)
  | long (v : Word)
  | longLong (v : BitVec 64)
  | ptr (v : Word)
  | str (s : Option (List Byte))

def vaInt : List Arg → Option (Word × List Arg)
  | .int v :: ap => some (v, ap)
  | _ => none

def vaPtr : List Arg → Option (Word × List Arg)
  | .ptr v :: ap => some (v, ap)
  | _ => none

def vaStr : List Arg → Option (Option (List Byte) × List Arg)
  | .str s :: ap => some (s, ap)
  | _ => none

def getuint (lflag : Nat) : List Arg → Option (BitVec 64 × List Arg)
  | .longLong v :: ap => if 2 ≤ lflag then some (v, ap) else none
  | .long v :: ap => if lflag = 1 then some (v.setWidth 64, ap) else none
  | .int v :: ap => if lflag = 0 then some (v.setWidth 64, ap) else none
  | _ => none

def getint (lflag : Nat) : List Arg → Option (BitVec 64 × List Arg)
  | .longLong v :: ap => if 2 ≤ lflag then some (v, ap) else none
  | .long v :: ap => if lflag = 1 then some (v.signExtend 64, ap) else none
  | .int v :: ap => if lflag = 0 then some (v.signExtend 64, ap) else none
  | _ => none

/-- `for (; width > 0; width--) putch(padc)` -/
def pads (padc width : Word) : List Word := List.replicate width.toInt.toNat padc

def digitChar (d : Nat) : Word := charInt ((bytes "0123456789abcdef").getD d 0)

def printnum (base : Nat) (hb : 1 < base) (num : Nat) (width padc : Word) : List Word :=
  if h : base ≤ num then
    have : num / base < num := Nat.div_lt_self (by omega) hb
    printnum base hb (num / base) (width - 1) padc ++ [digitChar (num % base)]
  else pads padc (width - 1) ++ [digitChar (num % base)]
termination_by num

def strnlen : List Byte → Nat → Nat
  | c :: s, size + 1 => if c = 0 then 0 else strnlen s size + 1
  | _, _ => 0

def putStr (altflag : Bool) : List Byte → Word → Word → List Word × Word
  | [], _, width => ([], width)
  | c :: s, precision, width =>
    if c = 0 then ([], width)
    else
      let ch := charInt c
      let out := if altflag ∧ (ch.slt (charInt (chr ' ')) ∨ (charInt (chr '~')).slt ch) then
        charInt (chr '?') else ch
      if precision.slt 0 then
        let (rest, width) := putStr altflag s precision (width - 1)
        (out :: rest, width)
      else if (precision - 1).slt 0 then ([], width)
      else
        let (rest, width) := putStr altflag s (precision - 1) (width - 1)
        (out :: rest, width)

structure Escape where
  padc : Byte
  width : Word
  precision : Word
  lflag : Nat
  altflag : Bool

def Escape.start : Escape := ⟨chr ' ', -1, -1, 0, false⟩

/-- `process_precision` -/
def Escape.number (e : Escape) (precision : Word) : Escape :=
  if e.width.slt 0 then { e with width := precision, precision := -1 }
  else { e with precision := precision }

inductive Conv
  | char
  | error
  | string
  | signed
  | unsigned
  | octal
  | pointer
  | hex
  | percent
  deriving DecidableEq

inductive FmtCase
  | minus
  | zero
  | digit
  | star
  | dot
  | hash
  | long
  | conv (c : Conv)
  | other
  deriving DecidableEq

def caseOf (ch : Byte) : FmtCase :=
  if ch = chr '-' then .minus
  else if ch = chr '0' then .zero
  else if chr '1' ≤ ch ∧ ch ≤ chr '9' then .digit
  else if ch = chr '*' then .star
  else if ch = chr '.' then .dot
  else if ch = chr '#' then .hash
  else if ch = chr 'l' then .long
  else if ch = chr 'c' then .conv .char
  else if ch = chr 'e' then .conv .error
  else if ch = chr 's' then .conv .string
  else if ch = chr 'd' then .conv .signed
  else if ch = chr 'u' then .conv .unsigned
  else if ch = chr 'o' then .conv .octal
  else if ch = chr 'p' then .conv .pointer
  else if ch = chr 'x' then .conv .hex
  else if ch = chr '%' then .conv .percent
  else .other

/-- The format ends with a NUL, and there is nothing to read behind it. -/
def fmtAt (fmt : List Byte) (p : Nat) : Option Byte := (fmt ++ [0])[p]?

def putText (fmt : List Byte) : Nat → Nat → Option (List Word × Option Nat)
  | 0, _ => none
  | fuel + 1, p => do
    let ch ← fmtAt fmt p
    if ch = chr '%' then some ([], some (p + 1))
    else if ch = 0 then some ([], none)
    else
      let (out, q) ← putText fmt fuel (p + 1)
      some (ucharInt ch :: out, q)

def widthField (fmt : List Byte) : Nat → Word → Word → Nat → Option (Word × Nat)
  | 0, _, _, _ => none
  | fuel + 1, ch, precision, p => do
    let precision := precision * 10 + ch - ucharInt (chr '0')
    let ch := charInt (← fmtAt fmt p)
    if ch.slt (charInt (chr '0')) ∨ (charInt (chr '9')).slt ch then some (precision, p)
    else widthField fmt fuel ch precision (p + 1)

def reswitch (fmt : List Byte) : Nat → Escape → List Arg → Nat →
    Option (Byte × Escape × List Arg × Nat)
  | 0, _, _, _ => none
  | fuel + 1, e, ap, p => do
    let ch ← fmtAt fmt p
    match caseOf ch with
    | .minus => reswitch fmt fuel { e with padc := chr '-' } ap (p + 1)
    | .zero => reswitch fmt fuel { e with padc := chr '0' } ap (p + 1)
    | .digit =>
      let (precision, p) ← widthField fmt fuel (ucharInt ch) 0 (p + 1)
      reswitch fmt fuel (e.number precision) ap p
    | .star =>
      let (precision, ap) ← vaInt ap
      reswitch fmt fuel (e.number precision) ap (p + 1)
    | .dot => reswitch fmt fuel { e with width := if e.width.slt 0 then 0 else e.width } ap (p + 1)
    | .hash => reswitch fmt fuel { e with altflag := true } ap (p + 1)
    | .long => reswitch fmt fuel { e with lflag := e.lflag + 1 } ap (p + 1)
    | .conv _ | .other => some (ch, e, ap, p + 1)

/-- `for (fmt--; fmt[-1] != '%'; fmt--)`, from the decremented pointer on. -/
def backUp (fmt : List Byte) : Nat → Option Nat
  | 0 => none
  | p + 1 => do if (← fmtAt fmt p) = chr '%' then some (p + 1) else backUp fmt p

def maxerror : Word := 16

def errorStrings : List (Option String) :=
  [none, some "unspecified error", some "bad environment", some "invalid parameter",
    some "out of memory", some "out of environments", some "segmentation fault",
    some "env is not recving", some "unexpected end of file", some "no free space on disk",
    some "too many files are open", some "file or block not found", some "invalid path",
    some "file already exists", some "file is not a valid executable",
    some "operation not supported"]

def putNumber (e : Escape) (base : Nat) (hb : 1 < base) (num : BitVec 64) : List Word :=
  printnum base hb num.toNat e.width (charInt e.padc)

/-- `%e`; `print` is `printfmt`.  There is no entry of `error_string` before the first. -/
def putError (print : List Byte → List Arg → Option (List Word)) (err : Word) :
    Option (List Word) := do
  let err := if err.slt 0 then -err else err
  if maxerror.sle err then print (bytes "error %d") [.int err]
  else
    match ← errorStrings[err.toNat]? with
    | none => print (bytes "error %d") [.int err]
    | some s => print (bytes "%s") [.str (some (bytes s))]

/-- `%s` -/
def putString (e : Escape) (s : Option (List Byte)) : List Word :=
  let s := s.getD (bytes "(null)")
  let lead := (0 : Word).slt e.width ∧ e.padc ≠ chr '-'
  let width := e.width - BitVec.ofNat 32 (strnlen s e.precision.toNat)
  let front := if lead then pads (charInt e.padc) width else []
  let width := if lead then (if (0 : Word).slt width then 0 else width) else e.width
  let (out, width) := putStr e.altflag s e.precision width
  front ++ out ++ pads (charInt (chr ' ')) width

def convert (print : List Byte → List Arg → Option (List Word)) (e : Escape) (ap : List Arg) :
    Conv → Option (List Word × List Arg)
  | .char => do
    let (v, ap) ← vaInt ap
    some ([v], ap)
  | .error => do
    let (err, ap) ← vaInt ap
    some (← putError print err, ap)
  | .string => do
    let (s, ap) ← vaStr ap
    some (putString e s, ap)
  | .signed => do
    let (num, ap) ← getint e.lflag ap
    if num.slt 0 then some (charInt (chr '-') :: putNumber e 10 (by decide) (-num), ap)
    else some (putNumber e 10 (by decide) num, ap)
  | .unsigned => do
    let (num, ap) ← getuint e.lflag ap
    some (putNumber e 10 (by decide) num, ap)
  | .octal => do
    let (num, ap) ← getuint e.lflag ap
    some (putNumber e 8 (by decide) num, ap)
  | .pointer => do
    let (v, ap) ← vaPtr ap
    some (charInt (chr '0') :: charInt (chr 'x') :: putNumber e 16 (by decide) (v.setWidth 64), ap)
  | .hex => do
    let (num, ap) ← getuint e.lflag ap
    some (putNumber e 16 (by decide) num, ap)
  | .percent => some ([ucharInt (chr '%')], ap)

/-- From the place `p` of the format on.  `none`: a read outside of the format, an argument that
is not there or of another type, or not enough fuel. -/
def vprintfmt : Nat → List Byte → List Arg → Nat → Option (List Word)
  | 0, _, _, _ => none
  | fuel + 1, fmt, ap, p => do
    let (out, q) ← putText fmt fuel p
    match q with
    | none => some out
    | some p => do
      let (ch, e, ap, p) ← reswitch fmt fuel .start ap p
      match caseOf ch with
      | .conv c => do
        let (new, ap) ← convert (fun fmt ap => vprintfmt fuel fmt ap 0) e ap c
        let rest ← vprintfmt fuel fmt ap p
        some (out ++ new ++ rest)
      | _ => do
        let p ← backUp fmt (p - 1)
        let rest ← vprintfmt fuel fmt ap p
        some (out ++ [charInt (chr '%')] ++ rest)

def printfmt (fuel : Nat) (fmt : List Byte) (ap : List Arg) : Option (List Word) :=
  vprintfmt fuel fmt ap 0

structure Sprintbuf where
  buf : List Byte
  room : Nat
  cnt : Word

def sprintputch (b : Sprintbuf) (ch : Word) : Sprintbuf :=
  if 0 < b.room then ⟨b.buf ++ [ch.setWidth 8], b.room - 1, b.cnt + 1⟩
  else { b with cnt := b.cnt + 1 }

def vsnprintf (fuel : Nat) (n : Word) (fmt : List Byte) (ap : List Arg) :
    Option (Word × List Byte) :=
  if n.slt 1 then some (-eInval, [])
  else do
    let out ← vprintfmt fuel fmt ap 0
    let b := out.foldl sprintputch ⟨[], (n - 1).toNat, 0⟩
    some (b.cnt, b.buf ++ [0])

section

variable {fuel p q q' : Nat} {fmt : List Byte} {ap ap' a : List Arg} {out new rest : List Word}
  {ch : Byte} {e : Escape} {k : Conv}

theorem vprintfmt_end (htext : putText fmt fuel p = some (out, none)) :
    vprintfmt (fuel + 1) fmt ap p = some out := by
  rw [vprintfmt, htext]
  rfl

theorem vprintfmt_conv (htext : putText fmt fuel p = some (out, some q))
    (hsw : reswitch fmt fuel .start ap q = some (ch, e, ap', q')) (hc : caseOf ch = .conv k)
    (hconv : convert (fun fmt ap => vprintfmt fuel fmt ap 0) e ap' k = some (new, a))
    (hrest : vprintfmt fuel fmt a q' = some rest) :
    vprintfmt (fuel + 1) fmt ap p = some (out ++ new ++ rest) := by
  rw [vprintfmt, htext]
  simp only [Option.bind_eq_bind, Option.bind_some, hsw, hc, hconv, hrest]

theorem vprintfmt_other (htext : putText fmt fuel p = some (out, some q))
    (hsw : reswitch fmt fuel .start ap q = some (ch, e, ap', q' + 1)) (hc : caseOf ch = .other)
    (hback : backUp fmt q' = some q) (hrest : vprintfmt fuel fmt ap' q = some rest) :
    vprintfmt (fuel + 1) fmt ap p = some (out ++ [charInt (chr '%')] ++ rest) := by
  rw [vprintfmt, htext]
  simp only [Option.bind_eq_bind, Option.bind_some, hsw, hc, Nat.add_sub_cancel, hback, hrest]

theorem foldl_sprintputch (out : List Word) (b : Sprintbuf) :
    out.foldl sprintputch b = ⟨b.buf ++ (out.take b.room).map (BitVec.setWidth 8),
      b.room - out.length, b.cnt + BitVec.ofNat 32 out.length⟩ := by
  induction out generalizing b with
  | nil => simp
  | cons ch out ih =>
    have hcnt : b.cnt + 1 + BitVec.ofNat 32 out.length = b.cnt + BitVec.ofNat 32 (out.length + 1) := by
      rw [Nat.add_comm, BitVec.ofNat_add, BitVec.add_assoc]
      rfl
    rw [List.foldl_cons, ih, sprintputch, List.length_cons, ← hcnt]
    by_cases hroom : 0 < b.room
    · obtain ⟨k, hk⟩ := Nat.exists_eq_succ_of_ne_zero (Nat.ne_of_gt hroom)
      rw [if_pos hroom, hk, List.take_succ_cons, List.map_cons]
      simp
    · have hk : b.room = 0 := Nat.eq_zero_of_not_pos hroom
      rw [if_neg hroom, hk, List.take_zero, List.take_zero, Nat.zero_sub, Nat.zero_sub]

theorem vsnprintf_eq {n : Word} (h : vprintfmt fuel fmt ap 0 = some out) (hn : 1 ≤ n.toInt) :
    vsnprintf fuel n fmt ap = some (BitVec.ofNat 32 out.length,
      (out.take (n.toNat - 1)).map (BitVec.setWidth 8) ++ [0]) := by
  have h1 : n.slt 1 = false := by
    rw [BitVec.slt_eq_decide, decide_eq_false_iff_not, show (1 : Word).toInt = 1 from rfl]
    omega
  have hroom : (n - 1).toNat = n.toNat - 1 := by
    have := BitVec.toInt_eq_toNat_cond n
    have := n.isLt
    rw [BitVec.toNat_sub, show (1 : Word).toNat = 1 from rfl]
    omega
  rw [vsnprintf, h1, if_neg Bool.false_ne_true, h, Option.bind_eq_bind, Option.bind_some,
    foldl_sprintputch, hroom]
  dsimp only
  rw [show (0 : Word) + BitVec.ofNat 32 out.length = _ from BitVec.zero_add _, List.nil_append]

end

end Jos.User
