import Jos.Kern.Env

/-! Accesses to user memory: `user_mem_check` and `user_mem_assert` of `kern/pmap.c`, and
the memory management unit, through which the kernel and user code then read and write. -/

namespace Jos.Kern

open Kernel

/-- The loop of `user_mem_check` from page `start` on.  `some a` is `-E_FAULT` with `a` in
`user_mem_check_addr`; the fuel is the number of pages of the address space. -/
def userMemCheckLoop (m : Phys) (pgdir : Option Nat) (va stop perm : Word) :
    Nat → Word → Option (Option Word)
  | 0, _ => some none
  | n + 1, start =>
    if start < stop then do
      let bad := some (if start = roundDown va pgsize then va else start)
      match ← pgdirWalk m pgdir start false with
      | (_, none) => return bad
      | (_, some (t, j)) =>
        if ulim < start ∨ m.mem t j &&& perm ≠ perm then return bad
        else userMemCheckLoop m pgdir va stop perm n (start + pgsize)
    else some none

def userMemCheck (m : Phys) (pgdir : Option Nat) (va len perm : Word) : Option (Option Word) :=
  userMemCheckLoop m pgdir va (roundUp (va + len) pgsize) perm 1048576 (roundDown va pgsize)

/-- Returns whether the CPU has gone on to something else. -/
def userMemAssert (k : Kernel) (c : Cpu) (e : EnvIx) (va len perm : Word) :
    Option (Kernel × Bool) := do
  match ← userMemCheck k.toPhys (k.envs e).envPgdir va len (perm ||| pteU) with
  | none => return (k, false)
  | some _ => envDestroy k c e

def mmuWalk (m : Phys) (cr3 : Nat) (va : Word) : Option (Word × Word) :=
  let pde := m.mem cr3 (pdx va)
  if pde &&& pteP = 0 then none
  else
    let pte := m.mem (pgnum pde) (ptx va)
    if pte &&& pteP = 0 then none else some (pde, pte)

/-- The page at `va` if both entries grant `flags`: nothing for a read by the kernel,
`PTE_W` for a write by it (`CR0_WP` is on), and `PTE_U` besides for user code. -/
def translate (m : Phys) (cr3 : Nat) (va flags : Word) : Option Nat :=
  match mmuWalk m cr3 va with
  | none => none
  | some (pde, pte) =>
    if pde &&& flags = flags ∧ pte &&& flags = flags then some (pgnum pte) else none

namespace Phys

def loadByte (m : Phys) (p off : Nat) : Byte :=
  (m.mem p (off / 4) >>> (8 * (off % 4))).setWidth 8

def storeByte (m : Phys) (p off : Nat) (b : Byte) : Phys :=
  let s := 8 * (off % 4)
  m.store p (off / 4) ((m.mem p (off / 4) &&& ~~~((0xFF : Word) <<< s)) ||| b.setWidth 32 <<< s)

end Phys

def mmuLoad (m : Phys) (cr3 : Nat) (va flags : Word) : Option Byte :=
  (translate m cr3 va flags).map fun p => m.loadByte p (pgoff va)

/-- A write to an address without memory behind it is lost. -/
def mmuStore (m : Phys) (cr3 : Nat) (va flags : Word) (b : Byte) : Option Phys :=
  (translate m cr3 va flags).map fun p =>
    if p < m.npages then m.storeByte p (pgoff va) b else m

/-- The first `n` bytes from `va` on, up to the first one that faults, and whether one did. -/
def copyIn (m : Phys) (cr3 : Nat) : Nat → Word → List Byte × Bool
  | 0, _ => ([], false)
  | n + 1, va =>
    match mmuLoad m cr3 va 0 with
    | none => ([], true)
    | some b => (b :: (copyIn m cr3 n (va + 1)).1, (copyIn m cr3 n (va + 1)).2)

/-- Writes `bs` from `va` on, up to the first byte that faults, and tells whether one did. -/
def copyOut (cr3 : Nat) : Phys → List Byte → Word → Phys × Bool
  | m, [], _ => (m, false)
  | m, b :: bs, va =>
    match mmuStore m cr3 va pteW b with
    | none => (m, true)
    | some m => copyOut cr3 m bs (va + 1)

def wordOfBytes (bs : List Byte) (i : Nat) : Word :=
  (bs.getD (4 * i) 0).setWidth 32 ||| (bs.getD (4 * i + 1) 0).setWidth 32 <<< 8 |||
    (bs.getD (4 * i + 2) 0).setWidth 32 <<< 16 ||| (bs.getD (4 * i + 3) 0).setWidth 32 <<< 24

def bytesOfWord (w : Word) : List Byte :=
  [w.setWidth 8, (w >>> 8).setWidth 8, (w >>> 16).setWidth 8, (w >>> 24).setWidth 8]

theorem word_of_bytes (w : Word) :
    (w.setWidth 8).setWidth 32 ||| ((w >>> 8).setWidth 8).setWidth 32 <<< 8 |||
      ((w >>> 16).setWidth 8).setWidth 32 <<< 16 ||| ((w >>> 24).setWidth 8).setWidth 32 <<< 24 = w := by
  apply BitVec.eq_of_getLsbD_eq
  intro j hj
  simp only [BitVec.getLsbD_or, BitVec.getLsbD_shiftLeft, BitVec.getLsbD_setWidth,
    BitVec.getLsbD_ushiftRight]
  by_cases h8 : j < 8
  · simp [h8, hj, show j < 16 by omega, show j < 24 by omega]
  · by_cases h16 : j < 16
    · simp [h8, h16, hj, show j < 24 by omega, show j - 8 < 8 by omega, show 8 + (j - 8) = j by omega]
      omega
    · by_cases h24 : j < 24
      · simp [h8, h16, h24, hj, show ¬j - 8 < 8 by omega, show j - 16 < 8 by omega,
          show 16 + (j - 16) = j by omega]
        omega
      · simp [h8, h16, h24, hj, show ¬j - 8 < 8 by omega, show ¬j - 16 < 8 by omega,
          show j - 24 < 8 by omega, show 24 + (j - 24) = j by omega]
        omega

/-- `cprintf("%.*s", len, s)`: the loop of `vprintfmt`, which looks at a character before
it looks at the precision.  `some true` is a fault, `none` a string that never ends. -/
def cputsLoop (m : Phys) (cr3 : Nat) : Nat → Word → Word → Option Bool
  | 0, _, _ => none
  | n + 1, p, precision =>
    match mmuLoad m cr3 p 0 with
    | none => some true
    | some ch =>
      if ch = 0 then some false
      else if precision.slt 0 then cputsLoop m cr3 n (p + 1) precision
      else if (precision - 1).slt 0 then some false
      else cputsLoop m cr3 n (p + 1) (precision - 1)

end Jos.Kern
