import Jos.Kern.Trap
import Jos.User.Vm
import Jos.Lib.Image

/-! The memory of one environment as its own code sees it: the flags of the pages it has mapped
and the bytes it reads there.  A write to a copy-on-write page goes through `pgfault`, which
leaves a page of its own with the same bytes. -/

namespace Jos.User

open Kern

/-- The flags are given by page number, the bytes by address. -/
structure Space where
  pte : Nat → Option Word
  mem : Lib.Image

namespace Space

variable (s : Space)

def setPte (pn : Nat) (x : Option Word) : Space := { s with pte := Function.update s.pte pn x }

def fillZero (pn : Nat) : Space :=
  { s with mem := fun x => if x / 4096 = pn then 0 else s.mem x }

def sysPageAlloc (avail : Nat) (va perm : Word) : Option Space :=
  if avail = 0 ∨ utop ≤ va ∨ pgoff va ≠ 0 then none
  else some ((s.fillZero (pgnum va)).setPte (pgnum va) (some perm))

/-- Nothing is done at an address `sys_page_unmap` refuses. -/
def sysPageUnmap (va : Word) : Space :=
  if utop ≤ va ∨ pgoff va ≠ 0 then s else s.setPte (pgnum va) none

def load (va : Word) : Option Byte := (s.pte (pgnum va)).map fun _ => s.mem va.toNat

def touch (va : Word) : Option Space :=
  match s.pte (pgnum va) with
  | none => none
  | some f =>
    if f &&& pteW ≠ 0 then some s
    else if f &&& pteCow ≠ 0 then some (s.setPte (pgnum va) (some (pteP ||| pteW ||| pteU)))
    else none

def store (va : Word) (b : Byte) : Option Space :=
  (s.touch va).map fun s => { s with mem := Function.update s.mem va.toNat b }

/-- Words are aligned, so each lies on one page. -/
def loadWord (va : Word) : Option Word := (s.pte (pgnum va)).map fun _ => s.mem.word va.toNat

def storeWord (va w : Word) : Option Space :=
  (s.touch va).map fun s => { s with mem := s.mem.putWord va.toNat w }

end Space

end Jos.User
