import Jos.User.Space

/-! `lib/malloc.c`. -/

namespace Jos.User

open Kern

def maxmalloc : Word := 1024 * 1024
def pteContinued : Word := 0x200
def mbegin : Word := 0x08000000
def mend : Word := 0x10000000

structure Heap extends Space where
  mptr : Word

/-- The loop of `isfree`; `fuel` is enough for the pages of the range. -/
def isfreeFrom (s : Space) (endVa : Word) : Nat → Word → Bool
  | 0, _ => true
  | fuel + 1, va =>
    if va < endVa then
      if mend ≤ va ∨ (s.pte (pgnum va)).isSome then false
      else isfreeFrom s endVa fuel (va + pgsize)
    else true

def isfree (s : Space) (v n : Word) : Bool := isfreeFrom s (v + n) (n.toNat / 4096 + 1) v

/-- The loop of `free` over the pages of a large block, from the page at `c` on.  The assertion
ends it before `fuel` does. -/
def freeFrom : Nat → Space → Word → Option Space
  | 0, _, _ => none
  | fuel + 1, s, c =>
    match s.pte (pgnum c) with
    | none => none
    | some f =>
      if f &&& pteContinued ≠ 0 then
        let s := s.sysPageUnmap c
        let c := c + pgsize
        if mbegin ≤ c ∧ c < mend then freeFrom fuel s c else none
      else do
        let ref := c + pgsize - 4
        let r ← s.loadWord ref
        let s ← s.storeWord ref (r - 1)
        return if r - 1 = 0 then s.sysPageUnmap c else s

/-- `none` is a failed assertion or a fault. -/
def free (s : Space) (v : Word) : Option Space :=
  if v = 0 then some s
  else if mbegin ≤ v ∧ v < mend then freeFrom 32769 s (roundDown v pgsize)
  else none

/-- The loop that looks for address space.  `some (mptr, false)`: it gave up. -/
def search (s : Space) (n : Word) : Nat → Word → Nat → Option (Word × Bool)
  | 0, _, _ => none
  | fuel + 1, mptr, nwrap =>
    if isfree s mptr (n + 4) then some (mptr, true)
    else
      let mptr := mptr + pgsize
      if mptr = mend then
        if nwrap + 1 = 2 then some (mbegin, false) else search s n fuel mbegin (nwrap + 1)
      else search s n fuel mptr nwrap

/-- The pages from `mptr + i * PGSIZE` down to `mptr` unmapped. -/
def unmapDown (mptr : Word) : Nat → Space → Space
  | 0, s => s.sysPageUnmap mptr
  | i + 1, s => unmapDown mptr i (s.sysPageUnmap (mptr + BitVec.ofNat 32 (i + 1) * pgsize))

/-- The loop that allocates, from page `i` of the block on, while `avail` pages are left in the
machine; the answer is the number of pages of the block, or `none` when they ran out. -/
def allocFrom (mptr n : Word) : Nat → Nat → Nat → Space → Space × Option Nat
  | 0, _, i, s => (s, some i)
  | fuel + 1, avail, i, s =>
    if 4096 * i < n.toNat + 4 then
      let cont := if 4096 * (i + 1) < n.toNat + 4 then pteContinued else 0
      match s.sysPageAlloc avail (mptr + BitVec.ofNat 32 i * pgsize) (pteP ||| pteU ||| pteW ||| cont) with
      | none => (unmapDown mptr i s, none)
      | some s => allocFrom mptr n fuel (avail - 1) (i + 1) s
    else (s, some i)

def mallocFresh (avail : Nat) (h : Heap) (n : Word) : Option (Word × Heap) :=
  match search h.toSpace n (2 ^ 21) h.mptr 0 with
  | none => none
  | some (mptr, false) => some (0, { h with mptr := mptr })
  | some (mptr, true) =>
    match allocFrom mptr n (n.toNat / 4096 + 2) avail 0 h.toSpace with
    | (s, none) => some (0, ⟨s, mptr⟩)
    | (s, some i) => do
      let s ← s.storeWord (mptr + BitVec.ofNat 32 i * pgsize - 4) 2
      return (mptr, ⟨s, mptr + n⟩)

/-- The address of the new block, 0 when there is none.  `none` is a fault or a failed assertion
of `free`. -/
def malloc (avail : Nat) (h : Heap) (n : Word) : Option (Word × Heap) :=
  let h := if h.mptr = 0 then { h with mptr := mbegin } else h
  let n := roundUp n 4
  if maxmalloc ≤ n then some (0, h)
  else if pgoff h.mptr ≠ 0 then
    let ref := roundUp h.mptr pgsize - 4
    if pgnum h.mptr = pgnum (h.mptr + n - 1 + 4) then do
      let r ← h.loadWord ref
      let s ← h.storeWord ref (r + 1)
      return (h.mptr, ⟨s, h.mptr + n⟩)
    else do
      let s ← free h.toSpace h.mptr
      mallocFresh avail ⟨s, roundDown (h.mptr + pgsize) pgsize⟩ n
  else mallocFresh avail h n

end Jos.User
