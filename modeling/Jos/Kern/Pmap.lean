import Jos.Kern.Mmu
import Mathlib.Logic.Function.Basic

/-! `kern/pmap.c`: physical pages, the free list and two-level page tables.  Page tables
live in the physical memory they describe.  `none` is a kernel panic. -/

namespace Jos.Kern

def eBadEnv : Word := 2
def eInval : Word := 3
def eNoMem : Word := 4
def eNoFreeEnv : Word := 5
def eFault : Word := 6
def eIpcNotRecv : Word := 7

/-- Physical memory, by page and word, and the `pages` array. -/
structure Phys where
  npages : Nat
  mem : Nat → Nat → Word
  ppRef : Nat → BitVec 16
  ppLink : Nat → Option Nat
  pageFreeList : Option Nat

namespace Phys

def setPage (m : Phys) (p : Nat) (f : Nat → Word) : Phys :=
  { m with mem := Function.update m.mem p f }

def store (m : Phys) (p i : Nat) (w : Word) : Phys :=
  m.setPage p (Function.update (m.mem p) i w)

def clear (m : Phys) (p : Nat) : Phys := m.setPage p fun _ => 0

def setRef (m : Phys) (p : Nat) (r : BitVec 16) : Phys :=
  { m with ppRef := Function.update m.ppRef p r }

/-- `KADDR(pa)`: the kernel reaches physical memory by page; panics past the end of it. -/
def kaddr (m : Phys) (pa : Word) : Option Nat :=
  if m.npages ≤ pgnum pa then none else some (pgnum pa)

def pa2page (m : Phys) (pa : Word) : Option Nat :=
  if m.npages ≤ pgnum pa then none else some (pgnum pa)

def page2kva (m : Phys) (pp : Nat) : Option Nat := m.kaddr (page2pa pp)

def unlink (m : Phys) (pp : Nat) : Phys :=
  { m with pageFreeList := m.ppLink pp, ppLink := Function.update m.ppLink pp none }

def link (m : Phys) (pp : Nat) : Phys :=
  { m with ppLink := Function.update m.ppLink pp m.pageFreeList, pageFreeList := some pp }

end Phys

open Phys

def pageAlloc (m : Phys) (zero : Bool) : Option (Phys × Option Nat) :=
  match m.pageFreeList with
  | none => some (m, none)
  | some pp =>
    let m := m.unlink pp
    if zero then do
      let p ← m.page2kva pp
      return (m.clear p, some pp)
    else some (m, some pp)

def pageFree (m : Phys) (pp : Nat) : Option Phys :=
  if m.ppRef pp = 0 ∧ m.ppLink pp = none then
    some (m.link pp)
  else none

def pageDecref (m : Phys) (pp : Nat) : Option Phys :=
  let m := m.setRef pp (m.ppRef pp - 1)
  if m.ppRef pp = 0 then pageFree m pp else some m

/-- The page and index of the table entry for `va`.  A null `pgdir` fails an assertion. -/
def pgdirWalk (m : Phys) (pgdir : Option Nat) (va : Word) (create : Bool) :
    Option (Phys × Option (Nat × Nat)) := do
  let d ← pgdir
  if m.mem d (pdx va) &&& pteP = 0 then
    if !create then return (m, none)
    else
      match ← pageAlloc m true with
      | (m, none) => return (m, none)
      | (m, some pp) =>
        let m := m.setRef pp (m.ppRef pp + 1)
        let m := m.store d (pdx va) (page2pa pp ||| pteP ||| pteW ||| pteU)
        let t ← m.kaddr (pteAddr (m.mem d (pdx va)))
        return (m, some (t, ptx va))
  else
    let t ← m.kaddr (pteAddr (m.mem d (pdx va)))
    return (m, some (t, ptx va))

def pageLookup (m : Phys) (pgdir : Option Nat) (va : Word) : Option (Option (Nat × Nat × Nat)) := do
  match ← pgdirWalk m pgdir va false with
  | (_, none) => return none
  | (_, some (t, j)) =>
    if m.mem t j &&& pteP = 0 then return none
    else
      let pp ← m.pa2page (pteAddr (m.mem t j))
      return some (pp, t, j)

def pageRemove (m : Phys) (pgdir : Option Nat) (va : Word) : Option Phys := do
  match ← pageLookup m pgdir va with
  | none => return m
  | some (pp, t, j) =>
    let m ← pageDecref m pp
    return m.store t j 0

def pageInsert (m : Phys) (pgdir : Option Nat) (pp : Nat) (va perm : Word) :
    Option (Phys × Word) := do
  match ← pgdirWalk m pgdir va true with
  | (m, none) => return (m, -eNoMem)
  | (m, some (t, j)) =>
    let m := m.setRef pp (m.ppRef pp + 1)
    -- counted before the old mapping goes, so that mapping a page over itself keeps it
    let m ← if m.mem t j &&& pteP ≠ 0 then pageRemove m pgdir va else some m
    return (m.store t j (page2pa pp ||| perm ||| pteP), 0)

end Jos.Kern
