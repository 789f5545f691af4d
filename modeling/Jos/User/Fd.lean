import Jos.Kern.Trap
import Jos.User.Vm
import Mathlib.Data.Finset.Prod
import Mathlib.Data.Fintype.Basic

/-! `lib/fd.c`, the descriptors: where the page of a descriptor and the page of its data are. -/

namespace Jos.User

open Kern

def maxfd : Word := 32
def fdtable : Word := 0xD0000000
def filedata : Word := fdtable + maxfd * pgsize

def index2fd (i : Word) : Word := fdtable + i * pgsize
def index2data (i : Word) : Word := filedata + i * pgsize
def fd2num (fd : Word) : Word := (fd - fdtable) / pgsize
def fd2data (fd : Word) : Word := index2data (fd2num fd)

def pipePerm : Word := pteP ||| pteW ||| pteU ||| pteShare

def fdPn (i : Nat) : Nat := 0xD0000 + i
def dataPn (i : Nat) : Nat := 0xD0020 + i

section places

variable {n : Word}

theorem toNat_index2fd (hn : n.toNat < 32) : (index2fd n).toNat = 0xD0000000 + n.toNat * 4096 := by
  have h : (n * pgsize).toNat = n.toNat * 4096 := by
    rw [BitVec.toNat_mul, toNat_pgsize]
    omega
  rw [index2fd, BitVec.toNat_add, h]
  change (0xD0000000 + _) % _ = _
  omega

theorem toNat_index2data (hn : n.toNat < 32) :
    (index2data n).toNat = 0xD0020000 + n.toNat * 4096 := by
  have h : (n * pgsize).toNat = n.toNat * 4096 := by
    rw [BitVec.toNat_mul, toNat_pgsize]
    omega
  rw [index2data, BitVec.toNat_add, h]
  change (0xD0020000 + _) % _ = _
  omega

theorem fd2num_index2fd (hn : n.toNat < 32) : fd2num (index2fd n) = n := by
  apply BitVec.eq_of_toNat_eq
  have h : (index2fd n - fdtable).toNat = n.toNat * 4096 := by
    rw [index2fd, BitVec.add_comm, BitVec.add_sub_cancel, BitVec.toNat_mul, toNat_pgsize]
    omega
  rw [fd2num, BitVec.toNat_udiv, h, toNat_pgsize]
  omega

theorem pgnum_index2fd (hn : n.toNat < 32) : pgnum (index2fd n) = fdPn n.toNat := by
  rw [pgnum_eq, toNat_index2fd hn, fdPn]
  omega

theorem pgnum_fd2data (hn : n.toNat < 32) : pgnum (fd2data (index2fd n)) = dataPn n.toNat := by
  rw [fd2data, fd2num_index2fd hn, pgnum_eq, toNat_index2data hn, dataPn]
  omega

theorem fdPn_inj {i j : Nat} (h : fdPn i = fdPn j) : i = j := Nat.add_left_cancel h

theorem dataPn_inj {i j : Nat} (h : dataPn i = dataPn j) : i = j := Nat.add_left_cancel h

theorem fdPn_ne_dataPn {i j : Nat} (hi : i < 32) : fdPn i ≠ dataPn j := by
  rw [fdPn, dataPn]
  omega

theorem index2fd_valid (hn : n.toNat < 32) : index2fd n < utop ∧ pgoff (index2fd n) = 0 := by
  constructor
  · rw [BitVec.lt_def, toNat_index2fd hn, Kern.toNat_utop]
    omega
  · rw [pgoff_eq, toNat_index2fd hn]
    omega

theorem fd2data_valid (hn : n.toNat < 32) :
    fd2data (index2fd n) < utop ∧ pgoff (fd2data (index2fd n)) = 0 := by
  rw [fd2data, fd2num_index2fd hn]
  constructor
  · rw [BitVec.lt_def, toNat_index2data hn, Kern.toNat_utop]
    omega
  · rw [pgoff_eq, toNat_index2data hn]
    omega

end places

end Jos.User
