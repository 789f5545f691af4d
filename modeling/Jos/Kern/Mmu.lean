import Mathlib.Data.Nat.Bitwise
import Mathlib.Tactic.Ring

/-! `inc/mmu.h` and `inc/memlayout.h`: linear addresses, page table entries and the
layout of the virtual address space. -/

namespace Jos.Kern

abbrev Word := BitVec 32

def pgsize : Word := 4096
def nptentries : Word := 1024
def ptsize : Word := pgsize * nptentries

def pgnum (la : Word) : Nat := (la >>> 12).toNat
def pdx (la : Word) : Nat := ((la >>> 22) &&& 0x3FF).toNat
def ptx (la : Word) : Nat := ((la >>> 12) &&& 0x3FF).toNat
def pgoff (la : Word) : Nat := (la &&& 0xFFF).toNat
def pgaddr (d t o : Nat) : Word :=
  BitVec.ofNat 32 d <<< 22 ||| BitVec.ofNat 32 t <<< 12 ||| BitVec.ofNat 32 o

def pteP : Word := 0x001
def pteW : Word := 0x002
def pteU : Word := 0x004
def ptePWT : Word := 0x008
def ptePCD : Word := 0x010
def pteAvail : Word := 0xE00
def pteSyscall : Word := pteAvail ||| pteP ||| pteW ||| pteU

def pteAddr (pte : Word) : Word := pte &&& ~~~0xFFF

def kernbase : Word := 0xF0000000
def iophysmem : Word := 0x0A0000
def extphysmem : Word := 0x100000
def kstacktop : Word := kernbase
def kstksize : Word := 8 * pgsize
def kstkgap : Word := 8 * pgsize
def mmiolim : Word := kstacktop - ptsize
def mmiobase : Word := mmiolim - ptsize
def ulim : Word := mmiobase
def uvpt : Word := ulim - ptsize
def upages : Word := uvpt - ptsize
def uenvs : Word := upages - ptsize
def utop : Word := uenvs
def uxstacktop : Word := utop
def ustacktop : Word := utop - 2 * pgsize
def mpentryPaddr : Word := 0x7000

def roundDown (a n : Word) : Word := a - a % n
def roundUp (a n : Word) : Word := roundDown (a + n - 1) n

/-- Physical address of page `pp`; a `struct PageInfo *` is the index of its page. -/
def page2pa (pp : Nat) : Word := BitVec.ofNat 32 pp <<< 12

def present (e : Word) : Option Nat :=
  if e &&& pteP = 0 then none else some (pgnum e)

theorem utop_eq : utop = 0xEEC00000 := by decide

theorem toNat_utop : utop.toNat = 0xEEC00000 := by decide

theorem toNat_ulim : ulim.toNat = 0xEF800000 := by decide

theorem pgnum_eq (la : Word) : pgnum la = la.toNat / 4096 := by
  simp [pgnum, BitVec.toNat_ushiftRight, Nat.shiftRight_eq_div_pow]

theorem pdx_eq (la : Word) : pdx la = la.toNat / 4194304 := by
  have h : (0x3FF : Word).toNat = 2 ^ 10 - 1 := rfl
  rw [pdx, BitVec.toNat_and, BitVec.toNat_ushiftRight, Nat.shiftRight_eq_div_pow, h,
    Nat.and_two_pow_sub_one_eq_mod]
  have := la.isLt
  omega

theorem ptx_eq (la : Word) : ptx la = la.toNat / 4096 % 1024 := by
  have h : (0x3FF : Word).toNat = 2 ^ 10 - 1 := rfl
  rw [ptx, BitVec.toNat_and, BitVec.toNat_ushiftRight, Nat.shiftRight_eq_div_pow, h,
    Nat.and_two_pow_sub_one_eq_mod]

theorem pgoff_eq (la : Word) : pgoff la = la.toNat % 4096 := by
  have h : (0xFFF : Word).toNat = 2 ^ 12 - 1 := rfl
  rw [pgoff, BitVec.toNat_and, h, Nat.and_two_pow_sub_one_eq_mod]

theorem ptx_lt (la : Word) : ptx la < 1024 := by
  rw [ptx_eq]
  omega

theorem pdx_lt (la : Word) : pdx la < 1024 := by
  rw [pdx_eq]
  have := la.isLt
  omega

theorem pgoff_lt (la : Word) : pgoff la < 4096 := by
  rw [pgoff_eq]
  omega

theorem toNat_pgsize : pgsize.toNat = 4096 := rfl

theorem toNat_roundDown (a : Word) : (roundDown a pgsize).toNat = a.toNat / 4096 * 4096 := by
  rw [roundDown, BitVec.toNat_sub_of_le, BitVec.toNat_umod, toNat_pgsize]
  · omega
  · rw [BitVec.le_def, BitVec.toNat_umod]
    exact Nat.mod_le _ _

theorem toNat_roundUp (a : Word) :
    (roundUp a pgsize).toNat = (a.toNat + 4095) % 2 ^ 32 / 4096 * 4096 := by
  have h : a + pgsize - 1 = a + 4095 := by
    rw [BitVec.sub_eq_add_neg, BitVec.add_assoc]
    rfl
  rw [roundUp, toNat_roundDown, h, BitVec.toNat_add]
  rfl

theorem pdx_utop : pdx utop = 955 := by decide

theorem pdx_uvpt : pdx uvpt = 957 := by decide

theorem pdx_lt_iff (la : Word) : pdx la < 955 ↔ la < utop := by
  rw [pdx_eq, BitVec.lt_def, toNat_utop]
  omega

theorem toNat_pgaddr {d t : Nat} (hd : d < 1024) (ht : t < 1024) :
    (pgaddr d t 0).toNat = d * 4194304 + t * 4096 := by
  have h1 : (BitVec.ofNat 32 d <<< 22).toNat = 2 ^ 22 * d := by
    rw [BitVec.toNat_shiftLeft, BitVec.toNat_ofNat, Nat.shiftLeft_eq]
    omega
  have h2 : (BitVec.ofNat 32 t <<< 12).toNat = t * 4096 := by
    rw [BitVec.toNat_shiftLeft, BitVec.toNat_ofNat, Nat.shiftLeft_eq]
    omega
  have h3 : 2 ^ 22 * d ||| t * 4096 = 2 ^ 22 * d + t * 4096 :=
    (Nat.two_pow_add_eq_or_of_lt (i := 22) (by omega) d).symm
  rw [pgaddr, BitVec.toNat_or, BitVec.toNat_or, h1, h2, h3, BitVec.toNat_ofNat]
  simp only [Nat.zero_mod, Nat.or_zero]
  omega

theorem pdx_pgaddr {d t : Nat} (hd : d < 1024) (ht : t < 1024) : pdx (pgaddr d t 0) = d := by
  rw [pdx_eq, toNat_pgaddr hd ht]
  omega

theorem ptx_pgaddr {d t : Nat} (hd : d < 1024) (ht : t < 1024) : ptx (pgaddr d t 0) = t := by
  rw [ptx_eq, toNat_pgaddr hd ht]
  omega

theorem pgnum_pteAddr (e : Word) : pgnum (pteAddr e) = pgnum e := by
  have hm : (~~~(0xFFF : Word)) >>> 12 = 0xFFFFF := by decide
  have h20 : (0xFFFFF : Word).toNat = 2 ^ 20 - 1 := rfl
  rw [pgnum, pteAddr, BitVec.ushiftRight_and_distrib, hm, BitVec.toNat_and, h20,
    Nat.and_two_pow_sub_one_eq_mod, ← pgnum, pgnum_eq]
  have := e.isLt
  omega

theorem pgnum_page2pa {pp : Nat} (h : pp < 2 ^ 20) : pgnum (page2pa pp) = pp := by
  rw [pgnum_eq, page2pa, BitVec.toNat_shiftLeft, BitVec.toNat_ofNat, Nat.shiftLeft_eq]
  omega

theorem eq_page2pa {a : Word} (h : pgoff a = 0) : a = page2pa (pgnum a) := by
  apply BitVec.eq_of_toNat_eq
  rw [pgoff_eq] at h
  rw [page2pa, BitVec.toNat_shiftLeft, BitVec.toNat_ofNat, Nat.shiftLeft_eq, pgnum_eq]
  have := a.isLt
  omega

theorem toNat_add_page {a : Word} {i : Nat} (h : a.toNat + i * 4096 < 2 ^ 32) :
    (a + BitVec.ofNat 32 i * pgsize).toNat = a.toNat + i * 4096 := by
  rw [BitVec.toNat_add, BitVec.toNat_mul, BitVec.toNat_ofNat, toNat_pgsize]
  omega

theorem pgoff_add_page (a : Word) (i : Nat) : pgoff (a + BitVec.ofNat 32 i * pgsize) = pgoff a := by
  rw [pgoff_eq, pgoff_eq, BitVec.toNat_add, BitVec.toNat_mul, toNat_pgsize]
  omega

/-! Flags are the low 12 bits of an entry. -/

theorem getLsbD_of_flags {f : Word} (hf : f.toNat < 4096) {i : Nat} (hi : 12 ≤ i) :
    f.getLsbD i = false := by
  rw [BitVec.getLsbD, Nat.testBit_lt_two_pow]
  exact Nat.lt_of_lt_of_le hf (Nat.pow_le_pow_right (n := 2) (by decide) hi)

theorem flags_or {x y : Word} (hx : x.toNat < 4096) (hy : y.toNat < 4096) :
    (x ||| y).toNat < 4096 := by
  rw [BitVec.toNat_or]
  exact Nat.or_lt_two_pow (n := 12) hx hy

theorem flags_and {x : Word} (hx : x.toNat < 4096) : x &&& 0xFFF = x := by
  apply BitVec.eq_of_toNat_eq
  have h : (0xFFF : Word).toNat = 2 ^ 12 - 1 := rfl
  rw [BitVec.toNat_and, h, Nat.and_two_pow_sub_one_eq_mod]
  exact Nat.mod_eq_of_lt hx

theorem page2pa_or_and {f : Word} (hf : f.toNat < 4096) (pp : Nat) (x : Word) :
    (page2pa pp ||| x) &&& f = x &&& f := by
  apply BitVec.eq_of_getLsbD_eq
  intro i _
  by_cases hi : i < 12
  · simp [page2pa, hi]
  · simp [getLsbD_of_flags hf (Nat.not_lt.1 hi)]

theorem pgnum_page2pa_or {pp : Nat} {x : Word} (hp : pp < 2 ^ 20) (hx : x.toNat < 4096) :
    pgnum (page2pa pp ||| x) = pp := by
  have h0 : x >>> 12 = 0 := by
    apply BitVec.eq_of_toNat_eq
    simp [BitVec.toNat_ushiftRight, Nat.shiftRight_eq_div_pow]
    omega
  have h := pgnum_page2pa hp
  rw [pgnum] at h ⊢
  rw [BitVec.ushiftRight_or_distrib, h0]
  simpa using h

theorem present_page2pa_or {pp : Nat} {x : Word} (hp : pp < 2 ^ 20) (hx : x.toNat < 4096)
    (h : x &&& pteP ≠ 0) : present (page2pa pp ||| x) = some pp := by
  rw [present, page2pa_or_and (by decide), if_neg h, pgnum_page2pa_or hp hx]

@[simp] theorem present_zero : present 0 = none := by decide

theorem present_eq_none_iff {e : Word} : present e = none ↔ e &&& pteP = 0 := by
  rw [present]
  split <;> simp_all

theorem present_eq_some_iff {e : Word} {p : Nat} :
    present e = some p ↔ e &&& pteP ≠ 0 ∧ pgnum e = p := by
  rw [present]
  split <;> simp_all

theorem and_eq_of_and_not {x m : Word} (h : x &&& ~~~m = 0) : x &&& m = x := by
  apply BitVec.eq_of_getLsbD_eq
  intro i hi
  have := congrArg (fun y => BitVec.getLsbD y i) h
  simp only [BitVec.getLsbD_and, BitVec.getLsbD_not, hi, decide_true, Bool.true_and] at this ⊢
  cases hx : x.getLsbD i <;> simp_all

theorem toNat_le_of_and_not {x m : Word} (h : x &&& ~~~m = 0) : x.toNat ≤ m.toNat := by
  have := congrArg BitVec.toNat (and_eq_of_and_not h)
  rw [BitVec.toNat_and] at this
  rw [← this]
  exact Nat.and_le_right

theorem or_and_distrib (x y z : Word) : (x ||| y) &&& z = x &&& z ||| y &&& z := by
  apply BitVec.eq_of_getLsbD_eq
  intro i _
  simp only [BitVec.getLsbD_and, BitVec.getLsbD_or, Bool.and_or_distrib_right]

def permOk (perm : Word) : Prop :=
  perm &&& pteP ≠ 0 ∧ perm &&& pteU ≠ 0 ∧ perm &&& ~~~pteSyscall = 0

theorem permOk.accepted {perm : Word} (h : permOk perm) :
    ¬(perm &&& pteU = 0 ∨ perm &&& pteP = 0 ∨ perm &&& ~~~pteSyscall ≠ 0) := by
  rintro (h1 | h2 | h3)
  · exact h.2.1 h1
  · exact h.1 h2
  · exact h3 h.2.2

theorem user_pages {srcva va : Word} (hsrc : srcva < utop ∧ pgoff srcva = 0)
    (hdst : va < utop ∧ pgoff va = 0) :
    ¬(utop ≤ srcva ∨ pgoff srcva ≠ 0 ∨ utop ≤ va ∨ pgoff va ≠ 0) := by
  rintro (h | h | h | h)
  · exact BitVec.not_le.2 hsrc.1 h
  · exact h hsrc.2
  · exact BitVec.not_le.2 hdst.1 h
  · exact h hdst.2

theorem permOk.lt {perm : Word} (h : permOk perm) : perm.toNat < 4096 := by
  have h1 := toNat_le_of_and_not h.2.2
  have h2 : pteSyscall.toNat = 3591 := by decide
  omega

theorem present_entry {pp : Nat} {perm : Word} (hp : pp < 2 ^ 20) (hperm : perm.toNat < 4096) :
    present (page2pa pp ||| perm ||| pteP) = some pp := by
  rw [BitVec.or_assoc]
  refine present_page2pa_or hp (flags_or hperm (by decide)) ?_
  have : (perm ||| pteP) &&& pteP = pteP := by
    apply BitVec.eq_of_getLsbD_eq
    intro i _
    simp only [BitVec.getLsbD_and, BitVec.getLsbD_or]
    cases perm.getLsbD i <;> cases pteP.getLsbD i <;> rfl
  rw [this]
  decide

theorem entry_and {pp : Nat} {perm f : Word} (hf : f.toNat < 4096) :
    (page2pa pp ||| perm ||| pteP) &&& f = (perm ||| pteP) &&& f := by
  rw [BitVec.or_assoc, page2pa_or_and hf]

end Jos.Kern
