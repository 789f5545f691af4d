import Jos.Kern.State
import Mathlib.Logic.Function.Basic

/-! The paging calls as a program sees them: address spaces that map page numbers to
physical pages, and the pages' bytes. -/

namespace Jos.User

open Kern

def utemp : Word := ptsize

def pteShare : Word := 0x400
def pteCow : Word := 0x800

inductive Life
  | free
  | embryo (parent : EnvIx)
  | live
  deriving DecidableEq

/-- `pte e pn` is the page mapped at page number `pn` of environment `e`, with the flags of
its entry. -/
structure Vm where
  life : EnvIx → Life
  pte : EnvIx → Nat → Option (Nat × Word)
  mem : Nat → Nat → Byte

namespace Vm

variable (s : Vm)

def mapAt (e : EnvIx) (pn : Nat) (x : Option (Nat × Word)) : Vm :=
  { s with pte := Function.update s.pte e (Function.update (s.pte e) pn x) }

def fill (p : Nat) (d : Nat → Byte) : Vm := { s with mem := Function.update s.mem p d }

def store (p off : Nat) (b : Byte) : Vm := s.fill p (Function.update (s.mem p) off b)

def read (e : EnvIx) (va : Word) : Option Byte :=
  (s.pte e (pgnum va)).map fun x => s.mem x.1 (pgoff va)

def Maps (e : EnvIx) (pn p : Nat) : Prop := ∃ f, s.pte e pn = some (p, f)

def Unmapped (p : Nat) : Prop := ∀ e pn, ¬ s.Maps e pn p

end Vm

/-- What `uvpt` shows of an entry; its address bits are never looked at. -/
def flags : Option (Nat × Word) → Word
  | none => 0
  | some (_, f) => f

inductive Cmd
  | pageAlloc (e : EnvIx) (va perm : Word)
  | pageMap (src : EnvIx) (srcva : Word) (dst : EnvIx) (dstva perm : Word)
  | pageUnmap (e : EnvIx) (va : Word)

/-- A command, its answer and its effect.  Which page `sys_page_alloc` finds and whether memory
runs out is left open; a command that fails has done nothing. -/
inductive Exec : Cmd → Vm → Word → Vm → Prop
  | pageAlloc {e va perm s p} : va < utop → permOk perm → s.Unmapped p →
      Exec (.pageAlloc e va perm) s 0
        ((s.fill p fun _ => 0).mapAt e (pgnum va) (some (p, perm)))
  | pageMap {src srcva dst dstva perm s p f} : s.pte src (pgnum srcva) = some (p, f) →
      permOk perm → (perm &&& pteW ≠ 0 → f &&& pteW ≠ 0) →
      Exec (.pageMap src srcva dst dstva perm) s 0
        (s.mapAt dst (pgnum dstva) (some (p, perm)))
  | pageUnmap {e va s} : Exec (.pageUnmap e va) s 0 (s.mapAt e (pgnum va) none)
  | failed {c s r} : r.slt 0 = true → Exec c s r s

namespace Vm

variable {s : Vm} {e e' : EnvIx} {pn pn' p q : Nat} {x : Option (Nat × Word)} {f : Word}

@[simp] theorem mapAt_self : (s.mapAt e pn x).pte e pn = x := by simp [mapAt]

theorem pte_mapAt : (s.mapAt e pn x).pte e' pn' =
    if e' = e ∧ pn' = pn then x else s.pte e' pn' := by
  by_cases he : e' = e
  · subst he
    simp [mapAt, Function.update_apply]
  · simp [mapAt, he]

theorem mapAt_ne (h : e' ≠ e ∨ pn' ≠ pn) : (s.mapAt e pn x).pte e' pn' = s.pte e' pn' := by
  by_cases he : e' = e
  · subst he
    simp [mapAt, Function.update_of_ne (h.resolve_left (by simp))]
  · simp [mapAt, Function.update_of_ne he]

theorem mapAt_cases (h : (s.mapAt e pn x).pte e' pn' = some (p, f)) :
    (e' = e ∧ pn' = pn ∧ x = some (p, f)) ∨ s.pte e' pn' = some (p, f) := by
  by_cases he : e' = e
  · by_cases hp : pn' = pn
    · subst he hp
      rw [mapAt_self] at h
      exact .inl ⟨rfl, rfl, h⟩
    · rw [mapAt_ne (.inr hp)] at h
      exact .inr h
  · rw [mapAt_ne (.inl he)] at h
    exact .inr h

@[simp] theorem mapAt_mem : (s.mapAt e pn x).mem = s.mem := rfl

@[simp] theorem fill_pte {d : Nat → Byte} : (s.fill p d).pte = s.pte := rfl

theorem fill_of_ne {d : Nat → Byte} (h : q ≠ p) : (s.fill p d).mem q = s.mem q :=
  Function.update_of_ne h _ _

@[simp] theorem fill_self {d : Nat → Byte} : (s.fill p d).mem p = d := Function.update_self _ _ _

theorem read_of {va : Word} (h : s.pte e (pgnum va) = some (p, f)) :
    s.read e va = some (s.mem p (pgoff va)) := by
  rw [read, h, Option.map_some]

theorem Unmapped.ne (h : s.Unmapped p) (hq : s.pte e pn = some (q, f)) : q ≠ p := by
  intro hqp
  subst hqp
  exact h e pn ⟨f, hq⟩

end Vm

end Jos.User
