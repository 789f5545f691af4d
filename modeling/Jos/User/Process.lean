import Jos.Lib.Wp
import Jos.User.Fd

/-! The library's calls as one environment makes them, one after the other.  What the kernel
and the servers will answer is part of the state the calls work on. -/

namespace Jos.User

open Kern Lib

/-- `supply` has one entry for each call to come that needs memory: the page it gets, or
`none` when memory has run out.  `replies` are the answers of the servers. -/
structure Machine where
  vm : Vm
  supply : List (Option Nat)
  replies : List Word

/-- Computations of one environment; a panic or a fault ends them for good. -/
abbrev Act := StateT Machine Option

namespace Act

def update (f : Vm → Vm) : Act PUnit := modify fun x => { x with vm := f x.vm }

def draw : Act (Option Nat) := do
  let x ← get
  set { x with supply := x.supply.tail }
  return x.supply.head?.join

def sysPageAlloc (dst : EnvIx) (va perm : Word) : Act Word :=
  if utop ≤ va then return -eInval
  else if perm &&& pteU = 0 ∨ perm &&& pteP = 0 then return -eBadEnv
  else if perm &&& ~~~pteSyscall ≠ 0 then return -eNoMem
  else do
    match ← draw with
    | none => return -eNoMem
    | some p =>
      update fun s => (s.fill p fun _ => 0).mapAt dst (pgnum va) (some (p, perm))
      return 0

def sysPageMap (src : EnvIx) (srcva : Word) (dst : EnvIx) (dstva perm : Word) : Act Word :=
  if utop ≤ srcva ∨ pgoff srcva ≠ 0 ∨ utop ≤ dstva ∨ pgoff dstva ≠ 0 then return -eInval
  else if perm &&& pteU = 0 ∨ perm &&& pteP = 0 ∨ perm &&& ~~~pteSyscall ≠ 0 then return -eInval
  else do
    match (← get).vm.pte src (pgnum srcva) with
    | none => return -eInval
    | some (p, f) =>
      if perm &&& pteW ≠ 0 ∧ f &&& pteW = 0 then return -eInval
      else
        match ← draw with
        | none => return -eNoMem
        | some _ =>
          update fun s => s.mapAt dst (pgnum dstva) (some (p, perm))
          return 0

def sysPageUnmap (dst : EnvIx) (va : Word) : Act Word :=
  if utop ≤ va ∨ pgoff va ≠ 0 then return -eInval
  else do
    update fun s => s.mapAt dst (pgnum va) none
    return 0

variable (e : EnvIx)

def uvpt (va : Word) : Act Word := do return flags ((← get).vm.pte e (pgnum va))

/-- `(uvpd[PDX(va)] & PTE_P) && (uvpt[PGNUM(va)] & PTE_P)`: a table that is not there has no
entries. -/
def present (va : Word) : Act Bool := do return decide ((← uvpt e va) &&& pteP ≠ 0)

def loadByte (va : Word) : Act Byte := do
  match (← get).vm.read e va with
  | some b => return b
  | none => failure

def storeByte (va : Word) (b : Byte) : Act PUnit := do
  match (← get).vm.pte e (pgnum va) with
  | some (p, f) =>
    if f &&& pteW = 0 then failure else update fun s => s.store p (pgoff va) b
  | none => failure

def loadWord (va : Word) : Act Word := do
  let b0 ← loadByte e va
  let b1 ← loadByte e (va + 1)
  let b2 ← loadByte e (va + 2)
  let b3 ← loadByte e (va + 3)
  return b3 ++ b2 ++ b1 ++ b0

def storeWord (va w : Word) : Act PUnit := do
  storeByte e va (w.extractLsb' 0 8)
  storeByte e (va + 1) (w.extractLsb' 8 8)
  storeByte e (va + 2) (w.extractLsb' 16 8)
  storeByte e (va + 3) (w.extractLsb' 24 8)

end Act

inductive Device
  | file
  | sock
  | pipe
  | cons
  deriving DecidableEq

def Device.devId : Device → Word
  | file => 0x66
  | sock => 0x73
  | pipe => 0x70
  | cons => 0x63

def eMaxOpen : Word := 10
def oRdonly : Word := 0
def oWronly : Word := 1

def fdOmode (fd : Word) : Word := fd + 8

namespace Act

variable (e : EnvIx)

def fdAlloc : List Nat → Act (Except Word Word)
  | [] => return .error (-eMaxOpen)
  | i :: is => do
    let fd := index2fd (BitVec.ofNat 32 i)
    if ← present e fd then fdAlloc is else return .ok fd

def pipeErr1 (fd0 r : Word) : Act (Except Word (Word × Word)) := do
  let _ ← sysPageUnmap e fd0
  return .error r

def pipeErr2 (fd0 fd1 r : Word) : Act (Except Word (Word × Word)) := do
  let _ ← sysPageUnmap e fd1
  pipeErr1 e fd0 r

def pipeErr3 (fd0 fd1 r : Word) : Act (Except Word (Word × Word)) := do
  let _ ← sysPageUnmap e (fd2data fd0)
  pipeErr2 e fd0 fd1 r

def pipeSet (fd0 fd1 : Word) : Act (Except Word (Word × Word)) := do
  storeWord e fd0 Device.pipe.devId
  storeWord e (fdOmode fd0) oRdonly
  storeWord e fd1 Device.pipe.devId
  storeWord e (fdOmode fd1) oWronly
  return .ok (fd2num fd0, fd2num fd1)

def pipeData (fd0 fd1 : Word) : Act (Except Word (Word × Word)) := do
  let va := fd2data fd0
  let r ← sysPageAlloc e va pipePerm
  if r.slt 0 then pipeErr2 e fd0 fd1 r
  else
    let r ← sysPageMap e va e (fd2data fd1) pipePerm
    if r.slt 0 then pipeErr3 e fd0 fd1 r else pipeSet e fd0 fd1

def pipe : Act (Except Word (Word × Word)) := do
  match ← fdAlloc e (List.range 32) with
  | .error r => return .error r
  | .ok fd0 =>
    let r ← sysPageAlloc e fd0 pipePerm
    if r.slt 0 then return .error r
    else match ← fdAlloc e (List.range 32) with
      | .error r => pipeErr1 e fd0 r
      | .ok fd1 =>
        let r ← sysPageAlloc e fd1 pipePerm
        if r.slt 0 then pipeErr1 e fd0 r else pipeData e fd0 fd1

end Act

def Vm.word (s : Vm) (p off : Nat) : Word :=
  s.mem p (off + 3) ++ s.mem p (off + 2) ++ s.mem p (off + 1) ++ s.mem p off

def Vm.setWord (s : Vm) (p off : Nat) (w : Word) : Vm :=
  (((s.store p off (w.extractLsb' 0 8)).store p (off + 1) (w.extractLsb' 8 8)).store p (off + 2)
    (w.extractLsb' 16 8)).store p (off + 3) (w.extractLsb' 24 8)

section specs

variable {D : Prop} {e src dst : EnvIx} {x : Machine} {s : Vm} {va srcva dstva perm w n : Word}
  {p off : Nat} {f : Word}

theorem pgnum_add_of_lt {k : Nat} (h : pgoff va + k < 4096) :
    pgnum (va + BitVec.ofNat 32 k) = pgnum va ∧ pgoff (va + BitVec.ofNat 32 k) = pgoff va + k := by
  rw [pgoff_eq] at h
  rw [pgnum_eq, pgnum_eq, pgoff_eq, pgoff_eq, BitVec.toNat_add, BitVec.toNat_ofNat]
  have := va.isLt
  omega

theorem fd_field {k : Nat} (hn : n.toNat < 32) (hk : k < 4096) :
    pgnum (index2fd n + BitVec.ofNat 32 k) = fdPn n.toNat ∧
      pgoff (index2fd n + BitVec.ofNat 32 k) = k := by
  have h0 := (index2fd_valid hn).2
  obtain ⟨h1, h2⟩ := pgnum_add_of_lt (k := k) (show pgoff (index2fd n) + k < 4096 by omega)
  rw [h1, h2, h0, pgnum_index2fd hn]
  exact ⟨rfl, Nat.zero_add k⟩

namespace Act

theorem wp_draw {Q : Option Nat → Machine → Prop}
    (hnone : (∀ p, x.supply.head? ≠ some (some p)) → Q none { x with supply := x.supply.tail })
    (hsome : ∀ p, x.supply.head? = some (some p) →
      Q (some p) { x with supply := x.supply.tail }) : Wp D draw x Q := by
  change Q x.supply.head?.join _
  cases h : x.supply.head? with
  | none =>
    refine hnone fun p hp => ?_
    rw [h] at hp
    cases hp
  | some o =>
    cases o with
    | none =>
      refine hnone fun p hp => ?_
      rw [h] at hp
      cases hp
    | some p => exact hsome p h

theorem wp_sysPageAlloc {Q : Word → Machine → Prop} (hva : va < utop) (hperm : permOk perm)
    (hfail : (∀ p, x.supply.head? ≠ some (some p)) → Q (-eNoMem) { x with supply := x.supply.tail })
    (hok : ∀ p, x.supply.head? = some (some p) → Q 0
      { x with
        vm := (x.vm.fill p fun _ => 0).mapAt dst (pgnum va) (some (p, perm))
        supply := x.supply.tail }) :
    Wp D (sysPageAlloc dst va perm) x Q := by
  rw [sysPageAlloc, if_neg (BitVec.not_le.2 hva), if_neg (not_or.2 ⟨hperm.2.1, hperm.1⟩),
    if_neg (not_not.2 hperm.2.2)]
  exact .bind (wp_draw hfail hok)

theorem wp_sysPageMap {Q : Word → Machine → Prop}
    (hsrc : srcva < utop ∧ pgoff srcva = 0) (hdst : dstva < utop ∧ pgoff dstva = 0)
    (hp : x.vm.pte src (pgnum srcva) = some (p, f)) (hperm : permOk perm)
    (hw : perm &&& pteW ≠ 0 → f &&& pteW ≠ 0)
    (hfail : (∀ q, x.supply.head? ≠ some (some q)) → Q (-eNoMem) { x with supply := x.supply.tail })
    (hok : (∃ q, x.supply.head? = some (some q)) → Q 0
      { x with
        vm := x.vm.mapAt dst (pgnum dstva) (some (p, perm))
        supply := x.supply.tail }) :
    Wp D (sysPageMap src srcva dst dstva perm) x Q := by
  rw [sysPageMap, if_neg (user_pages hsrc hdst), if_neg hperm.accepted]
  refine .bind (.get ?_)
  rw [hp]
  dsimp only
  rw [if_neg fun h => hw h.1 h.2]
  exact .bind (wp_draw hfail fun q hq => hok ⟨q, hq⟩)

theorem wp_sysPageUnmap {Q : Word → Machine → Prop} (hva : va < utop ∧ pgoff va = 0)
    (hQ : Q 0 { x with vm := x.vm.mapAt dst (pgnum va) none }) : Wp D (sysPageUnmap dst va) x Q := by
  rw [sysPageUnmap, if_neg (not_or.2 ⟨BitVec.not_le.2 hva.1, not_not.2 hva.2⟩)]
  exact hQ

theorem wp_storeByte {b : Byte} {Q : PUnit → Machine → Prop}
    (hp : x.vm.pte e (pgnum va) = some (p, f)) (hw : f &&& pteW ≠ 0)
    (hQ : Q ⟨⟩ { x with vm := x.vm.store p (pgoff va) b }) : Wp D (storeByte e va b) x Q := by
  refine .bind (.get ?_)
  rw [hp]
  dsimp only
  rw [if_neg hw]
  exact hQ

theorem wp_storeWord {Q : PUnit → Machine → Prop} (hp : x.vm.pte e (pgnum va) = some (p, f))
    (hw : f &&& pteW ≠ 0) (hoff : pgoff va + 3 < 4096)
    (hQ : Q ⟨⟩ { x with vm := x.vm.setWord p (pgoff va) w }) : Wp D (storeWord e va w) x Q := by
  have h1 : pgnum (va + 1) = pgnum va ∧ pgoff (va + 1) = pgoff va + 1 :=
    pgnum_add_of_lt (k := 1) (by omega)
  have h2 : pgnum (va + 2) = pgnum va ∧ pgoff (va + 2) = pgoff va + 2 :=
    pgnum_add_of_lt (k := 2) (by omega)
  have h3 : pgnum (va + 3) = pgnum va ∧ pgoff (va + 3) = pgoff va + 3 :=
    pgnum_add_of_lt (k := 3) (by omega)
  refine .bind (wp_storeByte hp hw ?_)
  refine .bind (wp_storeByte (h1.1 ▸ hp) hw ?_)
  refine .bind (wp_storeByte (h2.1 ▸ hp) hw ?_)
  refine wp_storeByte (h3.1 ▸ hp) hw ?_
  rw [h1.2, h2.2, h3.2]
  exact hQ

theorem wp_present {Q : Bool → Machine → Prop}
    (hQ : Q (decide (flags (x.vm.pte e (pgnum va)) &&& pteP ≠ 0)) x) : Wp D (present e va) x Q := hQ

theorem sysPageAlloc_exec (hx : ∀ p, some p ∈ x.supply → x.vm.Unmapped p) :
    Wp True (sysPageAlloc dst va perm) x fun r y =>
      Exec (.pageAlloc dst va perm) x.vm r y.vm := by
  by_cases hva : utop ≤ va
  · rw [sysPageAlloc, if_pos hva]
    exact .pure (.failed (by decide))
  by_cases hu : perm &&& pteU = 0 ∨ perm &&& pteP = 0
  · rw [sysPageAlloc, if_neg hva, if_pos hu]
    exact .pure (.failed (by decide))
  by_cases hbits : perm &&& ~~~pteSyscall ≠ 0
  · rw [sysPageAlloc, if_neg hva, if_neg hu, if_pos hbits]
    exact .pure (.failed (by decide))
  have hperm : permOk perm := ⟨(not_or.1 hu).2, (not_or.1 hu).1, not_not.1 hbits⟩
  refine wp_sysPageAlloc (BitVec.not_le.1 hva) hperm (fun _ => .failed (by decide)) fun p hp => ?_
  exact .pageAlloc (BitVec.not_le.1 hva) hperm (hx p (List.mem_of_head? hp))

theorem sysPageMap_exec : Wp True (sysPageMap src srcva dst dstva perm) x fun r y =>
    Exec (.pageMap src srcva dst dstva perm) x.vm r y.vm := by
  by_cases hva : utop ≤ srcva ∨ pgoff srcva ≠ 0 ∨ utop ≤ dstva ∨ pgoff dstva ≠ 0
  · rw [sysPageMap, if_pos hva]
    exact .pure (.failed (by decide))
  by_cases hok : perm &&& pteU = 0 ∨ perm &&& pteP = 0 ∨ perm &&& ~~~pteSyscall ≠ 0
  · rw [sysPageMap, if_neg hva, if_pos hok]
    exact .pure (.failed (by decide))
  obtain ⟨hsrc, hoff, hdst, hoff'⟩ :
      srcva < utop ∧ pgoff srcva = 0 ∧ dstva < utop ∧ pgoff dstva = 0 := by
    simpa only [not_or, not_not, BitVec.not_le] using hva
  have hperm : permOk perm := by
    simp only [not_or, not_not] at hok
    exact ⟨hok.2.1, hok.1, hok.2.2⟩
  cases hp : x.vm.pte src (pgnum srcva) with
  | none =>
    rw [sysPageMap, if_neg hva, if_neg hok]
    refine .bind (.get ?_)
    rw [hp]
    exact .failed (by decide)
  | some y =>
    by_cases hw : perm &&& pteW ≠ 0 ∧ y.2 &&& pteW = 0
    · rw [sysPageMap, if_neg hva, if_neg hok]
      refine .bind (.get ?_)
      rw [hp]
      dsimp only
      rw [if_pos hw]
      exact .pure (.failed (by decide))
    · have hw' : perm &&& pteW ≠ 0 → y.2 &&& pteW ≠ 0 := fun h hc => hw ⟨h, hc⟩
      exact wp_sysPageMap ⟨hsrc, hoff⟩ ⟨hdst, hoff'⟩ hp hperm hw'
        (fun _ => .failed (by decide)) fun _ => .pageMap hp hperm hw'

theorem sysPageUnmap_exec : Wp True (sysPageUnmap dst va) x fun r y =>
    Exec (.pageUnmap dst va) x.vm r y.vm := by
  rw [sysPageUnmap]
  split
  · exact .pure (.failed (by decide))
  · exact .pageUnmap

end Act

end specs

end Jos.User
