import Jos.Kern.State

/-! `kern/env.c` and `kern/sched.c`: environments, their address spaces and the scheduler. -/

namespace Jos.Kern

open Kernel

def envid2env (k : Kernel) (c : Cpu) (envid : Word) (checkperm : Bool) : Option EnvIx :=
  if envid = 0 then k.curenv c
  else
    let e := envx envid
    if k.status e = .free ∨ (k.envs e).envId ≠ envid then none
    else if checkperm ∧ some e ≠ k.curenv c ∧
        some (k.envs e).envParentId ≠ (k.curenv c).map fun cur => (k.envs cur).envId then none
    else some e

/-- The page directory of a new environment: empty below `UTOP`, the kernel's above it,
and the directory itself as page table at `UVPT`. -/
def envPgdirPage (m : Phys) (kernPgdir p : Nat) (i : Nat) : Word :=
  if i = pdx uvpt then page2pa p ||| pteP ||| pteU
  else if i < pdx utop then 0
  else m.mem kernPgdir i

def envSetupVm (m : Phys) (kernPgdir : Nat) : Option (Phys × Option Nat) := do
  match ← pageAlloc m true with
  | (m, none) => return (m, none)
  | (m, some pp) =>
    let p ← m.page2kva pp
    let m := m.setRef pp (m.ppRef pp + 1)
    return (m.setPage p (envPgdirPage m kernPgdir p), some p)

def envgen (envId : Word) (e : EnvIx) : Word :=
  let generation := (envId + 0x1000) &&& ~~~0x3FF
  let generation := if generation.sle 0 then 0x1000 else generation
  generation ||| BitVec.ofNat 32 e

def envTfInit : Trapframe :=
  { Trapframe.zero with
    tfDs := gdUD ||| 3, tfEs := gdUD ||| 3, tfSs := gdUD ||| 3, tfEsp := ustacktop,
    tfCs := gdUT ||| 3, tfEflags := flIF }

def envAlloc (k : Kernel) (parentId : Word) : Option (Kernel × Except Word EnvIx) :=
  match k.envFreeList with
  | none => some (k, .error (-eNoFreeEnv))
  | some e => do
    match ← envSetupVm k.toPhys k.kernPgdir with
    | (m, none) => return ({ k with toPhys := m }, .error (-eNoMem))
    | (m, some d) =>
      let k := { k with toPhys := m, envFreeList := (k.envs e).envLink }
      let k := k.setEnv e { k.envs e with
        envPgdir := some d
        envId := envgen (k.envs e).envId e
        envParentId := parentId
        envType := .user
        envStatus := .runnable
        envRuns := 0
        envTf := envTfInit
        envPgfaultUpcall := 0
        envIpcRecving := false }
      return (k.note (.alloc e), .ok e)

def envFreeTable (d t pdeno : Nat) (m : Phys) : Option Phys :=
  (List.range 1024).foldlM (fun m pteno =>
    if m.mem t pteno &&& pteP ≠ 0 then pageRemove m (some d) (pgaddr pdeno pteno 0) else some m) m

def envFreePde (d : Nat) (m : Phys) (pdeno : Nat) : Option Phys :=
  if m.mem d pdeno &&& pteP = 0 then some m
  else do
    let pa := pteAddr (m.mem d pdeno)
    let t ← m.kaddr pa
    let m ← envFreeTable d t pdeno m
    let m := m.store d pdeno 0
    pageDecref m (← m.pa2page pa)

def envFreeVm (m : Phys) (d : Nat) : Option Phys := do
  let m ← (List.range (pdx utop)).foldlM (envFreePde d) m
  pageDecref m (← m.pa2page (page2pa d))

/-- A null `env_pgdir` is read through address 0: the kernel does not come back from that. -/
def envFree (k : Kernel) (c : Cpu) (e : EnvIx) : Option Kernel := do
  let k := if k.curenv c = some e then k.lcr3 c k.kernPgdir else k
  let d ← (k.envs e).envPgdir
  let m ← envFreeVm k.toPhys d
  let k := { k with toPhys := m }
  let k := k.setEnv e { k.envs e with
    envPgdir := none, envStatus := .free, envLink := k.envFreeList }
  return { k with envFreeList := some e }.note (.freed c e)

/-- The environment a CPU switches away from goes back to the queue if it was running. -/
def demote (k : Kernel) (c : Cpu) : Kernel :=
  match k.curenv c with
  | some o => if k.status o = .running then k.setStatus o .runnable else k
  | none => k

/-- `env_run`, up to `env_pop_tf`: CPU `c` goes on in environment `e`. -/
def envRun (k : Kernel) (c : Cpu) (e : EnvIx) : Option Kernel := do
  let k := (demote k c).setCurenv c (some e)
  let k := k.setEnv e { k.envs e with
    envStatus := .running, envRuns := (k.envs e).envRuns + 1, envCpunum := c }
  let d ← (k.envs e).envPgdir
  return (k.lcr3 c d).note (.ran c e (k.envs e).envIpcValue (k.envs e).envIpcFrom)

/-- With no environment left to wait for, the kernel monitor takes over for good. -/
def schedHalt (k : Kernel) (c : Cpu) : Option Kernel :=
  if ∀ e, k.status e ≠ .runnable ∧ k.status e ≠ .running ∧ k.status e ≠ .dying then none
  else some (k.setCpu c { cpuStatus := .halted, cpuEnv := none, cr3 := k.kernPgdir })

def schedPick (k : Kernel) (start : Nat) : Option EnvIx :=
  ((List.range nenv).map fun i => slot (start + i)).find? fun e => k.status e = .runnable

/-- The search starts at the environment that was running. -/
def schedStart (k : Kernel) (c : Cpu) : Nat :=
  match k.curenv c with
  | some idle => (envx (k.envs idle).envId).val
  | none => 0

def schedYield (k : Kernel) (c : Cpu) : Option Kernel :=
  match schedPick k (schedStart k c) with
  | some e => envRun k c e
  | none =>
    match k.curenv c with
    | some idle => if k.status idle = .running then envRun k c idle else schedHalt k c
    | none => schedHalt k c

/-- How a kernel function ends: with a result, by leaving the kernel for good on this
CPU, or in a page fault taken in kernel mode. -/
inductive Ret
  | ret (r : Word)
  | gone
  | fault
  deriving DecidableEq

/-- Returns whether the CPU has gone on to something else. -/
def envDestroy (k : Kernel) (c : Cpu) (e : EnvIx) : Option (Kernel × Bool) :=
  if k.status e = .running ∧ k.curenv c ≠ some e then
    some (k.setStatus e .dying, false)
  else do
    let self := k.curenv c = some e
    let k ← envFree k c e
    if self then return (← schedYield (k.setCurenv c none) c, true)
    else return (k, false)

end Jos.Kern
