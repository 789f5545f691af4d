import Jos.Kern.Pmap
import Mathlib.Data.Fintype.Basic

/-! The kernel's records: `inc/trap.h`, `inc/env.h`, `kern/cpu.h`, `kern/e1000.h`. -/

namespace Jos.Kern

abbrev Byte := BitVec 8

structure PushRegs where
  regEdi : Word
  regEsi : Word
  regEbp : Word
  regOesp : Word
  regEbx : Word
  regEdx : Word
  regEcx : Word
  regEax : Word
  deriving DecidableEq

structure Trapframe where
  tfRegs : PushRegs
  tfEs : BitVec 16
  tfDs : BitVec 16
  tfTrapno : Word
  tfErr : Word
  tfEip : Word
  tfCs : BitVec 16
  tfEflags : Word
  tfEsp : Word
  tfSs : BitVec 16
  deriving DecidableEq

def PushRegs.zero : PushRegs := ⟨0, 0, 0, 0, 0, 0, 0, 0⟩

def Trapframe.zero : Trapframe := ⟨.zero, 0, 0, 0, 0, 0, 0, 0, 0, 0⟩

inductive EnvStatus
  | free | dying | runnable | running | notRunnable
  deriving DecidableEq

def EnvStatus.code : EnvStatus → Word
  | .free => 0
  | .dying => 1
  | .runnable => 2
  | .running => 3
  | .notRunnable => 4

inductive EnvType
  | user | fs | ns
  deriving DecidableEq

def nenv : Nat := 1024

/-- A `struct Env *` is an index into `envs`. -/
abbrev EnvIx := Fin nenv

def ncpu : Nat := 8

abbrev Cpu := Fin ncpu

def bootcpu : Cpu := ⟨0, by decide⟩

structure Env where
  envTf : Trapframe
  envLink : Option EnvIx
  envId : Word
  envParentId : Word
  envType : EnvType
  envStatus : EnvStatus
  envRuns : Word
  envCpunum : Cpu
  envPgdir : Option Nat
  envPgfaultUpcall : Word
  envIpcRecving : Bool
  envIpcDstva : Word
  envIpcValue : Word
  envIpcFrom : Word
  envIpcPerm : Word

inductive CpuStatus
  | unused | started | halted
  deriving DecidableEq

/-- `struct CpuInfo`, and the page directory loaded in the CPU's `%cr3`. -/
structure CpuInfo where
  cpuStatus : CpuStatus
  cpuEnv : Option EnvIx
  cr3 : Nat

structure TxDesc where
  length : BitVec 16
  cmd : Byte
  status : Byte

structure RxDesc where
  length : BitVec 16
  status : Byte

structure E1000 where
  tdt : Word
  txqueue : Nat → TxDesc
  txbuffer : Nat → Nat → Byte
  rdt : Word
  rxqueue : Nat → RxDesc
  rxbuffer : Nat → Nat → Byte

/-- What an observer of the kernel writes down; the kernel itself never reads it. -/
inductive Note
  | alloc (e : EnvIx)
  | freed (c : Cpu) (e : EnvIx)
  | ran (c : Cpu) (e : EnvIx) (value sender : Word)
  | recv (e : EnvIx)
  | sent (e : EnvIx) (value sender : Word)
  deriving DecidableEq

structure Kernel extends Phys where
  kernPgdir : Nat
  envs : EnvIx → Env
  envFreeList : Option EnvIx
  cpus : Cpu → CpuInfo
  ticks : Word
  e1000 : E1000
  trace : List Note

namespace Kernel

def setEnv (k : Kernel) (e : EnvIx) (v : Env) : Kernel :=
  { k with envs := Function.update k.envs e v }

def setStatus (k : Kernel) (e : EnvIx) (st : EnvStatus) : Kernel :=
  k.setEnv e { k.envs e with envStatus := st }

def setCpu (k : Kernel) (c : Cpu) (v : CpuInfo) : Kernel :=
  { k with cpus := Function.update k.cpus c v }

def curenv (k : Kernel) (c : Cpu) : Option EnvIx := (k.cpus c).cpuEnv

def setCurenv (k : Kernel) (c : Cpu) (e : Option EnvIx) : Kernel :=
  k.setCpu c { k.cpus c with cpuEnv := e }

def lcr3 (k : Kernel) (c : Cpu) (d : Nat) : Kernel :=
  k.setCpu c { k.cpus c with cr3 := d }

def note (k : Kernel) (n : Note) : Kernel := { k with trace := n :: k.trace }

def status (k : Kernel) (e : EnvIx) : EnvStatus := (k.envs e).envStatus

end Kernel

theorem toNat_and_lt (w : Word) : (w &&& 0x3FF).toNat < nenv := by
  rw [BitVec.toNat_and, show (0x3FF : Word).toNat = 2 ^ 10 - 1 from rfl,
    Nat.and_two_pow_sub_one_eq_mod]
  exact Nat.mod_lt _ (by decide)

def envx (envid : Word) : EnvIx := ⟨(envid &&& 0x3FF).toNat, toNat_and_lt envid⟩

def slot (n : Nat) : EnvIx := ⟨n % nenv, Nat.mod_lt _ (by decide)⟩

def gdUT : BitVec 16 := 0x18
def gdUD : BitVec 16 := 0x20
def gdKT : BitVec 16 := 0x08
def flIF : Word := 0x200
def flIopl3 : Word := 0x3000

end Jos.Kern
