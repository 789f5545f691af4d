import Jos.Kern.Syscall

/-! `kern/trap.c`, and the kernel as a machine that takes one kernel entry at a time:
the big kernel lock makes each of them atomic. -/

namespace Jos.Kern

open Kernel

def tBrkpt : Word := 3
def tPgflt : Word := 14
def tSyscall : Word := 48
def irqTimer : Word := 32
def irqKbd : Word := 33
def irqSerial : Word := 36
def irqSpurious : Word := 39

def utrapframe (tf : Trapframe) (faultVa : Word) : List Word :=
  let r := tf.tfRegs
  [faultVa, tf.tfTrapno,
    r.regEdi, r.regEsi, r.regEbp, r.regOesp, r.regEbx, r.regEdx, r.regEcx, r.regEax,
    tf.tfEip, tf.tfEflags, tf.tfEsp]

/-- Where the frame for the upcall goes: below the trap-time stack pointer, with a word
left free, when that is the exception stack already. -/
def utfAddr (esp : Word) : Word :=
  if uxstacktop - pgsize ≤ esp ∧ esp ≤ uxstacktop - 1 then esp - 52 - 4 else uxstacktop - 52

/-- `tf` is the saved frame of `cur`, or for a fault in kernel mode the frame on the kernel
stack (`user = false`), which nothing reads afterwards.  The test for a fault in kernel mode
at the start of the function, `tf->tf_cs && 0x01 == 0`, is false for every frame. -/
def pageFaultHandler (k : Kernel) (c : Cpu) (cur : EnvIx) (tf : Trapframe) (faultVa : Word)
    (user : Bool) : Option Kernel :=
  if (k.envs cur).envPgfaultUpcall ≠ 0 then do
    let utf := utfAddr tf.tfEsp
    match ← userMemAssert k c cur utf 52 (pteU ||| pteW) with
    | (k, true) => return k
    | (k, false) =>
      let (m, fault) := copyOut (k.cpus c).cr3 k.toPhys
        ((utrapframe tf faultVa).flatMap bytesOfWord) utf
      let k := { k with toPhys := m }
      -- a fault inside the handler comes back to the handler for ever
      if fault then none
      else
        let tf := { tf with tfEip := (k.envs cur).envPgfaultUpcall, tfEsp := utf }
        envRun (if user then k.setEnv cur { k.envs cur with envTf := tf } else k) c cur
  else do
    let (k, _) ← envDestroy k c cur
    return k

def timeTick (k : Kernel) : Option Kernel :=
  let ticks := k.ticks + 1
  if ticks * 10 < ticks then none else some { k with ticks }

def trapDispatch (k : Kernel) (c : Cpu) (cur : EnvIx) (tf : Trapframe) (inp : Inputs) : Call :=
  if tf.tfTrapno = irqSpurious then some (k, .ret 0)
  else if tf.tfTrapno = irqTimer then do
    return (← schedYield (← timeTick k) c, .gone)
  else if tf.tfTrapno = irqKbd then some (k, .ret 0)
  else if tf.tfTrapno = irqSerial then some (k, .ret 0)
  else if tf.tfTrapno = tPgflt then do
    return (← pageFaultHandler k c cur tf inp.cr2 true, .gone)
  else if tf.tfTrapno = tBrkpt then some (k, .ret 0)
  else if tf.tfTrapno = tSyscall then do
    let r := tf.tfRegs
    match ← syscall k c cur inp r.regEax r.regEdx r.regEcx r.regEbx r.regEdi r.regEsi with
    | (k, .ret code) =>
      let tf := (k.envs cur).envTf
      return (k.setEnv cur { k.envs cur with
        envTf := { tf with tfRegs := { tf.tfRegs with regEax := code } } }, .ret 0)
    | (k, r) => return (k, r)
  else do
    let (k, _) ← envDestroy k c cur
    return (k, .gone)

def trapReturn (k : Kernel) (c : Cpu) : Option Kernel :=
  match k.curenv c with
  | some e => if k.status e = .running then envRun k c e else schedYield k c
  | none => schedYield k c

def trapUser (k : Kernel) (c : Cpu) (tf : Trapframe) (inp : Inputs) : Option Kernel := do
  let cur ← k.curenv c
  if k.status cur = .dying then
    let k ← envFree k c cur
    schedYield (k.setCurenv c none) c
  else
    let k := k.setEnv cur { k.envs cur with envTf := tf }
    match ← trapDispatch k c cur tf inp with
    | (k, .ret _) => trapReturn k c
    | (k, .gone) => return k
    | (k, .fault) => pageFaultHandler k c cur inp.ktf inp.cr2 false

def trapHalted (k : Kernel) (c : Cpu) (trapno : Word) : Option Kernel :=
  let k := k.setCpu c { k.cpus c with cpuStatus := .started }
  if trapno = irqTimer then do schedYield (← timeTick k) c
  else if trapno = irqSpurious ∨ trapno = irqKbd ∨ trapno = irqSerial then trapReturn k c
  else none

inductive Event
  | start (c : Cpu)
  | trap (c : Cpu) (tf : Trapframe) (inp : Inputs)
  | irq (c : Cpu) (trapno : Word)
  | store (c : Cpu) (va : Word) (b : Byte)
  | device (d : E1000)

namespace Kernel

def user (k : Kernel) (c : Cpu) : Option EnvIx :=
  if (k.cpus c).cpuStatus = .started then k.curenv c else none

end Kernel

/-- One step: a CPU enters the scheduler for the first time, a trap from user mode, an
interrupt on a halted CPU, a byte stored by user code, or the network card at work. -/
def step (k : Kernel) : Event → Option Kernel
  | .start c =>
    if (k.cpus c).cpuStatus = .started ∧ k.curenv c = none then schedYield k c else none
  | .trap c tf inp =>
    if k.user c ≠ none ∧ tf.tfCs &&& 3 = 3 then trapUser k c tf inp else none
  | .irq c trapno => if (k.cpus c).cpuStatus = .halted then trapHalted k c trapno else none
  | .store c va b =>
    if k.user c ≠ none then
      (mmuStore k.toPhys (k.cpus c).cr3 va (pteU ||| pteW) b).map fun m => { k with toPhys := m }
    else none
  | .device d => some { k with e1000 := d }

end Jos.Kern
