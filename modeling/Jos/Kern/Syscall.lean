import Jos.Kern.E1000

/-! `kern/syscall.c`. -/

namespace Jos.Kern

open Kernel

inductive Sysno
  | cputs | cgetc | getenvid | envDestroy | pageAlloc | pageMap | pageUnmap | exofork
  | envSetStatus | envSetTrapframe | envSetPgfaultUpcall | yield | ipcTrySend | ipcRecv
  | timeMsec | txpacket | rxpacket
  deriving DecidableEq

def Sysno.table : List Sysno :=
  [.cputs, .cgetc, .getenvid, .envDestroy, .pageAlloc, .pageMap, .pageUnmap, .exofork,
    .envSetStatus, .envSetTrapframe, .envSetPgfaultUpcall, .yield, .ipcTrySend, .ipcRecv,
    .timeMsec, .txpacket, .rxpacket]

def Sysno.ofWord (w : Word) : Option Sysno := Sysno.table[w.toNat]?

/-- What a kernel entry takes from the hardware besides the trap frame: the faulting
address, the character at the console, and the frame of a page fault in kernel mode. -/
structure Inputs where
  cr2 : Word
  ch : Word
  ktf : Trapframe

abbrev Call := Option (Kernel × Ret)

def sysCputs (k : Kernel) (c : Cpu) (cur : EnvIx) (s len : Word) : Call := do
  match ← userMemAssert k c cur s len 0 with
  | (k, true) => return (k, .gone)
  | (k, false) =>
    if s = 0 then return (k, .ret 0)
    else
      match ← cputsLoop k.toPhys (k.cpus c).cr3 4294967296 s len with
      | true => return (k, .fault)
      | false => return (k, .ret 0)

def sysEnvDestroy (k : Kernel) (c : Cpu) (envid : Word) : Call :=
  match envid2env k c envid true with
  | none => some (k, .ret (-eBadEnv))
  | some e => do
    match ← envDestroy k c e with
    | (k, true) => return (k, .gone)
    | (k, false) => return (k, .ret 0)

def sysYield (k : Kernel) (c : Cpu) : Call := do
  return (← schedYield k c, .gone)

def sysExofork (k : Kernel) (cur : EnvIx) : Call := do
  match ← envAlloc k (k.envs cur).envId with
  | (k, .error r) => return (k, .ret r)
  | (k, .ok e) =>
    let tf := (k.envs cur).envTf
    let k := k.setEnv e { k.envs e with
      envStatus := .notRunnable
      envTf := { tf with tfRegs := { tf.tfRegs with regEax := 0 } } }
    return (k, .ret (k.envs e).envId)

def sysEnvSetStatus (k : Kernel) (c : Cpu) (envid status : Word) : Call :=
  if status ≠ EnvStatus.runnable.code ∧ status ≠ EnvStatus.notRunnable.code then
    some (k, .ret (-eInval))
  else
    match envid2env k c envid true with
    | none => some (k, .ret (-eBadEnv))
    | some e =>
      let st := if status = EnvStatus.runnable.code then .runnable else .notRunnable
      some (k.setStatus e st, .ret 0)

/-- The seventeen words of a trap frame, without what lies in the padding. -/
def Trapframe.words (tf : Trapframe) : List Word :=
  let r := tf.tfRegs
  [r.regEdi, r.regEsi, r.regEbp, r.regOesp, r.regEbx, r.regEdx, r.regEcx, r.regEax,
    tf.tfEs.setWidth 32, tf.tfDs.setWidth 32, tf.tfTrapno, tf.tfErr, tf.tfEip,
    tf.tfCs.setWidth 32, tf.tfEflags, tf.tfEsp, tf.tfSs.setWidth 32]

def Trapframe.ofWords (ws : List Word) : Trapframe :=
  let w := fun i => ws.getD i 0
  { tfRegs := ⟨w 0, w 1, w 2, w 3, w 4, w 5, w 6, w 7⟩
    tfEs := (w 8).setWidth 16
    tfDs := (w 9).setWidth 16
    tfTrapno := w 10
    tfErr := w 11
    tfEip := w 12
    tfCs := (w 13).setWidth 16
    tfEflags := w 14
    tfEsp := w 15
    tfSs := (w 16).setWidth 16 }

def Trapframe.overlay (old : Trapframe) (bs : List Byte) : Trapframe :=
  let n := bs.length / 4
  .ofWords ((List.range n).map (wordOfBytes bs) ++ old.words.drop n)

def sysEnvSetTrapframe (k : Kernel) (c : Cpu) (envid tf : Word) : Call :=
  match envid2env k c envid true with
  | none => some (k, .ret (-eBadEnv))
  | some e => do
    match ← userMemAssert k c e tf 68 pteU with
    | (k, true) => return (k, .gone)
    | (k, false) =>
      let (bs, fault) := copyIn k.toPhys (k.cpus c).cr3 68 tf
      let envTf := (k.envs e).envTf.overlay bs
      if fault then return (k.setEnv e { k.envs e with envTf }, .fault)
      else
        let envTf := { envTf with
          tfCs := envTf.tfCs ||| 3, tfEflags := (envTf.tfEflags &&& ~~~flIopl3) ||| flIF }
        return (k.setEnv e { k.envs e with envTf }, .ret 0)

def sysEnvSetPgfaultUpcall (k : Kernel) (c : Cpu) (envid func : Word) : Call :=
  match envid2env k c envid true with
  | none => some (k, .ret (-eBadEnv))
  | some e => some (k.setEnv e { k.envs e with envPgfaultUpcall := func }, .ret 0)

def sysPageAlloc (k : Kernel) (c : Cpu) (envid va perm : Word) : Call :=
  if utop ≤ va then some (k, .ret (-eInval))
  else if perm &&& pteU = 0 ∨ perm &&& pteP = 0 then some (k, .ret (-eBadEnv))
  else if perm &&& ~~~(pteU ||| pteP ||| pteW ||| pteAvail) ≠ 0 then some (k, .ret (-eNoMem))
  else
    match envid2env k c envid true with
    | none => some (k, .ret (-eBadEnv))
    | some e => do
      match ← pageAlloc k.toPhys false with
      | (m, none) => return ({ k with toPhys := m }, .ret (-eNoMem))
      | (m, some pp) =>
        let (m, r) ← pageInsert m (k.envs e).envPgdir pp va perm
        if r.slt 0 then
          return ({ k with toPhys := ← pageFree m pp }, .ret (-eNoMem))
        else
          let p ← m.page2kva pp
          return ({ k with toPhys := m.clear p }, .ret 0)

def sysPageMap (k : Kernel) (c : Cpu) (srcenvid srcva dstenvid dstva perm : Word) : Call :=
  match envid2env k c srcenvid true, envid2env k c dstenvid true with
  | some srcenv, some dstenv =>
    if utop ≤ srcva ∨ pgoff srcva ≠ 0 ∨ utop ≤ dstva ∨ pgoff dstva ≠ 0 then
      some (k, .ret (-eInval))
    else if perm &&& pteU = 0 ∨ perm &&& pteP = 0 ∨ perm &&& ~~~pteSyscall ≠ 0 then
      some (k, .ret (-eInval))
    else do
      match ← pageLookup k.toPhys (k.envs srcenv).envPgdir srcva with
      | none => return (k, .ret (-eInval))
      | some (pp, t, j) =>
        if perm &&& pteW ≠ 0 ∧ k.mem t j &&& pteW = 0 then return (k, .ret (-eInval))
        else
          let (m, r) ← pageInsert k.toPhys (k.envs dstenv).envPgdir pp dstva perm
          return ({ k with toPhys := m }, .ret (if r.slt 0 then -eNoMem else 0))
  | _, _ => some (k, .ret (-eBadEnv))

def sysPageUnmap (k : Kernel) (c : Cpu) (envid va : Word) : Call :=
  match envid2env k c envid true with
  | none => some (k, .ret (-eBadEnv))
  | some e =>
    if utop ≤ va ∨ pgoff va ≠ 0 then some (k, .ret (-eInval))
    else do
      return ({ k with toPhys := ← pageRemove k.toPhys (k.envs e).envPgdir va }, .ret 0)

/-- The page to send, when `srcva` names one: looked up in the sender, with the place of
its entry.  `some (.error r)` is a refusal. -/
def ipcPage (k : Kernel) (cur : EnvIx) (srcva perm : Word) : Option (Except Word (Option Nat)) :=
  if utop ≤ srcva then some (.ok none)
  else if pgoff srcva ≠ 0 then some (.error (-eInval))
  else if perm &&& pteP = 0 ∨ perm &&& pteU = 0 then some (.error (-eInval))
  else if perm &&& ~~~(pteP ||| pteU ||| pteW ||| pteAvail) ≠ 0 then some (.error (-eInval))
  else do
    match ← pageLookup k.toPhys (k.envs cur).envPgdir srcva with
    | none => return .error (-eInval)
    | some (pp, t, j) =>
      if perm &&& pteW ≠ 0 ∧ k.mem t j &&& pteW = 0 then return .error (-eInval)
      else return .ok (some pp)

def ipcDeliver (k : Kernel) (cur e : EnvIx) (value : Word) : Kernel :=
  let tf := (k.envs e).envTf
  let sender := (k.envs cur).envId
  (k.setEnv e { k.envs e with
    envIpcFrom := sender
    envIpcRecving := false
    envIpcValue := value
    envStatus := .runnable
    envTf := { tf with tfRegs := { tf.tfRegs with regEax := 0 } } }).note (.sent e value sender)

def sysIpcTrySend (k : Kernel) (c : Cpu) (cur : EnvIx) (envid value srcva perm : Word) : Call :=
  match envid2env k c envid false with
  | none => some (k, .ret (-eBadEnv))
  | some e =>
    if (k.envs e).envIpcRecving ≠ true ∨ (k.envs e).envIpcFrom ≠ 0 then
      some (k, .ret (-eIpcNotRecv))
    else do
      match ← ipcPage k cur srcva perm with
      | .error r => return (k, .ret r)
      | .ok none => return (ipcDeliver k cur e value, .ret 0)
      | .ok (some pp) =>
        if (k.envs e).envIpcDstva ≠ 0 then
          let (m, r) ← pageInsert k.toPhys (k.envs e).envPgdir pp (k.envs e).envIpcDstva perm
          let k := { k with toPhys := m }
          if r.slt 0 then return (k, .ret (-eNoMem))
          else
            let k := k.setEnv e { k.envs e with envIpcPerm := perm }
            return (ipcDeliver k cur e value, .ret 0)
        else return (ipcDeliver k cur e value, .ret 0)

def sysIpcRecv (k : Kernel) (c : Cpu) (cur : EnvIx) (dstva : Word) : Call :=
  if dstva < utop ∧ pgoff dstva ≠ 0 then some (k, .ret (-eInval))
  else do
    let k := k.setEnv cur { k.envs cur with
      envIpcRecving := true
      envIpcDstva := dstva
      envStatus := .notRunnable
      envIpcFrom := 0 }
    return (← schedYield (k.note (.recv cur)) c, .gone)

def sysTxpacket (k : Kernel) (c : Cpu) (cur : EnvIx) (src length : Word) : Call := do
  match ← userMemAssert k c cur src length pteU with
  | (k, true) => return (k, .gone)
  | (k, false) => return txpacket k c src length

def sysRxpacket (k : Kernel) (c : Cpu) (cur : EnvIx) (dst : Word) : Call := do
  match ← userMemAssert k c cur dst rxbuffsize pteU with
  | (k, true) => return (k, .gone)
  | (k, false) => return rxpacket k c dst

def syscall (k : Kernel) (c : Cpu) (cur : EnvIx) (inp : Inputs)
    (syscallno a1 a2 a3 a4 a5 : Word) : Call :=
  match Sysno.ofWord syscallno with
  | some .cputs => sysCputs k c cur a1 a2
  | some .cgetc => some (k, .ret inp.ch)
  | some .getenvid => some (k, .ret (k.envs cur).envId)
  | some .envDestroy => sysEnvDestroy k c a1
  | some .yield => sysYield k c
  | some .exofork => sysExofork k cur
  | some .envSetStatus => sysEnvSetStatus k c a1 a2
  | some .pageAlloc => sysPageAlloc k c a1 a2 a3
  | some .pageMap => sysPageMap k c a1 a2 a3 a4 a5
  | some .pageUnmap => sysPageUnmap k c a1 a2
  | some .envSetPgfaultUpcall => sysEnvSetPgfaultUpcall k c a1 a2
  | some .ipcTrySend => sysIpcTrySend k c cur a1 a2 a3 a4
  | some .ipcRecv => sysIpcRecv k c cur a1
  | some .envSetTrapframe => sysEnvSetTrapframe k c a1 a2
  | some .timeMsec => some (k, .ret (k.ticks * 10))
  | some .txpacket => sysTxpacket k c cur a1 a2
  | some .rxpacket => sysRxpacket k c cur a1
  | none => some (k, .ret (-eInval))

end Jos.Kern
