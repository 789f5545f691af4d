import Jos.Kern.State
import Mathlib.Logic.Function.Basic

/-! One mailbox of `net/lwip/jos/arch/sys_arch.c` with its two semaphores, and the threads of
`thread.c` that post to it and fetch from it.  Threads switch inside `thread_wait`, or between
two calls; the clock may move at any time. -/

namespace Jos.Net

open Kern

def mboxslots : Nat := 32
def sysArchNowait : Word := 0xFFFFFFFE
def sysArchTimeout : Word := 0xFFFFFFFF

structure Sem where
  counter : BitVec 16
  waiters : BitVec 16

/-- The word that overlays the two counts, and that waiting threads watch. -/
def Sem.v (x : Sem) : Word := x.waiters ++ x.counter

inductive SemId
  | queuedMsg
  | freeMsg
  deriving DecidableEq

/-- No `head` is the source's -1. -/
structure Mbox where
  head : Option Nat
  nextq : Nat
  msg : Nat → Word
  sem : SemId → Sem

/-- `sys_sem_new` leaves `waiters` as it was. -/
def sysSemNew (old : Sem) (count : Nat) : Sem := { old with counter := BitVec.ofNat 16 count }

/-- `old` is what an earlier mailbox has left in the slot. -/
def sysMboxNew (old : Mbox) (size : Nat) : Option Mbox :=
  if size < mboxslots then
    some { old with
      head := none
      nextq := 0
      sem := fun
        | .queuedMsg => sysSemNew (old.sem .queuedMsg) 0
        | .freeMsg => sysSemNew (old.sem .freeMsg) mboxslots }
  else none

def Mbox.put (b : Mbox) (msg : Word) : Mbox :=
  let slot := b.nextq
  { b with
    nextq := (slot + 1) % mboxslots
    msg := Function.update b.msg slot msg
    head := if b.head = none then some slot else b.head }

def Mbox.drop (b : Mbox) (slot : Nat) : Mbox :=
  let head := (slot + 1) % mboxslots
  { b with head := if head = b.nextq then none else some head }

inductive Op
  | post (msg : Word)
  | trypost (msg : Word)
  | fetch (tmMsec : Word)
  | tryfetch

def Op.sem : Op → SemId
  | .post _ | .trypost _ => .freeMsg
  | .fetch _ | .tryfetch => .queuedMsg

def Op.tmMsec : Op → Word
  | .post _ | .trypost _ => 0
  | .fetch tmMsec => tmMsec
  | .tryfetch => sysArchNowait

/-- Where a thread is: outside any call, at the head of the loop of `sys_arch_sem_wait`, about to
enter `thread_wait`, at the head of its loop, inside `thread_yield`, back from `thread_wait`. -/
inductive Pc
  | idle
  | test (op : Op) (waited : Word)
  | sleep (op : Op) (waited a val msec : Word)
  | wait (op : Op) (waited a val msec s p : Word)
  | yield (op : Op) (waited a val msec s : Word)
  | woken (op : Op) (waited a : Word)

structure ThreadContext where
  pc : Pc
  tcWaitAddr : Option SemId
  tcWakeup : Bool

inductive Out
  | posted (msg : Word)
  | errMem
  | fetched (msg : Word)
  | timeout
  deriving DecidableEq

structure Port where
  mbox : Mbox
  thread : Nat → ThreadContext
  cur : Nat
  ticks : Nat
  log : List Out

namespace Port

variable (s : Port)

def sysTimeMsec : Word := BitVec.ofNat 32 (10 * s.ticks)

def setSem (i : SemId) (x : Sem) : Port :=
  { s with mbox := { s.mbox with sem := Function.update s.mbox.sem i x } }

def setThread (tc : ThreadContext) : Port :=
  { s with thread := Function.update s.thread s.cur tc }

def setPc (pc : Pc) : Port := s.setThread { s.thread s.cur with pc := pc }

/-- The current thread is not on the queue. -/
def threadWakeup (i : SemId) : Port :=
  { s with thread := fun j =>
      if j ≠ s.cur ∧ (s.thread j).tcWaitAddr = some i then { s.thread j with tcWakeup := true }
      else s.thread j }

def sysSemSignal (i : SemId) : Port :=
  let x := s.mbox.sem i
  if x.waiters ≠ 0 then (s.setSem i ⟨x.counter + 1, 0⟩).threadWakeup i
  else s.setSem i { x with counter := x.counter + 1 }

def ret (out : Out) : Port := { s.setPc .idle with log := s.log ++ [out] }

/-- `sys_mbox_trypost` once it has waited; `none` is `ERR_MEM`. -/
def storeMsg (msg : Word) : Option Port :=
  if s.mbox.head = some s.mbox.nextq then none
  else some ({ s with mbox := s.mbox.put msg }.sysSemSignal .queuedMsg)

/-- `sys_arch_mbox_fetch` once it has waited; `none` is its panic. -/
def takeMsg : Option (Word × Port) :=
  match s.mbox.head with
  | none => none
  | some slot =>
    some (s.mbox.msg slot, { s with mbox := s.mbox.drop slot }.sysSemSignal .freeMsg)

/-- What a call does with the answer of `sys_arch_sem_wait`.  `sys_mbox_trypost` does not look
at it. -/
def proceed (op : Op) (waited : Word) : Option Port :=
  match op with
  | .post msg => (s.storeMsg msg).map fun s => s.ret (.posted msg)
  | .trypost msg =>
    match s.storeMsg msg with
    | none => some (s.ret .errMem)
    | some s => some (s.ret (.posted msg))
  | .fetch _ | .tryfetch =>
    if waited = sysArchTimeout then some (s.ret .timeout)
    else (s.takeMsg).map fun x => x.2.ret (.fetched x.1)

def semWait (op : Op) (waited : Word) : Option Port :=
  let x := s.mbox.sem op.sem
  if op.tmMsec = 0 ∨ waited < op.tmMsec then
    if 0 < x.counter then
      (s.setSem op.sem { x with counter := x.counter - 1 }).proceed op waited
    else if op.tmMsec = sysArchNowait then s.proceed op sysArchTimeout
    else
      let a := s.sysTimeMsec
      let sleepUntil := if op.tmMsec ≠ 0 then a + (op.tmMsec - waited) else 0xFFFFFFFF
      let x := { x with waiters := 1 }
      some ((s.setSem op.sem x).setPc (.sleep op waited a x.v sleepUntil))
  else s.proceed op sysArchTimeout

def run : Option Port :=
  match (s.thread s.cur).pc with
  | .idle => some s
  | .test op waited => s.semWait op waited
  | .sleep op waited a val msec =>
    let now := s.sysTimeMsec
    some (s.setThread ⟨.wait op waited a val msec now now, some op.sem, false⟩)
  | .wait op waited a val msec start p =>
    if p < msec ∧ ¬ p < start ∧ (s.mbox.sem op.sem).v = val ∧ (s.thread s.cur).tcWakeup = false then
      some (s.setPc (.yield op waited a val msec start))
    else some (s.setThread ⟨.woken op waited a, none, false⟩)
  | .yield op waited a val msec start =>
    some (s.setPc (.wait op waited a val msec start s.sysTimeMsec))
  | .woken op waited a => some (s.setPc (.test op (waited + (s.sysTimeMsec - a))))

def mayYield : Bool :=
  match (s.thread s.cur).pc with
  | .idle | .yield .. => true
  | _ => false

end Port

inductive PortEvent
  | call (op : Op)
  | run
  | switch (i : Nat)
  | tick

/-- The kernel panics before its clock overflows. -/
def portStep (s : Port) : PortEvent → Option Port
  | .call op =>
    match (s.thread s.cur).pc with
    | .idle => some (s.setPc (.test op 0))
    | _ => some s
  | .run => s.run
  | .switch i => some (if s.mayYield then { s with cur := i } else s)
  | .tick => some (if 10 * (s.ticks + 1) < 2 ^ 32 then { s with ticks := s.ticks + 1 } else s)

def portStart (mbox : Mbox) : Port where
  mbox := mbox
  thread := fun _ => ⟨.idle, none, false⟩
  cur := 0
  ticks := 0
  log := []

/-- The messages in the mailbox; a full ring has its two ends at one slot, as an empty one has. -/
def stored (b : Mbox) : List Word :=
  match b.head with
  | none => []
  | some head =>
    (List.range (if b.nextq = head then mboxslots else (b.nextq + mboxslots - head) % mboxslots)).map
      fun i => b.msg ((head + i) % mboxslots)

def Out.post? : Out → Option Word
  | .posted msg => some msg
  | _ => none

def Out.fetch? : Out → Option Word
  | .fetched msg => some msg
  | _ => none

def Port.posted (s : Port) : List Word := s.log.filterMap Out.post?

def Port.fetched (s : Port) : List Word := s.log.filterMap Out.fetch?

end Jos.Net
