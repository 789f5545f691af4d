import Jos.User.Arena

/-! The main loop of the network server, `net/serv.c`, with the threads it makes
(`net/lwip/jos/arch/thread.c`), its request buffers and its heap.  The threads run one at a time
and hand over only in `thread_yield`; `ipc_recv` stops them all. -/

namespace Jos.Net

open Kern User

def queueSize : Nat := 20
def reqva : Word := 0x0ffff000 - 20 * pgsize

def nsreqInput : Word := 10
def nsreqTimer : Word := 12

def stArgsSize : Word := 12

def threadContextSize : Word := 104
def stackSize : Word := pgsize

abbrev Buse := Fin queueSize → Bool

def bufferVa (i : Nat) : Word := reqva + BitVec.ofNat 32 i * pgsize

/-- `none` is the panic "NS: buffer overflow". -/
def getBuffer (buse : Buse) : Option (Word × Buse) :=
  ((List.finRange queueSize).find? fun i => !buse i).map fun i =>
    (bufferVa i.val, Function.update buse i true)

def putBuffer (buse : Buse) (va : Word) : Buse :=
  fun i => if i.val = ((va - reqva) / pgsize).toNat then false else buse i

structure StArgs where
  reqno : Word
  whom : Word
  req : Word
  deriving DecidableEq

/-- A thread in `serve_thread`: where its arguments, its context and its stack are. -/
structure Worker where
  args : Word
  st : StArgs
  tc : Word
  stack : Word
  deriving DecidableEq

inductive Phase
  | top
  | receiving (va : Word)
  | timing (va : Word)
  | serving (st : StArgs)
  | creating (args : Word) (st : StArgs)
  | stacking (args : Word) (st : StArgs) (tc : Word)

namespace Phase

def yields : Phase → Bool
  | .top | .timing _ => true
  | _ => false

def buffers : Phase → List Word
  | .top => []
  | .receiving va | .timing va => [va]
  | .serving st | .creating _ st | .stacking _ st _ => [st.req]

end Phase

/-- `killQueue` holds the last thread that has ended, `lost` the arguments of threads that could
not be made, `other` the blocks of the rest of the server. -/
structure Server where
  heap : Heap
  buse : Buse
  phase : Phase
  workers : List Worker
  killQueue : Option Worker
  lost : List Block
  other : List Block
  timerEnvid : Word
  ipcPerm : Word
  maxTid : Word

structure Message where
  reqno : Word
  whom : Word
  page : Option (Word × (Nat → Byte))

namespace Server

variable (s : Server)

/-- The kernel maps the page of the message; without one the permission of the last page stays. -/
def deliver (va : Word) (m : Message) : Server :=
  match m.page with
  | none => s
  | some (perm, bytes) =>
    { s with
      heap := ⟨⟨Function.update s.heap.pte (pgnum va) (some perm),
        fun x => if x / 4096 = pgnum va then bytes (x % 4096) else s.heap.mem x⟩, s.heap.mptr⟩
      ipcPerm := perm }

def receive (va : Word) (m : Message) : Server :=
  let s := s.deliver va m
  if m.reqno = nsreqTimer then
    if m.whom = s.timerEnvid then { s with phase := .timing va }
    else { s with buse := putBuffer s.buse va, phase := .top }
  else if s.ipcPerm &&& pteP = 0 then { s with phase := .top }
  else { s with phase := .serving ⟨m.reqno, m.whom, va⟩ }

/-- The next `malloc` of the main thread, and what follows up to the one after it.  `none` is a
panic. -/
def proceed (avail : Nat) : Option Server :=
  match s.phase with
  | .serving st => do
    let (v, h) ← malloc avail s.heap stArgsSize
    if v = 0 then none else return { s with heap := h, phase := .creating v st }
  | .creating args st => do
    let (v, h) ← malloc avail s.heap threadContextSize
    if v = 0 then return { s with heap := h, phase := .top, lost := (args, stArgsSize) :: s.lost }
    else if s.maxTid + 1 = BitVec.allOnes 32 then none
    else return { s with heap := h, phase := .stacking args st v, maxTid := s.maxTid + 1 }
  | .stacking args st tc => do
    let (v, h) ← malloc avail s.heap stackSize
    if v = 0 then
      let sp ← free h.toSpace tc
      return { s with heap := ⟨sp, h.mptr⟩, phase := .top, lost := (args, stArgsSize) :: s.lost }
    else return { s with heap := h, phase := .top, workers := ⟨args, st, tc, v⟩ :: s.workers }
  | _ => none

def threadClean (sp : Space) : Option Worker → Option Space
  | none => some sp
  | some w => do free (← free sp w.stack) w.tc

def finish (w : Worker) : Option Server := do
  let sp ← free (s.heap.sysPageUnmap w.st.req) w.args
  let sp ← threadClean sp s.killQueue
  return { s with
    heap := ⟨sp, s.heap.mptr⟩, buse := putBuffer s.buse w.st.req,
    workers := s.workers.erase w, killQueue := some w }

end Server

inductive ServerEvent
  | listen
  | message (m : Message)
  | timed
  | proceed (avail : Nat)
  | finish (w : Worker)
  | malloc (avail : Nat) (n : Word)
  | free (b : Block)
  | write (va : Word) (x : Byte)

def serverStep (s : Server) : ServerEvent → Option Server
  | .listen =>
    match s.phase with
    | .top => (getBuffer s.buse).map fun (va, buse) => { s with buse := buse, phase := .receiving va }
    | _ => none
  | .message m =>
    match s.phase with
    | .receiving va => some (s.receive va m)
    | _ => none
  | .timed =>
    match s.phase with
    | .timing va => some { s with buse := putBuffer s.buse va, phase := .top }
    | _ => none
  | .proceed avail => s.proceed avail
  | .finish w => if s.phase.yields ∧ w ∈ s.workers then s.finish w else none
  | .malloc avail n =>
    if s.phase.yields then
      (malloc avail s.heap n).map fun (v, h) =>
        { s with heap := h, other := if v = 0 then s.other else (v, n) :: s.other }
    else none
  | .free b =>
    if s.phase.yields then
      (free s.heap.toSpace b.1).map fun sp =>
        { s with heap := ⟨sp, s.heap.mptr⟩, other := s.other.erase b }
    else none
  | .write va x =>
    if s.phase.yields then
      (s.heap.store va x).map fun sp => { s with heap := ⟨sp, s.heap.mptr⟩ }
    else none

def serverStart (sp : Space) (timerEnvid : Word) : Server where
  heap := ⟨sp, 0⟩
  buse _ := false
  phase := .top
  workers := []
  killQueue := none
  lost := []
  other := []
  timerEnvid := timerEnvid
  ipcPerm := 0
  maxTid := 0

end Jos.Net
