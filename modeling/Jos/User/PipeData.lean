import Jos.Kern.State
import Jos.Lib.Ring
import Jos.Lib.Run

/-! `lib/pipe.c`, the data: `devpipe_read` in one environment and `devpipe_write` in another,
one access to the shared page at a time. -/

namespace Jos.User

open Kern Lib

def pipebufsiz : Nat := 32

structure Pipe where
  rpos : Word
  wpos : Word
  buf : Nat → Byte

/-- `pos % PIPEBUFSIZ` for a position of type `off_t`, where it is an index of the buffer. -/
def Pipe.index (pos : Word) : Option Nat :=
  if (pos.srem (BitVec.ofNat 32 pipebufsiz)).slt 0 then none
  else some (pos.srem (BitVec.ofNat 32 pipebufsiz)).toNat

inductive Reading
  | idle
  /-- `p->p_rpos == p->p_wpos`, with the operands that have been loaded. -/
  | test (n i : Nat) (r w : Option Word)
  | poll (n : Nat)
  | index (n i : Nat)
  | fetch (n i : Nat) (r : Word)
  | bump (n i : Nat)
  | save (n i : Nat) (r : Word)
  deriving DecidableEq

inductive Writing
  | idle
  /-- `p->p_wpos >= p->p_rpos + sizeof(p->p_buf)`. -/
  | test (bs : List Byte) (i : Nat) (w r : Option Word)
  | poll (bs : List Byte) (i : Nat)
  | index (bs : List Byte) (i : Nat)
  | store (bs : List Byte) (i : Nat) (w : Word)
  | bump (bs : List Byte) (i : Nat)
  | save (bs : List Byte) (i : Nat) (w : Word)
  deriving DecidableEq

/-- The descriptor of one end.  `devpipe_close` unmaps its own page, then the data page. -/
inductive Desc
  | opened
  | closing
  | closed
  deriving DecidableEq

def Desc.fdRefs : Desc → Nat
  | opened => 1
  | closing | closed => 0

def Desc.dataRefs : Desc → Nat
  | opened | closing => 1
  | closed => 0

/-- `_pipeisclosed`, its two reads of `pageref` as one step. -/
def pipeisclosedNow (own other : Desc) : Bool := own.fdRefs == own.dataRefs + other.dataRefs

/-- The two environments and what they share.  The lists are the bytes that were passed to
`devpipe_write`, that went through `p_wpos`, and that were stored into the reader's buffers;
`got` counts those of the current `devpipe_read`, and `returns` has one entry for each that
came back: its result and the bytes it stored. -/
structure Channel where
  pipe : Pipe
  reader : Reading
  writer : Writing
  rfd : Desc
  wfd : Desc
  supplied : List Byte
  written : List Byte
  stored : List Byte
  got : Nat
  returns : List (Nat × Nat)

/-- `first` says which operand of a test is loaded next. -/
inductive Access
  | read (n : Nat)
  | readStep (first : Bool)
  | write (bs : List Byte)
  | writeStep (first : Bool)
  | closeReader
  | closeWriter
  deriving DecidableEq

namespace Channel

variable (c : Channel)

def readReturn (v : Nat) : Channel :=
  { c with reader := .idle, got := 0, returns := c.returns ++ [(v, c.got)] }

def readNext (n i : Nat) : Channel :=
  if i < n then { c with reader := .test n i none none } else c.readReturn i

def readStep (first : Bool) : Option Channel :=
  match c.reader with
  | .idle => none
  | .test n i none none =>
    if first then some { c with reader := .test n i (some c.pipe.rpos) none }
    else some { c with reader := .test n i none (some c.pipe.wpos) }
  | .test n i (some r) none => some { c with reader := .test n i (some r) (some c.pipe.wpos) }
  | .test n i none (some w) => some { c with reader := .test n i (some c.pipe.rpos) (some w) }
  | .test n i (some r) (some w) =>
    if r = w then
      if 0 < i then some (c.readReturn i) else some { c with reader := .poll n }
    else some { c with reader := .index n i }
  | .poll n =>
    if pipeisclosedNow c.rfd c.wfd then some (c.readReturn 0)
    else some { c with reader := .test n 0 none none }
  | .index n i => some { c with reader := .fetch n i c.pipe.rpos }
  | .fetch n i r => do
    let j ← Pipe.index r
    return { c with reader := .bump n i, stored := c.stored ++ [c.pipe.buf j], got := c.got + 1 }
  | .bump n i => some { c with reader := .save n i c.pipe.rpos }
  | .save n i r => some ({ c with pipe := { c.pipe with rpos := r + 1 } }.readNext n (i + 1))

def writeNext (bs : List Byte) (i : Nat) : Channel :=
  if i < bs.length then { c with writer := .test bs i none none } else { c with writer := .idle }

def writeStep (first : Bool) : Option Channel :=
  match c.writer with
  | .idle => none
  | .test bs i none none =>
    if first then some { c with writer := .test bs i (some c.pipe.wpos) none }
    else some { c with writer := .test bs i none (some c.pipe.rpos) }
  | .test bs i (some w) none => some { c with writer := .test bs i (some w) (some c.pipe.rpos) }
  | .test bs i none (some r) => some { c with writer := .test bs i (some c.pipe.wpos) (some r) }
  | .test bs i (some w) (some r) =>
    if r + BitVec.ofNat 32 pipebufsiz ≤ w then some { c with writer := .poll bs i }
    else some { c with writer := .index bs i }
  | .poll bs i =>
    if pipeisclosedNow c.wfd c.rfd then some { c with writer := .idle }
    else some { c with writer := .test bs i none none }
  | .index bs i => some { c with writer := .store bs i c.pipe.wpos }
  | .store bs i w => do
    let j ← Pipe.index w
    let buf := Function.update c.pipe.buf j (bs.getD i 0)
    return { c with writer := .bump bs i, pipe := { c.pipe with buf } }
  | .bump bs i => some { c with writer := .save bs i c.pipe.wpos }
  | .save bs i w => some ({ c with
      pipe := { c.pipe with wpos := w + 1 }
      written := c.written ++ [bs.getD i 0] }.writeNext bs (i + 1))

def step (c : Channel) : Access → Option Channel
  | .read n => if c.reader = .idle ∧ c.rfd = .opened then some (c.readNext n 0) else none
  | .readStep first => c.readStep first
  | .write bs =>
    if c.writer = .idle ∧ c.wfd = .opened then
      some ({ c with supplied := c.supplied ++ bs }.writeNext bs 0)
    else none
  | .writeStep first => c.writeStep first
  | .closeReader =>
    if c.reader = .idle then
      match c.rfd with
      | .opened => some { c with rfd := .closing }
      | .closing => some { c with rfd := .closed }
      | .closed => none
    else none
  | .closeWriter =>
    if c.writer = .idle then
      match c.wfd with
      | .opened => some { c with wfd := .closing }
      | .closing => some { c with wfd := .closed }
      | .closed => none
    else none

end Channel

def Channel.start : Channel where
  pipe := ⟨0, 0, fun _ => 0⟩
  reader := .idle
  writer := .idle
  rfd := .opened
  wfd := .opened
  supplied := []
  written := []
  stored := []
  got := 0
  returns := []

end Jos.User
