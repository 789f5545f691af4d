import Jos.Kern.State
import Jos.Lib.Image
import Jos.Lib.Wp

/-! `fs/bc.c` and `fs/ide.c`: disk blocks mapped into the file server on their first use.
Address `a` of this module is `DISKMAP + a`, and byte `a` of the disk is in block
`a / BLKSIZE` on both sides. -/

namespace Jos.Fs

open Kern Lib

def blksize : Nat := 4096

def sectsize : Nat := 512

def blksects : Nat := blksize / sectsize

def disksize : Nat := 0xC0000000

def pteD : Word := 0x040

/-- The part of the server's address space that maps the disk, and the disk.  `pte` is the
server's `uvpt` and `mem` the bytes of its mapped pages. -/
structure Cache where
  pte : Nat → Word
  mem : Lib.Image
  disk : Lib.Image
  /-- Whether the pointers of these names have been set. -/
  super : Bool
  bitmap : Bool
  /-- How many more calls of `sys_page_alloc` the kernel will grant. -/
  pages : Nat
  history : List Lib.Image

abbrev Act := StateT Cache Option

section Ide

/-- So many sectors of `m'`, from `a'` on, moved to `a` in `m`. -/
def moveSectors (m m' : Lib.Image) (a a' : Nat) : Nat → Lib.Image
  | 0 => m
  | n + 1 => (moveSectors m m' a a' n).put (a + sectsize * n) sectsize
      fun i => m' (a' + sectsize * n + i)

/-- The address of a sector, as the controller's registers take it. -/
def lba (secno : Nat) : Nat := secno % 2 ^ 28

def ideRead (disk mem : Lib.Image) (secno dst nsecs : Nat) : Lib.Image :=
  moveSectors mem disk dst (sectsize * lba secno) nsecs

def ideWrite (disk mem : Lib.Image) (secno src nsecs : Nat) : Lib.Image :=
  moveSectors disk mem (sectsize * lba secno) src nsecs

end Ide

namespace Cache

variable (c : Cache)

def vaIsMapped (a : Nat) : Bool := c.pte (a / blksize) &&& pteP != 0

def vaIsDirty (a : Nat) : Bool := c.pte (a / blksize) &&& pteD != 0

def setPte (b : Nat) (perm : Word) : Cache := { c with pte := Function.update c.pte b perm }

/-- Bytes stored into a mapped block: the processor marks the page dirty. -/
def fill (b : Nat) (mem : Lib.Image) : Cache :=
  { c with mem, pte := Function.update c.pte b (c.pte b ||| pteD) }

end Cache

def sysPageAlloc (b : Nat) (perm : Word) : Act Unit := do
  let c ← get
  require (c.pages ≠ 0)
  modify fun c =>
    { c.setPte b perm with mem := c.mem.put (b * blksize) blksize fun _ => 0, pages := c.pages - 1 }

/-- `sys_page_map` of a page onto itself. -/
def sysPageMap (b : Nat) (perm : Word) : Act Unit := modify (·.setPte b perm)

def sNblocks : Nat := blksize + 4

def bitmapAddr : Nat := 2 * blksize

section Fault

/-! The handler runs on addresses of the disk map itself, so its faults nest.  `touch b` makes
sure that block `b` is mapped. -/

variable (touch : Nat → Act Unit)

def loadVia (a : Nat) : Act Word := do
  touch (a / blksize)
  return (← get).mem.word a

/-- `super && blockno >= super->s_nblocks`. -/
def pastEndVia (blockno : Nat) : Act Bool := do
  let c ← get
  if c.super then
    let nblocks ← loadVia touch sNblocks
    return decide (nblocks.toNat ≤ blockno)
  else
    return false

def blockIsFreeVia (blockno : Nat) : Act Bool := do
  let c ← get
  if c.super then
    let nblocks ← loadVia touch sNblocks
    if nblocks.toNat ≤ blockno then
      return false
    else
      let w ← loadVia touch (bitmapAddr + 4 * (blockno / 32))
      return w.getLsbD (blockno % 32)
  else
    return false

def bcPgfault (addr : Nat) : Act Unit := do
  let blockno := addr / blksize
  require (addr < disksize)
  let bad ← pastEndVia touch blockno
  require (bad = false)
  sysPageAlloc blockno (pteU ||| pteP ||| pteW)
  modify fun c =>
    c.fill blockno (ideRead c.disk c.mem (blockno * blksects) (blockno * blksize) blksects)
  let c ← get
  sysPageMap blockno (c.pte blockno &&& pteSyscall)
  let c ← get
  let free ← (if c.bitmap then blockIsFreeVia touch blockno else return false)
  require (free = false)

end Fault

/-- An access to block `b` with room for `n` faults inside one another. -/
def touchAt : Nat → Nat → Act Unit
  | 0, _ => failure
  | n + 1, b => do
    let c ← get
    if c.vaIsMapped (b * blksize) then
      return ()
    else
      bcPgfault (touchAt n) (b * blksize)

/-- A block, its bitmap block, and the bitmap block of that one. -/
def faultDepth : Nat := 4

def touch (b : Nat) : Act Unit := touchAt faultDepth b

def load (a : Nat) : Act Byte := do
  touch (a / blksize)
  return (← get).mem a

def loadWord (a : Nat) : Act Word := loadVia touch a

def blocksOf (a n : Nat) : List Nat :=
  if n = 0 then [] else List.range' (a / blksize) ((a + n - 1) / blksize - a / blksize + 1)

def store (a n : Nat) (f : Nat → Byte) : Act Unit := do
  (blocksOf a n).forM touch
  modify fun c => { c with
    mem := c.mem.put a n f
    pte := fun b => if b ∈ blocksOf a n then c.pte b ||| pteD else c.pte b }

def storeWord (a : Nat) (w : Word) : Act Unit := store a 4 (byteAt w)

def blockIsFree (blockno : Nat) : Act Bool := blockIsFreeVia touch blockno

def diskaddr (blockno : Nat) : Act Nat := do
  require (blockno ≠ 0)
  let bad ← pastEndVia touch blockno
  require (bad = false)
  return blockno * blksize

def flushBlock (addr : Nat) : Act Unit := do
  let blockno := addr / blksize
  require (addr < disksize)
  let addr := addr / blksize * blksize
  let c ← get
  if c.vaIsMapped addr && c.vaIsDirty addr then
    let disk := ideWrite c.disk c.mem (blockno * blksects) addr blksects
    modify fun c => { c with disk, history := disk :: c.history }
    sysPageMap blockno (c.pte blockno &&& pteSyscall)

/-- `super->s_nblocks`, where nobody has asked whether `super` is set. -/
def superNblocks : Act Word := do
  let c ← get
  require (c.super = true)
  loadWord sNblocks

def fsSyncFrom : Nat → Nat → Act Unit
  | 0, _ => return ()
  | n + 1, i => do
    let nblocks ← superNblocks
    if i < nblocks.toNat then
      let addr ← diskaddr i
      flushBlock addr
      fsSyncFrom n (i + 1)
    else
      return ()

def fsSync : Act Unit := do
  let nblocks ← superNblocks
  fsSyncFrom nblocks.toNat 1

end Jos.Fs
