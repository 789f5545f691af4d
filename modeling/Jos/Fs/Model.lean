import Jos.Fs.Cache

/-! `fs/fs.c`: the block bitmap, files and directories.  A `struct File *` is the address of
the structure in the disk map.  A negative result is an error of `Try`; what was done before
it stays done. -/

namespace Jos.Fs

open Kern Lib

def eNoDisk : Word := 9

def eMaxOpen : Word := 10

def eNotFound : Word := 11

def eBadPath : Word := 12

def eFileExists : Word := 13

def maxnamelen : Nat := 128

def ndirect : Nat := 10

def nindirect : Nat := blksize / 4

def maxfilesize : Nat := (ndirect + nindirect) * blksize

def ftypeReg : Word := 0

def ftypeDir : Word := 1

def filesize : Nat := 256

def blkfiles : Nat := blksize / filesize

def fSize (f : Nat) : Nat := f + 128

def fType (f : Nat) : Nat := f + 132

def fDirect (f i : Nat) : Nat := f + 136 + 4 * i

def fIndirect (f : Nat) : Nat := f + 176

def sRoot : Nat := blksize + 8

abbrev Try := ExceptT Word Act

section Blocks

def bitmapWord (blockno : Nat) : Nat := bitmapAddr + 4 * (blockno / 32)

def freeBlock (blockno : Nat) : Act Unit := do
  require (blockno ≠ 0)
  let w ← loadWord (bitmapWord blockno)
  storeWord (bitmapWord blockno) (w ||| 1#32 <<< (blockno % 32))

def allocBlockFrom : Nat → Nat → Try Nat
  | 0, _ => throw (-eNoDisk)
  | n + 1, blockno => do
    let nblocks ← superNblocks
    if blockno < nblocks.toNat then
      let free ← blockIsFree blockno
      if free then
        let w ← loadWord (bitmapWord blockno)
        storeWord (bitmapWord blockno) (w ^^^ 1#32 <<< (blockno % 32))
        flushBlock bitmapAddr
        return blockno
      else
        allocBlockFrom n (blockno + 1)
    else
      throw (-eNoDisk)

def allocBlock : Try Nat := do
  let nblocks ← superNblocks
  allocBlockFrom nblocks.toNat 0

def allocInto (ptr : Nat) : Try Unit := do
  let ret ← allocBlock
  storeWord ptr (BitVec.ofNat 32 ret)
  let addr ← diskaddr ret
  store addr blksize fun _ => 0
  let addr ← diskaddr ret
  flushBlock addr

def allocIfNull (ptr : Nat) : Try Unit := do
  let bno ← loadWord ptr
  if bno = 0 then allocInto ptr else return ()

end Blocks

section Files

/-- The address of the pointer to block `filebno` of a file.  The bound lets `filebno` be one
past the last entry of the indirect block. -/
def fileBlockWalk (f filebno : Nat) (alloc : Bool) : Try Nat := do
  if nindirect + ndirect < filebno then
    throw (-eInval)
  else if filebno < ndirect then
    return fDirect f filebno
  else
    let ind ← loadWord (fIndirect f)
    if alloc = false ∧ ind = 0 then
      throw (-eNotFound)
    else
      allocIfNull (fIndirect f)
      let ind ← loadWord (fIndirect f)
      let addr ← diskaddr ind.toNat
      return addr + 4 * (filebno - ndirect)

def fileGetBlock (f filebno : Nat) : Try Nat := do
  let ptr ← fileBlockWalk f filebno true
  allocIfNull ptr
  let bno ← loadWord ptr
  diskaddr bno.toNat

def fileFreeBlock (f filebno : Nat) : Try Unit := do
  let ptr ← fileBlockWalk f filebno false
  let bno ← loadWord ptr
  if bno ≠ 0 then
    freeBlock bno.toNat
    storeWord ptr 0
  else
    return ()

def sizeBlocks (size : Word) : Word := (size + 4095).sdiv 4096

/-- The blocks freed one after the other; a failure is only reported. -/
def freeBlocks (f : Nat) : List Nat → Act Unit
  | [] => return ()
  | bno :: bnos => do
    let _ ← (fileFreeBlock f bno).run
    freeBlocks f bnos

def freeIndirect (f : Nat) : Act Unit := do
  let ind ← loadWord (fIndirect f)
  if ind ≠ 0 then
    freeBlock ind.toNat
    storeWord (fIndirect f) 0
  else
    return ()

def fileTruncateBlocks (f : Nat) (newsize : Word) : Act Unit := do
  let size ← loadWord (fSize f)
  let old := (sizeBlocks size).toNat
  let new := (sizeBlocks newsize).toNat
  freeBlocks f (List.range' new (old - new))
  if new ≤ ndirect then freeIndirect f else return ()

/-- Always returns 0. -/
def fileSetSize (f : Nat) (newsize : Word) : Act Unit := do
  let size ← loadWord (fSize f)
  (if newsize.slt size then fileTruncateBlocks f newsize else return ())
  storeWord (fSize f) newsize
  flushBlock f

def flushPointer (b : Word) : Act Unit :=
  if b ≠ 0 then do
    let addr ← diskaddr b.toNat
    flushBlock addr
  else
    return ()

def flushFileBlock (f i : Nat) : Act Unit := do
  let r ← (fileBlockWalk f i false).run
  match r with
  | .ok ptr =>
    let b ← loadWord ptr
    flushPointer b
  | .error _ => return ()

def flushFileBlocks (f : Nat) : List Nat → Act Unit
  | [] => return ()
  | i :: is => do
    flushFileBlock f i
    flushFileBlocks f is

def fileFlush (f : Nat) : Act Unit := do
  let size ← loadWord (fSize f)
  flushFileBlocks f (List.range (sizeBlocks size).toInt.toNat)
  flushBlock f
  let ind ← loadWord (fIndirect f)
  flushPointer ind

/-- `MIN(BLKSIZE - pos % BLKSIZE, stop - pos)`, compared without signs. -/
def chunk (pos stop : Word) : Word :=
  if 4096 - pos.srem 4096 ≤ stop - pos then 4096 - pos.srem 4096 else stop - pos

/-- `blk + pos % BLKSIZE`, where the remainder has the sign of `pos`. -/
def inBlock (blk : Nat) (pos : Word) : Nat := ((blk : Int) + (pos.srem 4096).toInt).toNat

def loadBytes (a n : Nat) : Act (List Byte) := do
  (blocksOf a n).forM touch
  let c ← get
  return (List.range n).map fun i => c.mem (a + i)

def fileReadFrom (f : Nat) (stop : Word) : Nat → Word → Try (List Byte)
  | 0, _ => return []
  | n + 1, pos => do
    if pos < stop then
      let blk ← fileGetBlock f (pos.sdiv 4096).toNat
      let bn := chunk pos stop
      let bytes ← loadBytes (inBlock blk pos) bn.toNat
      let rest ← fileReadFrom f stop n (pos + bn)
      return bytes ++ rest
    else
      return []

def fileRead (f : Nat) (count offset : Word) : Try (Word × List Byte) := do
  let size ← loadWord (fSize f)
  if size.sle offset then
    return (0, [])
  else
    let count := if count ≤ size - offset then count else size - offset
    let bytes ← fileReadFrom f (offset + count) count.toNat offset
    return (count, bytes)

def fileWriteFrom (f : Nat) (buf : Nat → Byte) (stop : Word) : Nat → Word → Nat → Try Unit
  | 0, _, _ => return ()
  | n + 1, pos, i => do
    if pos < stop then
      let blk ← fileGetBlock f (pos.sdiv 4096).toNat
      let bn := chunk pos stop
      store (inBlock blk pos) bn.toNat fun j => buf (i + j)
      fileWriteFrom f buf stop n (pos + bn) (i + bn.toNat)
    else
      return ()

def fileWrite (f : Nat) (buf : Nat → Byte) (count offset : Word) : Try Word := do
  let size ← loadWord (fSize f)
  (if size < offset + count then fileSetSize f (offset + count) else return ())
  fileWriteFrom f buf (offset + count) count.toNat offset 0
  return count

end Files

section Directories

/-- `strcmp(a, name) == 0`. -/
def strEq (a : Nat) : List Byte → Act Bool
  | [] => do
    let c ← load a
    return c == 0
  | x :: xs => do
    let c ← load a
    if c == x then strEq (a + 1) xs else return false

def scanBlock (p : Nat → Act Bool) (blk : Nat) : List Nat → Act (Option Nat)
  | [] => return none
  | j :: js => do
    let found ← p (blk + filesize * j)
    if found then return some (blk + filesize * j) else scanBlock p blk js

def scanDir (p : Nat → Act Bool) (dir : Nat) : List Nat → Try (Option Nat)
  | [] => return none
  | i :: is => do
    let blk ← fileGetBlock dir i
    let r ← scanBlock p blk (List.range blkfiles)
    match r with
    | some f => return some f
    | none => scanDir p dir is

def dirBlocks (dir : Nat) : Act Nat := do
  let size ← loadWord (fSize dir)
  require (size.toNat % blksize = 0)
  return (size.sdiv 4096).toNat

def dirLookup (dir : Nat) (name : List Byte) : Try Nat := do
  let nblock ← dirBlocks dir
  let r ← scanDir (strEq · name) dir (List.range nblock)
  match r with
  | some f => return f
  | none => throw (-eNotFound)

def dirAllocFile (dir : Nat) : Try Nat := do
  let nblock ← dirBlocks dir
  let r ← scanDir (strEq · []) dir (List.range nblock)
  match r with
  | some f => return f
  | none =>
    let size ← loadWord (fSize dir)
    storeWord (fSize dir) (size + 4096)
    fileGetBlock dir nblock

/-- What `walk_path` comes back with: the file, or the directory and the name that is missing
in it, or an error with `*pdir` left null. -/
inductive Walk
  | found (f : Nat)
  | missing (dir : Nat) (name : List Byte)
  | failed (r : Word)
  deriving DecidableEq

def slashChar : Byte := 0x2F

def skipSlash : List Byte → List Byte
  | [] => []
  | c :: p => if c = slashChar then skipSlash p else c :: p

def walkFrom : Nat → Nat → List Byte → Act Walk
  | 0, f, _ => return .found f
  | n + 1, f, path =>
    if path = [] then
      return .found f
    else
      let name := path.takeWhile (· ≠ slashChar)
      let rest := skipSlash (path.dropWhile (· ≠ slashChar))
      if maxnamelen ≤ name.length then
        return .failed (-eBadPath)
      else do
        let type ← loadWord (fType f)
        if type ≠ ftypeDir then
          return .failed (-eNotFound)
        else
          let r ← (dirLookup f name).run
          match r with
          | .ok g => walkFrom n g rest
          | .error r =>
            if r = -eNotFound ∧ rest = [] then return .missing f name else return .failed r

def walkPath (path : List Byte) : Act Walk :=
  let path := skipSlash path
  walkFrom path.length sRoot path

def strcpy (a : Nat) (name : List Byte) : Act Unit :=
  store a (name.length + 1) fun i => name.getD i 0

/-- Puts the name into the new entry and leaves its other fields as they are. -/
def fileCreate (path : List Byte) : Try Nat := do
  let r ← walkPath path
  match r with
  | .found _ => throw (-eFileExists)
  | .failed r => throw r
  | .missing dir name =>
    let f ← dirAllocFile dir
    strcpy f name
    fileFlush dir
    return f

def fileOpen (path : List Byte) : Try Nat := do
  let r ← walkPath path
  match r with
  | .found f => return f
  | .failed r => throw r
  | .missing _ _ => throw (-eNotFound)

end Directories

section Init

def fsMagic : Word := 0x4A0530AE

def checkSuper : Act Unit := do
  let magic ← loadWord blksize
  require (magic = fsMagic)
  let nblocks ← superNblocks
  require (nblocks.toNat ≤ disksize / blksize)

def checkBitmapFrom : Nat → Nat → Act Unit
  | 0, _ => return ()
  | n + 1, i => do
    let nblocks ← superNblocks
    if i * (8 * blksize) < nblocks.toNat then
      let free ← blockIsFree (2 + i)
      require (free = false)
      checkBitmapFrom n (i + 1)
    else
      return ()

def checkBitmap : Act Unit := do
  let nblocks ← superNblocks
  checkBitmapFrom nblocks.toNat 0
  let free ← blockIsFree 0
  require (free = false)
  let free ← blockIsFree 1
  require (free = false)

/-- `fs_init` without the drill of `check_bc`. -/
def fsInit : Act Unit := do
  let _ ← load blksize
  let _ ← diskaddr 1
  modify fun c => { c with super := true }
  checkSuper
  let _ ← diskaddr 2
  modify fun c => { c with bitmap := true }
  checkBitmap

end Init

end Jos.Fs
