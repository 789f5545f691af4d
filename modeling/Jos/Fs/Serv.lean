import Jos.Fs.Model

/-! `fs/serv.c`: the table of open files and the requests of the clients. -/

namespace Jos.Fs

open Kern Lib

def maxopen : Nat := 1024

instance : NeZero maxopen := ⟨by decide⟩

def maxpathlen : Nat := 1024

def oAccmode : Word := 3
def oCreat : Word := 0x100
def oTrunc : Word := 0x200
def oExcl : Word := 0x400

def devfile : Word := 0x66

/-- `o_fd` of entry `i` is the `i`th page from `FILEVA` on. -/
structure OpenFile where
  oFileid : Word
  oFile : Nat
  oMode : Word

structure Fd where
  fdDevId : Word
  fdOffset : Word
  fdOmode : Word
  fdFileId : Word

structure Opened where
  slot : Fin maxopen
  fileid : Word
  page : Nat

/-- The file server.  `fdPage` is the page mapped at `o_fd`, `fds` what the pages hold, and
pages from `nextPage` on are new.  `opens` are the opens that have succeeded; `maps` are the
mappings of their pages in clients, each with the index of its open. -/
structure Serv where
  cache : Cache
  opentab : Fin maxopen → OpenFile
  fdPage : Fin maxopen → Option Nat
  fds : Nat → Fd
  nextPage : Nat
  opens : List Opened
  maps : List (Nat × EnvIx)

abbrev Srv := StateT Serv Option

namespace Serv

variable (s : Serv)

def mappedPage (x : Nat × EnvIx) : Option Nat := (s.opens[x.1]?).map Opened.page

def clients (p : Nat) : Nat := s.maps.countP fun x => s.mappedPage x = some p

/-- `pp_ref` has 16 bits. -/
def pageref (i : Fin maxopen) : Nat :=
  match s.fdPage i with
  | none => 0
  | some p => (s.clients p + 1) % 65536

def allocFd (i : Fin maxopen) : Serv :=
  { s with
    cache := { s.cache with pages := s.cache.pages - 1 }
    fdPage := Function.update s.fdPage i (some s.nextPage)
    nextPage := s.nextPage + 1 }

def setFd (i : Fin maxopen) (g : Fd → Fd) : Serv :=
  match s.fdPage i with
  | none => s
  | some p => { s with fds := Function.update s.fds p (g (s.fds p)) }

def setEntry (i : Fin maxopen) (g : OpenFile → OpenFile) : Serv :=
  { s with opentab := Function.update s.opentab i (g (s.opentab i)) }

def renew (i : Fin maxopen) : Serv :=
  (s.setEntry i fun o => { o with oFileid := o.oFileid + BitVec.ofNat 32 maxopen }).setFd i
    fun _ => ⟨0, 0, 0, 0⟩

def openfileAllocFrom : List (Fin maxopen) → (Word × Option (Fin maxopen)) × Serv
  | [] => ((-eMaxOpen, none), s)
  | i :: is =>
    match s.pageref i with
    | 0 =>
      if s.cache.pages = 0 then ((-eNoMem, none), s)
      else
        let s := (s.allocFd i).renew i
        (((s.opentab i).oFileid, some i), s)
    | 1 =>
      let s := s.renew i
      (((s.opentab i).oFileid, some i), s)
    | _ => openfileAllocFrom is

@[irreducible] def openfileAlloc : (Word × Option (Fin maxopen)) × Serv := s.openfileAllocFrom (List.finRange maxopen)

/-- The environment that asks is not looked at. -/
def openfileLookup (_envid : EnvIx) (fileid : Word) : Option (Fin maxopen) :=
  let o : Fin maxopen := ⟨fileid.toNat % maxopen, Nat.mod_lt _ (by decide)⟩
  if s.pageref o ≤ 1 ∨ (s.opentab o).oFileid ≠ fileid then none else some o

def grant (i : Fin maxopen) (e : EnvIx) (takes : Bool) : Serv :=
  match s.fdPage i with
  | none => s
  | some p =>
    { s with
      opens := s.opens ++ [⟨i, (s.opentab i).oFileid, p⟩]
      maps := if takes then (s.opens.length, e) :: s.maps else s.maps }

end Serv

def fsCall {α : Type} (m : Act α) : Srv α := fun s =>
  (m.run s.cache).map fun x => (x.1, { s with cache := x.2 })

section Handlers

variable (envid : EnvIx) (page : Lib.Image)

def openPath (path : List Byte) (omode : Word) : Try Nat := do
  let f ←
    (if omode &&& oCreat ≠ 0 then do
      let r ← liftM (fileCreate path).run
      match r with
      | .ok f => return f
      | .error r => if omode &&& oExcl = 0 ∧ r = -eFileExists then fileOpen path else throw r
    else fileOpen path)
  (if omode &&& oTrunc ≠ 0 then fileSetSize f 0 else return ())
  fileOpen path

def reqPath : List Byte := ((List.range (maxpathlen - 1)).map page).takeWhile (· ≠ 0)

def openInto (o : Fin maxopen) : Srv (Word × Option (Fin maxopen)) := do
  let omode := page.word maxpathlen
  let r ← fsCall (openPath (reqPath page) omode).run
  match r with
  | .error r => return (r, none)
  | .ok f =>
    modify fun s => (s.setEntry o fun e => { e with oFile := f, oMode := omode }).setFd o fun fd =>
      { fd with
        fdFileId := (s.opentab o).oFileid
        fdOmode := omode &&& oAccmode
        fdDevId := devfile }
    return (0, some o)

def serveOpen : Srv (Word × Option (Fin maxopen)) := fun s =>
  match s.openfileAlloc with
  | ((r, none), s) => some ((r, none), s)
  | ((r, some o), s) => if r.slt 0 then some ((r, none), s) else (openInto page o).run s

def serveSetSize : Srv (Word × Lib.Image) := do
  let s ← get
  match s.openfileLookup envid (page.word 0) with
  | none => return (-eInval, page)
  | some o =>
    fsCall (fileSetSize (s.opentab o).oFile (page.word 4))
    return (0, page)

def clip (n : Word) : Word := if 4096 < n then 4096 else n

def advance (o : Fin maxopen) (n : Word) : Srv Unit :=
  modify fun s => s.setFd o fun fd => { fd with fdOffset := fd.fdOffset + n }

/-- The bytes go to the page of the request itself. -/
def serveRead : Srv (Word × Lib.Image) := do
  let s ← get
  match s.openfileLookup envid (page.word 0) with
  | none => return (-eInval, page)
  | some o =>
    match s.fdPage o with
    | none => failure
    | some p =>
      let fd := s.fds p
      let r ← fsCall (fileRead (s.opentab o).oFile (clip (page.word 4)) fd.fdOffset).run
      match r with
      | .error r => return (r, page)
      | .ok (n, bytes) =>
        let page := page.put 0 bytes.length fun i => bytes.getD i 0
        if n.slt 0 then
          return (n, page)
        else
          advance o n
          return (n, page)

/-- `req_buf` ends with the page, and the disk map begins there: what is asked for past it
comes from block 0. -/
def serveWrite : Srv (Word × Lib.Image) := do
  let s ← get
  match s.openfileLookup envid (page.word 0) with
  | none => return (-eInval, page)
  | some o =>
    match s.fdPage o with
    | none => failure
    | some p =>
      let fd := s.fds p
      let n := clip (page.word 4)
      fsCall (if 4088 < n then touch 0 else return ())
      let t ← get
      let buf := fun i => if 8 + i < 4096 then page (8 + i) else t.cache.mem (8 + i - 4096)
      let r ← fsCall (fileWrite (s.opentab o).oFile buf n fd.fdOffset).run
      match r with
      | .error r => return (r, page)
      | .ok n =>
        if n.slt 0 then
          return (n, page)
        else
          advance o n
          return (n, page)

def loadStr : Nat → Nat → Act (List Byte)
  | 0, _ => failure
  | n + 1, a => do
    let c ← load a
    if c == 0 then
      return []
    else
      let rest ← loadStr n (a + 1)
      return c :: rest

def serveStat : Srv (Word × Lib.Image) := do
  let s ← get
  match s.openfileLookup envid (page.word 0) with
  | none => return (-eInval, page)
  | some o =>
    let f := (s.opentab o).oFile
    let name ← fsCall (loadStr blksize f)
    let page := page.put 0 (name.length + 1) fun i => name.getD i 0
    let size ← fsCall (loadWord (fSize f))
    let type ← fsCall (loadWord (fType f))
    return (0, (page.putWord 128 size).putWord 132 (if type = ftypeDir then 1 else 0))

def serveFlush : Srv (Word × Lib.Image) := do
  let s ← get
  match s.openfileLookup envid (page.word 0) with
  | none => return (-eInval, page)
  | some o =>
    fsCall (fileFlush (s.opentab o).oFile)
    return (0, page)

def serveSync : Srv (Word × Lib.Image) := do
  fsCall fsSync
  return (0, page)

def handlers (req : Word) : Srv (Word × Lib.Image) :=
  if req = 2 then serveSetSize envid page
  else if req = 3 then serveRead envid page
  else if req = 4 then serveWrite envid page
  else if req = 5 then serveStat envid page
  else if req = 6 then serveFlush envid page
  else if req = 8 then serveSync page
  else return (-eInval, page)

/-- `serve` with a request at hand: the result, the entry whose `Fd` page goes with it, and the
page of the request as the client finds it. -/
def serveRequest (req : Word) : Srv (Word × Option (Fin maxopen) × Lib.Image) :=
  if req = 1 then do
    let (r, o) ← serveOpen page
    return (r, o, page)
  else do
    let (r, page) ← handlers envid page req
    return (r, none, page)

end Handlers

/-- What happens to the server: a request; a mapping of an `Fd` page made by a client from one
that there is, or removed; a store to such a page. -/
inductive ServEvent
  | request (envid : EnvIx) (req : Word) (page : Lib.Image) (takes : Bool)
  | share (x : Nat × EnvIx) (e : EnvIx)
  | unmap (x : Nat × EnvIx)
  | poke (x : Nat × EnvIx) (fd : Fd)

/-- There is no step where the server panics, or where a client uses a mapping it has not. -/
def servStep (s : Serv) : ServEvent → Option Serv
  | .request envid req page takes => do
    let ((_, o, _), s) ← (serveRequest envid page req).run s
    return match o with
      | some o => s.grant o envid takes
      | none => s
  | .share x e => if x ∈ s.maps then some { s with maps := (x.1, e) :: s.maps } else none
  | .unmap x => if x ∈ s.maps then some { s with maps := s.maps.erase x } else none
  | .poke x fd =>
    if x ∈ s.maps then
      (s.mappedPage x).map fun p => { s with fds := Function.update s.fds p fd }
    else none

def servStart (c : Cache) : Serv where
  cache := c
  opentab i := ⟨BitVec.ofNat 32 i, 0, if i.val = 0 then 1 else 0⟩
  fdPage _ := none
  fds _ := ⟨0, 0, 0, 0⟩
  nextPage := 0
  opens := []
  maps := []

end Jos.Fs
