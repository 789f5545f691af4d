import Jos.Kern.Trap
import Jos.Lib.Linked

/-! Start-up: `mem_init` and what it calls in `kern/pmap.c`, `env_init` and `env_create` in
`kern/env.c`, and `i386_init`. -/

namespace Jos.Kern

open Kernel

/-- The machine the kernel is started on.  The kernel is linked above `EXTPHYSMEM`, its stacks
are aligned to pages; more than 65535 pages fail `check_kern_pgdir`.  `mmio` are the device
windows the drivers ask `mmio_map_region` for. -/
structure Machine where
  npages : Nat
  npagesBasemem : Nat
  kernEnd : Word
  bootstack : Word
  percpuKstacks : Word
  mmio : List (Word × Word)
  cpus : Nat
  memory : Nat → Nat → Word
  e1000 : E1000
  npages_le : npages ≤ 65535
  basemem_le : npagesBasemem ≤ pgnum iophysmem
  kernEnd_ge : kernbase + extphysmem ≤ kernEnd
  bootstack_aligned : pgoff bootstack = 0
  percpuKstacks_aligned : pgoff percpuKstacks = 0
  mmio_le : ∀ r ∈ mmio, r.2.toNat ≤ 0x400000

def bootAlloc (npages : Nat) (nextfree n : Word) : Option (Word × Word) :=
  let next := roundUp (nextfree + n) pgsize
  if npages * 4096 < (next - kernbase).toNat then none else some (nextfree, next)

def paddr (kva : Word) : Option Word :=
  if kva < kernbase then none else some (kva - kernbase)

def pageInitStep (npagesBasemem numIohole numExtmemAlloc : Nat) (m : Phys) (i : Nat) : Phys :=
  if i = 0 ∨ i = pgnum mpentryPaddr then
    { m.setRef i 1 with ppLink := Function.update m.ppLink i none }
  else if npagesBasemem ≤ i ∧ i < npagesBasemem + numIohole + numExtmemAlloc then
    { m.setRef i 1 with ppLink := Function.update m.ppLink i none }
  else
    (m.setRef i 0).link i

def pageInit (npagesBasemem : Nat) (nextfree : Word) (m : Phys) : Phys :=
  let numExtmemAlloc := pgnum (nextfree - kernbase)
  let numIohole := pgnum (extphysmem - iophysmem)
  (List.range m.npages).foldl (pageInitStep npagesBasemem numIohole numExtmemAlloc)
    { m with pageFreeList := none }

def bootMapStep (pgdir : Nat) (va pa perm : Word) (m : Phys) (i : Nat) : Option Phys := do
  let off := BitVec.ofNat 32 i * pgsize
  match ← pgdirWalk m (some pgdir) (va + off) true with
  | (_, none) => none
  | (m, some (t, j)) => return m.store t j ((pa + off) ||| perm ||| pteP)

def bootMapRegion (m : Phys) (pgdir : Nat) (va size pa perm : Word) : Option Phys :=
  (List.range (size / pgsize).toNat).foldlM (bootMapStep pgdir va pa perm) m

def mmioMapRegion (kernPgdir : Nat) (s : Phys × Word) (r : Word × Word) : Option (Phys × Word) :=
  let size := roundUp r.2 pgsize
  let pa := roundDown r.1 pgsize
  if mmiolim ≤ size + s.2 then none
  else do
    let m ← bootMapRegion s.1 kernPgdir s.2 size pa (ptePCD ||| ptePWT ||| pteW)
    return (m, s.2 + size)

def relink (m : Phys) : List Nat → Phys
  | [] => { m with pageFreeList := none }
  | p :: l => (relink m l).link p

/-- `*pgdir_walk(pgdir, va, 0) = 0`. -/
def clearPte (pgdir : Nat) (m : Phys) (va : Word) : Option Phys := do
  match ← pgdirWalk m (some pgdir) va false with
  | (_, none) => none
  | (m, some (t, j)) => return m.store t j 0

/-- What `check_page` leaves behind: two reservations whose entries it clears again. -/
def checkPage (kernPgdir : Nat) (m : Phys) : Option (Phys × Word) := do
  let (m, base) ← mmioMapRegion kernPgdir (m, mmiobase) (0, 4097)
  let (m, base) ← mmioMapRegion kernPgdir (m, base) (0, 4096)
  let m ← [mmiobase, mmiobase + pgsize, mmiobase + 2 * pgsize].foldlM (clearPte kernPgdir) m
  return (m, base)

def kstack (i : Nat) : Word := kstacktop - BitVec.ofNat 32 i * (kstkgap + kstksize) - kstksize

def memInitMp (M : Machine) (kernPgdir : Nat) (m : Phys) : Option Phys :=
  (List.range ncpu).foldlM (fun m i =>
    bootMapRegion m kernPgdir (kstack i) kstksize
      (M.percpuKstacks + BitVec.ofNat 32 i * kstksize) pteW) m

/-- The regions of `mem_init`: `UPAGES`, `UENVS`, the boot stack, physical memory and the other
stacks. -/
def mapRegions (M : Machine) (kernPgdir : Nat) (pages envs : Word) (m : Phys) : Option Phys := do
  let m ← bootMapRegion m kernPgdir upages ptsize pages pteU
  let m ← bootMapRegion m kernPgdir uenvs ptsize envs pteU
  let m ← bootMapRegion m kernPgdir (kstacktop - kstksize) kstksize M.bootstack pteW
  let m ← bootMapRegion m kernPgdir kernbase (0xFFFFFFFF - kernbase) 0 pteW
  memInitMp M kernPgdir m

/-- `mem_init` up to the end of `page_init`: the physical memory, and the addresses of
`kern_pgdir`, `pages` and `envs`. -/
def memInitPages (M : Machine) : Option (Phys × Word × Word × Word) := do
  let nextfree := roundUp M.kernEnd pgsize
  let (kernPgdir, nextfree) ← bootAlloc M.npages nextfree pgsize
  let (pages, nextfree) ← bootAlloc M.npages nextfree (BitVec.ofNat 32 (M.npages * 8))
  let (envs, nextfree) ← bootAlloc M.npages nextfree (BitVec.ofNat 32 (124 * nenv))
  let d ← paddr kernPgdir
  let m : Phys :=
    { npages := M.npages, mem := M.memory, ppRef := fun _ => 0, ppLink := fun _ => none,
      pageFreeList := none }
  let m := (m.clear (pgnum d)).store (pgnum d) (pdx uvpt) (d ||| pteU ||| pteP)
  let (next, _) ← bootAlloc M.npages nextfree 0
  return (pageInit M.npagesBasemem next m, d, ← paddr pages, ← paddr envs)

/-- `mem_init`.  Its self-tests put the free list into another order, `order`. -/
def memInit (M : Machine) (order : List Nat) : Option (Phys × Nat × Word) := do
  let (m, d, pages, envs) ← memInitPages M
  let kernPgdir := pgnum d
  let (m, base) ← checkPage kernPgdir (relink m order)
  let m ← mapRegions M kernPgdir pages envs m
  return (m, kernPgdir, base)

def envZero : Env where
  envTf := .zero
  envLink := none
  envId := 0
  envParentId := 0
  envType := .user
  envStatus := .free
  envRuns := 0
  envCpunum := bootcpu
  envPgdir := none
  envPgfaultUpcall := 0
  envIpcRecving := false
  envIpcDstva := 0
  envIpcValue := 0
  envIpcFrom := 0
  envIpcPerm := 0

def envInitStep (k : Kernel) (e : EnvIx) : Kernel :=
  { k.setEnv e { k.envs e with envId := 0, envStatus := .free, envLink := k.envFreeList } with
    envFreeList := some e }

/-- From the last slot to the first, so that `envs[0]` is handed out first. -/
def envInit (k : Kernel) : Kernel := (List.finRange nenv).reverse.foldl envInitStep k

structure Segment where
  va : Word
  data : List Byte
  memsz : Nat
  data_le : data.length ≤ memsz
  below : va.toNat + memsz ≤ utop.toNat

structure Image where
  entry : Word
  segments : List Segment

def regionAllocStep (pgdir : Option Nat) (start : Word) (m : Phys) (i : Nat) : Option Phys := do
  match ← pageAlloc m false with
  | (_, none) => none
  | (m, some pp) =>
    let (m, r) ← pageInsert m pgdir pp (start + BitVec.ofNat 32 i * pgsize) (pteW ||| pteU)
    if r ≠ 0 then none else return m

def regionAlloc (pgdir : Option Nat) (va len : Word) (m : Phys) : Option Phys :=
  let start := roundDown va pgsize
  let stop := roundUp (va + len) pgsize
  (List.range ((stop - start) / pgsize).toNat).foldlM (regionAllocStep pgdir start) m

def loadSegment (d : Nat) (m : Phys) (s : Segment) : Option Phys := do
  let m ← regionAlloc (some d) s.va (BitVec.ofNat 32 s.memsz) m
  match copyOut d m (s.data ++ List.replicate (s.memsz - s.data.length) 0) s.va with
  | (_, true) => none
  | (m, false) => return m

def loadIcode (d : Nat) (img : Image) (m : Phys) : Option Phys := do
  if img.entry = 0 then none
  else
    let m ← img.segments.foldlM (loadSegment d) m
    regionAlloc (some d) (ustacktop - pgsize) pgsize m

def createTf (tf : Trapframe) (prog : Image × EnvType) : Trapframe :=
  let tf := { tf with tfEip := prog.1.entry }
  if prog.2 = .fs then { tf with tfEflags := tf.tfEflags ||| flIopl3 } else tf

def envCreate (k : Kernel) (prog : Image × EnvType) : Option Kernel := do
  match ← envAlloc k 0 with
  | (_, .error _) => none
  | (k, .ok e) =>
    let d ← (k.envs e).envPgdir
    let k := k.lcr3 bootcpu d
    let m ← loadIcode d prog.1 k.toPhys
    let k := { k with toPhys := m }
    return k.setEnv e { k.envs e with
      envTf := createTf (k.envs e).envTf prog, envType := prog.2 }

def kernStart (M : Machine) (m : Phys) (kernPgdir : Nat) : Kernel :=
  let cpu := fun c : Cpu =>
    { cpuStatus := if c.val < M.cpus then .started else .unused, cpuEnv := none, cr3 := kernPgdir }
  envInit
    { toPhys := m, kernPgdir, envs := fun _ => envZero, envFreeList := none, cpus := cpu,
      ticks := 0, e1000 := M.e1000, trace := [] }

def kernInit (M : Machine) (order : List Nat) : Option Kernel := do
  let (m, kernPgdir, base) ← memInit M order
  let (m, _) ← M.mmio.foldlM (mmioMapRegion kernPgdir) (m, base)
  return kernStart M m kernPgdir

def i386Init (M : Machine) (order : List Nat) (progs : List (Image × EnvType)) : Option Kernel := do
  progs.foldlM envCreate (← kernInit M order)

def Booted (M : Machine) (progs : List (Image × EnvType)) (k : Kernel) : Prop :=
  ∃ order m rest, memInitPages M = some (m, rest) ∧
    (∃ l, Lib.Chain m.ppLink m.pageFreeList l ∧ order.Perm l) ∧ i386Init M order progs = some k

end Jos.Kern
