import Jos.User.PipeSpec

/-! `lib/spawn.c`, `init_stack`: the arguments of a child are laid out in a page at `UTEMP`. -/

namespace Jos.User

open Kern Lib

def stackPerm : Word := pteP ||| pteU ||| pteW

/-- A loop over memory ends before it has seen every address. -/
def addresses : Nat := 2 ^ 32

def utemp2ustack (addr : Word) : Word := addr + (ustacktop - pgsize) - utemp

namespace Act

variable (e : EnvIx)

section strings

def strlen : Nat → Word → Act Word
  | 0, _ => failure
  | fuel + 1, s => do
    if (← loadByte e s) = 0 then return 0 else return (← strlen fuel (s + 1)) + 1

def strcpy : Nat → Word → Word → Act PUnit
  | 0, _, _ => failure
  | fuel + 1, dst, src => do
    let b ← loadByte e src
    storeByte e dst b
    if b = 0 then return ⟨⟩ else strcpy fuel (dst + 1) (src + 1)

end strings

section stack

def countArgs (argv : Word) : Nat → Word → Word → Act (Word × Word)
  | 0, _, _ => failure
  | fuel + 1, argc, size => do
    let p ← loadWord e (argv + 4 * argc)
    if p = 0 then return (argc, size)
    else countArgs argv fuel (argc + 1) (size + ((← strlen e addresses p) + 1))

def storeArgs (argv argvStore : Word) : Nat → Word → Word → Act Word
  | 0, _, stringStore => return stringStore
  | k + 1, i, stringStore => do
    storeWord e (argvStore + 4 * i) (utemp2ustack stringStore)
    strcpy e addresses stringStore (← loadWord e (argv + 4 * i))
    let n ← strlen e addresses (← loadWord e (argv + 4 * i))
    storeArgs argv argvStore k (i + 1) (stringStore + (n + 1))

def stackErr (r : Word) : Act (Except Word Word) := do
  let _ ← sysPageUnmap e utemp
  return .error r

def giveStack (child esp : Word) : Act (Except Word Word) := do
  let r ← sysPageMap e utemp (envx child) (ustacktop - pgsize) stackPerm
  if r.slt 0 then stackErr e r
  else
    let r ← sysPageUnmap e utemp
    if r.slt 0 then stackErr e r else return .ok esp

def fillStack (argv argc argvStore stringStore : Word) : Act PUnit := do
  let stringStore ← storeArgs e argv argvStore argc.toNat 0 stringStore
  storeWord e (argvStore + 4 * argc) 0
  require (stringStore = utemp + pgsize)
  storeWord e (argvStore - 4) (utemp2ustack argvStore)
  storeWord e (argvStore - 8) argc

def initStack (child argv : Word) : Act (Except Word Word) := do
  let (argc, size) ← countArgs e argv addresses 0 0
  let stringStore := utemp + pgsize - size
  let argvStore := roundDown stringStore 4 - 4 * (argc + 1)
  if argvStore - 8 < utemp then return .error (-eNoMem)
  else
    let r ← sysPageAlloc e utemp stackPerm
    if r.slt 0 then return .error r
    else
      fillStack e argv argc argvStore stringStore
      giveStack e child (utemp2ustack (argvStore - 8))

end stack

end Act

end Jos.User
