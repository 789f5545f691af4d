import Jos.Kern.Stab
import Jos.Kern.UserMem

/-! `kern/kdebug.c`, `debuginfo_eip`: it looks an address up in the tables of the kernel or, below
`ULIM`, in tables that lie in the memory of the environment. -/

namespace Jos.Kern

def ustabdata : Word := 0x200000

def nFun : Word := 0x24
def nSline : Word := 0x44
def nSo : Word := 0x64
def nSol : Byte := 0x84
def nPsym : Byte := 0xa0

/-- The memory of the environment, and the ranges that `user_mem_check` accepts with `PTE_U`. -/
structure View where
  mem : Word → Byte
  check : Word → Word → Bool

def View.ofDir (m : Phys) (d : Nat) : View where
  mem a := (mmuLoad m d a 0).getD 0
  check va len := decide (userMemCheck m (some d) va len pteU = some none)

structure UserStabData where
  stabs : Word
  stabEnd : Word
  stabstr : Word
  stabstrEnd : Word

structure Eipdebuginfo where
  file : Option Word
  line : Word
  fnName : Option Word
  fnNamelen : Word
  fnAddr : Word
  fnNarg : Nat

namespace View

def byte (v : View) (va len a : Word) : OptionT Id Byte :=
  if a - va < len then pure (v.mem a) else failure

def word (v : View) (va len a : Word) : OptionT Id Word := do
  let b0 ← v.byte va len a
  let b1 ← v.byte va len (a + 1)
  let b2 ← v.byte va len (a + 2)
  let b3 ← v.byte va len (a + 3)
  pure (wordOfBytes [b0, b1, b2, b3] 0)

def stabData (v : View) : OptionT Id UserStabData := do
  let stabs ← v.word ustabdata 16 ustabdata
  let stabEnd ← v.word ustabdata 16 (ustabdata + 4)
  let stabstr ← v.word ustabdata 16 (ustabdata + 8)
  let stabstrEnd ← v.word ustabdata 16 (ustabdata + 12)
  pure ⟨stabs, stabEnd, stabstr, stabstrEnd⟩

def strfind (v : View) (va len s : Word) (c : Byte) : Nat → OptionT Id Word
  | 0 => failure
  | fuel + 1 => do
    let b ← v.byte va len s
    if b = 0 ∨ b = c then pure 0 else return (← strfind v va len (s + 1) c fuel) + 1

end View

/-- `stab_end - stabs`. C gives it no value if the pointers are not a whole number of entries
apart. -/
def UserStabData.count (t : UserStabData) : OptionT Id Int :=
  if 12 ∣ (t.stabEnd - t.stabs).toInt then pure ((t.stabEnd - t.stabs).toInt / 12) else failure

section Lookup

/-! The `n` entries may be read in `len` bytes from `stabs` on. -/

variable (v : View) (t : UserStabData) (len : Word) (n : Int)

def stabAt (i : Int) : OptionT Id Word :=
  if 0 ≤ i ∧ i < n then pure (t.stabs + BitVec.ofInt 32 (12 * i)) else failure

def typeAt (i : Int) : OptionT Id Byte := do v.byte t.stabs len ((← stabAt t n i) + 4)

def strxAt (i : Int) : OptionT Id Word := do v.word t.stabs len (← stabAt t n i)

def valueAt (i : Int) : OptionT Id Word := do v.word t.stabs len ((← stabAt t n i) + 8)

def descAt (i : Int) : OptionT Id Word := do
  let b0 ← v.byte t.stabs len ((← stabAt t n i) + 6)
  let b1 ← v.byte t.stabs len ((← stabAt t n i) + 7)
  pure (wordOfBytes [b0, b1] 0)

def stabSearch (type : Word) (fuel : Nat) (left right : Int) (addr : Word) : OptionT Id (Int × Int) :=
  stabBinsearch (typeAt v t len n) (valueAt v t len n) type fuel left right addr

def fileStab (lfile : Int) : Nat → Int → OptionT Id Int
  | 0, _ => failure
  | fuel + 1, lline => do
    if lline < lfile then pure lline
    else
      let type ← typeAt v t len n lline
      if type = nSol then pure lline
      else if type.setWidth 32 ≠ nSo then fileStab lfile fuel (lline - 1)
      else if (← valueAt v t len n lline) = 0 then fileStab lfile fuel (lline - 1)
      else pure lline

def countArgs (rfun : Int) : Nat → Int → OptionT Id Nat
  | 0, _ => failure
  | fuel + 1, lline => do
    if rfun ≤ lline then pure 0
    else if (← typeAt v t len n lline) ≠ nPsym then pure 0
    else return (← countArgs rfun fuel (lline + 1)) + 1

def lookupStabs (fuel : Nat) (addr : Word) (info : Eipdebuginfo) : OptionT Id (Word × Eipdebuginfo) := do
  let size := t.stabstrEnd - t.stabstr
  let (lfile, rfile) ← stabSearch v t len n nSo fuel 0 (n - 1) addr
  if lfile = 0 then pure (-1, info)
  else
    let (lfun, rfun) ← stabSearch v t len n nFun fuel lfile rfile addr
    let (info, addr, lline, rline) ←
      if lfun ≤ rfun then do
        let strx ← strxAt v t len n lfun
        let value ← valueAt v t len n lfun
        let fnName := if strx < size then some (t.stabstr + strx) else info.fnName
        pure ({ info with fnName := fnName, fnAddr := value }, addr - value, lfun, rfun)
      else pure ({ info with fnAddr := addr }, addr, lfile, rfile)
    let namelen ← match info.fnName with
      | some s => v.strfind t.stabstr size s 0x3a fuel
      | none => pure 9
    let info := { info with fnNamelen := namelen }
    let (lline, rline) ← stabSearch v t len n nSline fuel lline rline addr
    if rline < lline then pure (-1, info)
    else
      let info := { info with line := ← descAt v t len n lline }
      let lline ← fileStab v t len n lfile fuel lline
      let file ← if lfile ≤ lline then do
          let strx ← strxAt v t len n lline
          pure (if strx < size then some (t.stabstr + strx) else info.file)
        else pure info.file
      let narg ← if lfun < rfun then countArgs v t len n rfun fuel (lfun + 1) else pure 0
      pure (0, { info with file := file, fnNarg := narg })

end Lookup

/-- `none` stands for `"<unknown>"`. -/
def Eipdebuginfo.start (addr : Word) : Eipdebuginfo := ⟨none, 0, none, 9, addr, 0⟩

def lookupTables (fuel : Nat) (v : View) (t : UserStabData) (len addr : Word) : OptionT Id (Word × Eipdebuginfo) := do
  let info := Eipdebuginfo.start addr
  if t.stabstrEnd ≤ t.stabstr then pure (-1, info)
  else if (← v.byte t.stabstr (t.stabstrEnd - t.stabstr) (t.stabstrEnd - 1)) ≠ 0 then pure (-1, info)
  else lookupStabs v t len (← t.count) fuel addr info

/-- `debuginfo_eip`. There is no result if it reads outside of the range that was checked for a
table, or an entry that is not in the table. -/
def debuginfoEip (fuel : Nat) (v : View) (kern : UserStabData) (addr : Word) :
    OptionT Id (Word × Eipdebuginfo) := do
  if ulim ≤ addr then lookupTables fuel v kern (kern.stabEnd - kern.stabs) addr
  else if v.check ustabdata 16 = false then pure (-1, .start addr)
  else
    let t ← v.stabData
    let len := BitVec.ofInt 32 (← t.count)
    if v.check t.stabs len = false ∨ v.check t.stabstr (t.stabstrEnd - t.stabstr) = false then
      pure (-1, .start addr)
    else lookupTables fuel v t len addr

namespace View

def wordMem (v : View) (a : Word) : Word := wordOfBytes [v.mem a, v.mem (a + 1), v.mem (a + 2), v.mem (a + 3)] 0

def bounds (v : View) : UserStabData :=
  ⟨v.wordMem ustabdata, v.wordMem (ustabdata + 4), v.wordMem (ustabdata + 8), v.wordMem (ustabdata + 12)⟩

variable {v : View} {va len a : Word}

theorem byte_eq (h : a - va < len) : v.byte va len a = pure (v.mem a) := if_pos h

theorem word_eq (h0 : a - va < len) (h1 : a + 1 - va < len) (h2 : a + 2 - va < len) (h3 : a + 3 - va < len) :
    v.word va len a = pure (v.wordMem a) := by
  rw [word, byte_eq h0, pure_bind, byte_eq h1, pure_bind, byte_eq h2, pure_bind, byte_eq h3, pure_bind, wordMem]

theorem stabData_eq : v.stabData = pure v.bounds := by
  rw [stabData, word_eq (by decide) (by decide) (by decide) (by decide), pure_bind,
    word_eq (by decide) (by decide) (by decide) (by decide), pure_bind,
    word_eq (by decide) (by decide) (by decide) (by decide), pure_bind,
    word_eq (by decide) (by decide) (by decide) (by decide), pure_bind, bounds]

structure Reads (v : View) : Prop where
  stabs : v.check v.bounds.stabs (BitVec.ofInt 32 ((v.bounds.stabEnd - v.bounds.stabs).toInt / 12)) = true
  stabstr : v.check v.bounds.stabstr (v.bounds.stabstrEnd - v.bounds.stabstr) = true
  lt : v.bounds.stabstr < v.bounds.stabstrEnd
  last : v.mem (v.bounds.stabstrEnd - 1) = 0
  pos : 0 < (v.bounds.stabEnd - v.bounds.stabs).toInt

end View

section Lookup

variable {v : View} {t : UserStabData} {n : Int} {fuel : Nat} {addr type : Word}

theorem typeAt_middle (hn : 0 < n) (hlt : n ≤ 178956970) :
    typeAt v t (BitVec.ofInt 32 n) n (trueM 0 (n - 1)) = failure := by
  have hm : trueM 0 (n - 1) = (n - 1) / 2 := by rw [trueM, Int.zero_add, Int.tdiv_eq_ediv_of_nonneg (by omega)]
  have hfar : ¬ t.stabs + BitVec.ofInt 32 (12 * ((n - 1) / 2)) + 4 - t.stabs < BitVec.ofInt 32 n := by
    have hn' : n % ((2 ^ 32 : Nat) : Int) = n := Int.emod_eq_of_lt (by omega) (by omega)
    have hm' : 12 * ((n - 1) / 2) % ((2 ^ 32 : Nat) : Int) = 12 * ((n - 1) / 2) :=
      Int.emod_eq_of_lt (by omega) (by omega)
    rw [BitVec.add_assoc, BitVec.add_comm, BitVec.add_sub_cancel, BitVec.lt_def, BitVec.toNat_add,
      BitVec.toNat_ofInt, BitVec.toNat_ofInt, hn', hm', show (4 : Word).toNat = 4 from rfl, Nat.mod_eq_of_lt (by omega)]
    omega
  rw [typeAt, hm, stabAt, if_pos (by omega), pure_bind, View.byte, if_neg hfar]

theorem stabSearch_fails (hn : 0 < n) (hlt : n ≤ 178956970) :
    stabSearch v t (BitVec.ofInt 32 n) n type fuel 0 (n - 1) addr = failure := by
  have hscan : scanLeft (typeAt v t (BitVec.ofInt 32 n) n) type 0 (trueM 0 (n - 1) - 0 + 1).toNat = failure := by
    obtain ⟨k, hk⟩ : ∃ k : Nat, trueM 0 (n - 1) = k := Int.eq_ofNat_of_zero_le (trueM_mem (by omega)).1
    have hread := typeAt_middle (v := v) (t := t) hn hlt
    rw [hk] at hread ⊢
    rw [Int.sub_zero, Int.toNat_natCast_add_one, scanLeft, Int.zero_add, hread]
    rfl
  rw [stabSearch, stabBinsearch]
  cases fuel with
  | zero =>
    rw [search, if_pos (by dsimp only; omega)]
    rfl
  | succ fuel =>
    rw [search, if_pos (by dsimp only; omega), probe]
    dsimp only
    rw [hscan]
    rfl

theorem stabSearch_empty {len : Word} (hn : n ≤ 0) :
    stabSearch v t len n type fuel 0 (n - 1) addr = pure (0, -1) := by
  have hsearch : search (typeAt v t len n) (valueAt v t len n) type fuel ⟨0, n - 1, addr, 0, n - 1, false⟩ =
      pure ⟨0, n - 1, addr, 0, n - 1, false⟩ := by
    cases fuel with
    | zero => rw [search, if_neg (by dsimp only; omega)]
    | succ fuel => rw [search, if_neg (by dsimp only; omega)]
  rw [stabSearch, stabBinsearch, hsearch, pure_bind, if_pos rfl]
  rfl

theorem lookupTables_iff (hdiv : 12 ∣ (v.bounds.stabEnd - v.bounds.stabs).toInt)
    (hstabs : v.check v.bounds.stabs
      (BitVec.ofInt 32 ((v.bounds.stabEnd - v.bounds.stabs).toInt / 12)) = true)
    (hstr : v.check v.bounds.stabstr (v.bounds.stabstrEnd - v.bounds.stabstr) = true) :
    (∃ r, lookupTables fuel v v.bounds (BitVec.ofInt 32 ((v.bounds.stabEnd - v.bounds.stabs).toInt / 12)) addr =
      pure r) ↔ ¬ v.Reads := by
  rw [lookupTables]
  by_cases hle : v.bounds.stabstrEnd ≤ v.bounds.stabstr
  · rw [if_pos hle]
    exact iff_of_true ⟨_, rfl⟩ fun hr => BitVec.not_le.mpr hr.lt hle
  have hlt := BitVec.not_le.mp hle
  have hin : v.bounds.stabstrEnd - 1 - v.bounds.stabstr < v.bounds.stabstrEnd - v.bounds.stabstr := by bv_omega
  rw [if_neg hle, View.byte_eq hin, pure_bind]
  by_cases hlast : v.mem (v.bounds.stabstrEnd - 1) = 0
  · rw [if_neg (not_not.mpr hlast), UserStabData.count, if_pos hdiv, pure_bind, lookupStabs]
    have hmax := BitVec.toInt_lt (x := v.bounds.stabEnd - v.bounds.stabs)
    by_cases hpos : 0 < (v.bounds.stabEnd - v.bounds.stabs).toInt
    · rw [stabSearch_fails (by omega) (by omega)]
      refine iff_of_false ?_ (not_not.mpr ⟨hstabs, hstr, hlt, hlast, hpos⟩)
      rintro ⟨r, hr⟩
      cases hr
    · rw [stabSearch_empty (by omega)]
      exact iff_of_true ⟨(-1, .start addr), rfl⟩ fun hr => hpos hr.pos
  · rw [if_pos hlast]
    exact iff_of_true ⟨_, rfl⟩ fun hr => hlast hr.last

end Lookup

def stabPage : Phys where
  npages := 3
  mem p i :=
    if p = 0 ∧ i = 0 then 0x1007
    else if p = 1 ∧ i = 0x200 then 0x2007
    else if p = 2 then [0x200ffc, 0x201008, 0x200010, 0x200011].getD i 0
    else 0
  ppRef _ := 0
  ppLink _ := none
  pageFreeList := none

end Jos.Kern
