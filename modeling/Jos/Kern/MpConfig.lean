import Jos.Kern.State

/-! `kern/mpconfig.c`: the table of processors that the firmware leaves in memory, and what
`mp_init` makes of it. -/

namespace Jos.Kern

abbrev MpTable := Nat → Byte

namespace MpTable

def half (t : MpTable) (off : Nat) : Nat := (t off).toNat + 256 * (t (off + 1)).toNat

def length (t : MpTable) : Nat := t.half 4
def entry (t : MpTable) : Nat := t.half 34
def lapicaddr (t : MpTable) : Nat := t.half 36 + 65536 * t.half 38
def xlength (t : MpTable) : Nat := t.half 40

def sum (t : MpTable) (off : Nat) : Nat → Byte
  | 0 => 0
  | n + 1 => sum t off n + t (off + n)

end MpTable

structure MpFloating where
  physaddr : Nat
  type : Byte

def mpconfig (mem : Nat → Byte) (mp : Option MpFloating) : Option MpTable := do
  let mp ← mp
  if mp.physaddr = 0 ∨ mp.type ≠ 0 then none
  else
    let t : MpTable := fun i => mem (mp.physaddr + i)
    if (List.range 4).map t ≠ [0x50, 0x43, 0x4D, 0x50] then none
    else if t.sum 0 t.length ≠ 0 then none
    else if t 6 ≠ 1 ∧ t 6 ≠ 4 then none
    else if t.sum t.length t.xlength + t 42 ≠ 0 then none
    else some t

/-- The variables that `mp_init` sets; `bootcpu` is an index into `cpus`, and `reads` are the
places of the table that have been looked at. -/
structure Mp where
  ncpu : Nat
  cpuId : Nat → Byte
  started : Nat → Bool
  bootcpu : Nat
  ismp : Bool
  lapicaddr : Nat
  reads : List Nat

def Mp.start : Mp := ⟨0, fun _ => 0, fun _ => false, 0, false, 0, []⟩

/-- `case MPPROC` -/
def Mp.proc (t : MpTable) (p : Nat) (s : Mp) : Mp :=
  let s := { s with reads := (p + 3) :: s.reads }
  let s := if t (p + 3) &&& 2 ≠ 0 then { s with bootcpu := s.ncpu } else s
  if s.ncpu < Kern.ncpu then
    { s with cpuId := Function.update s.cpuId s.ncpu (BitVec.ofNat 8 s.ncpu), ncpu := s.ncpu + 1 }
  else { s with reads := (p + 1) :: s.reads }

def Mp.walk (t : MpTable) : Nat → Nat → Mp → Mp
  | 0, _, s => s
  | n + 1, p, s =>
    let s := { s with reads := p :: s.reads }
    if t p = 0 then Mp.walk t n (p + 20) (s.proc t p)
    else if t p = 1 ∨ t p = 2 ∨ t p = 3 ∨ t p = 4 then Mp.walk t n (p + 8) s
    else { s with ismp := false }

def mpInit (mem : Nat → Byte) (mp : Option MpFloating) : Mp :=
  match mpconfig mem mp with
  | none => .start
  | some t =>
    let s := Mp.walk t t.entry 44
      { Mp.start with ismp := true, lapicaddr := t.lapicaddr, reads := [34, 35, 36, 37, 38, 39] }
    let s := { s with started := Function.update s.started s.bootcpu true }
    if s.ismp then s else { s with ncpu := 1, lapicaddr := 0 }

structure Mp.Sane (len : Nat) (s : Mp) : Prop where
  pos : 1 ≤ s.ncpu
  le : s.ncpu ≤ Kern.ncpu
  cpuId : ∀ i, i < s.ncpu → s.cpuId i = BitVec.ofNat 8 i
  bootcpu : s.bootcpu < s.ncpu
  reads : ∀ a ∈ s.reads, a < len

inductive MpKind
  | proc (boot : Bool)
  | device
  | unknown

def MpTable.kindAt (t : MpTable) (p : Nat) : MpKind :=
  if t p = 0 then .proc (decide (t (p + 3) &&& 2 ≠ 0))
  else if t p = 1 ∨ t p = 2 ∨ t p = 3 ∨ t p = 4 then .device
  else .unknown

def MpTable.entries (t : MpTable) : Nat → Nat → List (Nat × MpKind)
  | 0, _ => []
  | n + 1, p =>
    match t.kindAt p with
    | .proc boot => (p, .proc boot) :: t.entries n (p + 20)
    | .device => (p, .device) :: t.entries n (p + 8)
    | .unknown => [(p, .unknown)]

def bootFlags : List (Nat × MpKind) → List Bool
  | [] => []
  | (_, .proc boot) :: es => boot :: bootFlags es
  | (_, .device) :: es | (_, .unknown) :: es => bootFlags es

def lastRead : Nat × MpKind → Nat
  | (p, .proc _) => p + 3
  | (p, .device) | (p, .unknown) => p

def allKnown : List (Nat × MpKind) → Bool
  | [] => true
  | (_, .unknown) :: _ => false
  | (_, .proc _) :: es | (_, .device) :: es => allKnown es

/-- The header and the entries are inside the table, there is a processor (or an entry of
unknown type, after which the others do not count), and no processor that is not kept has the
boot flag. -/
structure MpTable.Sound (t : MpTable) : Prop where
  header : 40 ≤ t.length
  entries : ∀ x ∈ t.entries t.entry 44, lastRead x < t.length
  procs : allKnown (t.entries t.entry 44) = true → bootFlags (t.entries t.entry 44) ≠ []
  boot : ∀ i : Nat, (bootFlags (t.entries t.entry 44))[i]? = some true →
    i < if allKnown (t.entries t.entry 44) then ncpu else 1

structure Mp.Seen (bs : List Bool) (s : Mp) : Prop where
  ncpu : s.ncpu = min bs.length Kern.ncpu
  cpuId : ∀ i, i < max s.ncpu 1 → s.cpuId i = BitVec.ofNat 8 i
  bootcpu : ∀ k, 1 ≤ k → k ≤ Kern.ncpu →
    (s.bootcpu < k ↔ ∀ i : Nat, bs[i]? = some true → i < k)

variable {t : MpTable} {s : Mp} {bs : List Bool} {n p len : Nat}

theorem getElem?_snoc_iff {b : Bool} {i : Nat} :
    (bs ++ [b])[i]? = some true ↔ bs[i]? = some true ∨ i = bs.length ∧ b = true := by
  rcases Nat.lt_trichotomy i bs.length with hi | rfl | hi
  · rw [List.getElem?_append_left hi]
    exact ⟨.inl, fun h => h.resolve_right fun h => Nat.ne_of_lt hi h.1⟩
  · simp
  · rw [List.getElem?_eq_none (by rw [List.length_append, List.length_singleton]; omega),
      List.getElem?_eq_none (Nat.le_of_lt hi)]
    simp [Nat.ne_of_gt hi]

theorem Mp.Seen.boot {b : Bool} (h : s.Seen bs) {boot : Nat}
    (hboot : boot = if b then s.ncpu else s.bootcpu) (k : Nat) (h1 : 1 ≤ k) (hk : k ≤ Kern.ncpu) :
    boot < k ↔ ∀ i : Nat, (bs ++ [b])[i]? = some true → i < k := by
  subst hboot
  cases b with
  | false =>
    rw [if_neg Bool.false_ne_true, h.bootcpu k h1 hk]
    simp only [getElem?_snoc_iff, Bool.false_eq_true, and_false, or_false]
  | true =>
    rw [if_pos rfl, h.ncpu]
    constructor
    · intro hlt i hi
      rcases getElem?_snoc_iff.mp hi with hi | ⟨rfl, -⟩
      · have := (List.getElem?_eq_some_iff.mp hi).1
        omega
      · omega
    · intro hall
      have := hall bs.length (getElem?_snoc_iff.mpr (.inr ⟨rfl, rfl⟩))
      omega

theorem Mp.proc_bootcpu (t : MpTable) (p : Nat) (s : Mp) : (s.proc t p).bootcpu =
    if decide (t (p + 3) &&& 2 ≠ 0) then s.ncpu else s.bootcpu := by
  rw [Mp.proc]
  dsimp only
  split_ifs <;> simp_all

theorem Mp.proc_cpus (t : MpTable) (p : Nat) (s : Mp) :
    s.ncpu < Kern.ncpu ∧ (s.proc t p).ncpu = s.ncpu + 1 ∧
        (s.proc t p).cpuId = Function.update s.cpuId s.ncpu (BitVec.ofNat 8 s.ncpu) ∨
      Kern.ncpu ≤ s.ncpu ∧ (s.proc t p).ncpu = s.ncpu ∧ (s.proc t p).cpuId = s.cpuId := by
  rw [Mp.proc]
  dsimp only
  split_ifs <;> simp_all

theorem Mp.proc_ismp (t : MpTable) (p : Nat) (s : Mp) : (s.proc t p).ismp = s.ismp := by
  rw [Mp.proc]
  dsimp only
  split_ifs <;> rfl

theorem Mp.proc_reads (t : MpTable) (p : Nat) (s : Mp) :
    (∀ a ∈ (s.proc t p).reads, a < len) ↔ p + 3 < len ∧ ∀ a ∈ s.reads, a < len := by
  rw [Mp.proc]
  dsimp only
  split_ifs
  · exact List.forall_mem_cons
  · rw [List.forall_mem_cons, List.forall_mem_cons]
    exact ⟨fun h => h.2, fun h => ⟨by omega, h⟩⟩
  · exact List.forall_mem_cons
  · rw [List.forall_mem_cons, List.forall_mem_cons]
    exact ⟨fun h => h.2, fun h => ⟨by omega, h⟩⟩

theorem Mp.Seen.proc (h : s.Seen bs) :
    (s.proc t p).Seen (bs ++ [decide (t (p + 3) &&& 2 ≠ 0)]) := by
  have hn := h.ncpu
  rcases Mp.proc_cpus t p s with ⟨hlt, hncpu, hid⟩ | ⟨hge, hncpu, hid⟩
  · refine ⟨?_, fun i hi => ?_, h.boot (Mp.proc_bootcpu t p s)⟩
    · rw [hncpu, List.length_append, List.length_singleton]
      omega
    · rw [hid, Function.update_apply]
      split_ifs with heq
      · rw [heq]
      · exact h.cpuId i (by omega)
  · refine ⟨?_, fun i hi => ?_, h.boot (Mp.proc_bootcpu t p s)⟩
    · rw [hncpu, List.length_append, List.length_singleton]
      omega
    · rw [hid]
      exact h.cpuId i (hncpu ▸ hi)

theorem Mp.Seen.walk (h : s.Seen bs) : (s.walk t n p).Seen (bs ++ bootFlags (t.entries n p)) ∧
    (s.walk t n p).ismp = (s.ismp && allKnown (t.entries n p)) ∧
    ((∀ a ∈ (s.walk t n p).reads, a < len) ↔
      (∀ a ∈ s.reads, a < len) ∧ ∀ x ∈ t.entries n p, lastRead x < len) := by
  induction n generalizing s bs p with
  | zero => simp [Mp.walk, MpTable.entries, bootFlags, allKnown, h]
  | succ n ih =>
    have hread : Mp.Seen bs { s with reads := p :: s.reads } := ⟨h.ncpu, h.cpuId, h.bootcpu⟩
    rw [Mp.walk, MpTable.entries, MpTable.kindAt]
    dsimp only
    by_cases h0 : t p = 0
    · rw [if_pos h0, if_pos h0]
      obtain ⟨hs, hi, hr⟩ := ih (p := p + 20) (hread.proc (t := t) (p := p))
      rw [Mp.proc_ismp] at hi
      rw [Mp.proc_reads, List.forall_mem_cons] at hr
      refine ⟨?_, hi, hr.trans ?_⟩
      · rw [bootFlags, List.append_cons]
        exact hs
      · rw [List.forall_mem_cons, lastRead]
        exact ⟨fun h => ⟨h.1.2.2, h.1.1, h.2⟩, fun h => ⟨⟨h.2.1, by omega, h.1⟩, h.2.2⟩⟩
    · rw [if_neg h0, if_neg h0]
      by_cases hdev : t p = 1 ∨ t p = 2 ∨ t p = 3 ∨ t p = 4
      · rw [if_pos hdev, if_pos hdev]
        obtain ⟨hs, hi, hr⟩ := ih (p := p + 8) hread
        refine ⟨hs, hi, hr.trans ?_⟩
        rw [List.forall_mem_cons, List.forall_mem_cons, lastRead]
        exact ⟨fun h => ⟨h.1.2, h.1.1, h.2⟩, fun h => ⟨⟨h.2.1, h.1⟩, h.2.2⟩⟩
      · rw [if_neg hdev, if_neg hdev]
        refine ⟨?_, (Bool.and_false _).symm, ?_⟩
        · rw [bootFlags, bootFlags, List.append_nil]
          exact ⟨h.ncpu, h.cpuId, h.bootcpu⟩
        · rw [List.forall_mem_cons, List.forall_mem_singleton, lastRead]
          exact and_comm

theorem Mp.seen_start (ismp : Bool) (lapicaddr : Nat) (reads : List Nat) :
    Mp.Seen [] { Mp.start with ismp := ismp, lapicaddr := lapicaddr, reads := reads } :=
  ⟨rfl, fun i hi => by obtain rfl : i = 0 := Nat.lt_one_iff.mp hi; rfl,
    fun k h1 _ => ⟨fun _ i hi => (by cases hi), fun _ => h1⟩⟩

def demoTable (len count fix : Byte) (es : List Byte) (a : Nat) : Byte :=
  ([0x50, 0x43, 0x4D, 0x50, len, 0, 4, fix] ++ List.replicate 26 0 ++ [count] ++ List.replicate 9 0 ++
    es).getD (a - 4096) 0

end Jos.Kern
