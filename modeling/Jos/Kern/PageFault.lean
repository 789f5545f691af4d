import Jos.Kern.Bytes
import Jos.Kern.PageCalls
import Jos.Kern.UserPtr

/-! What `page_fault_handler` comes to: a panic, the environment's upcall, or the end of it. -/

namespace Jos.Kern

open Lib Phys Kernel

/-- How the handler ends: in a panic, in `env_run(curenv)` for the upcall, in `sched_yield` once
`curenv` is freed, or in a fault of its own while it writes the frame. -/
inductive FaultEnd
  | panic (k : Kernel)
  | upcall (k : Kernel)
  | destroyed (k : Kernel)
  | nested

def FaultEnd.finish (c : Cpu) (cur : EnvIx) : FaultEnd → Option Kernel
  | .panic _ => none
  | .upcall k => envRun k c cur
  | .destroyed k => schedYield k c
  | .nested => none

def destroyEnd (k : Kernel) (c : Cpu) (cur : EnvIx) : FaultEnd :=
  match envFree k c cur with
  | some k' => .destroyed (k'.setCurenv c none)
  | none => .panic k

def pageFaultEnd (k : Kernel) (c : Cpu) (cur : EnvIx) (tf : Trapframe) (faultVa : Word)
    (user : Bool) : FaultEnd :=
  -- `tf->tf_cs && 0x01 == 0`
  if tf.tfCs ≠ 0 ∧ (1 : Word) = 0 then .panic k
  else if (k.envs cur).envPgfaultUpcall ≠ 0 then
    match userMemCheck k.toPhys (k.envs cur).envPgdir (utfAddr tf.tfEsp) 52 (pteU ||| pteW) with
    | none => .panic k
    | some (some _) => destroyEnd k c cur
    | some none =>
      let (m, fault) := copyOut (k.cpus c).cr3 k.toPhys
        ((utrapframe tf faultVa).flatMap bytesOfWord) (utfAddr tf.tfEsp)
      let k := { k with toPhys := m }
      if fault then .nested
      else
        let tf := { tf with tfEip := (k.envs cur).envPgfaultUpcall, tfEsp := utfAddr tf.tfEsp }
        .upcall (if user then k.setEnv cur { k.envs cur with envTf := tf } else k)
  else destroyEnd k c cur

section End

variable {k k' : Kernel} {c : Cpu} {cur : EnvIx} {tf : Trapframe} {faultVa : Word} {user : Bool}

theorem envDestroy_self (hcur : k.curenv c = some cur) : envDestroy k c cur =
    ((destroyEnd k c cur).finish c cur).map fun k' => (k', true) := by
  rw [envDestroy, if_neg fun h => h.2 hcur, destroyEnd]
  simp only [hcur, if_true]
  cases envFree k c cur with
  | none => rfl
  | some k₁ =>
    simp only [Option.bind_eq_bind, Option.bind_some, FaultEnd.finish]
    cases schedYield (k₁.setCurenv c none) c with
    | none => rfl
    | some k₂ => rfl

theorem not_kernelTest (cs : BitVec 16) : ¬ (cs ≠ 0 ∧ (1 : Word) = 0) := fun h =>
  absurd h.2 (by decide)

theorem pageFaultEnd_none (hup : (k.envs cur).envPgfaultUpcall = 0) :
    pageFaultEnd k c cur tf faultVa user = destroyEnd k c cur := by
  rw [pageFaultEnd, if_neg (not_kernelTest _), if_neg fun h => h hup]

theorem pageFaultEnd_check (hup : (k.envs cur).envPgfaultUpcall ≠ 0) {r : Option Word}
    (hcheck : userMemCheck k.toPhys (k.envs cur).envPgdir (utfAddr tf.tfEsp) 52 (pteU ||| pteW) = some r) :
    pageFaultEnd k c cur tf faultVa user =
      match r with
      | some _ => destroyEnd k c cur
      | none =>
        let (m, fault) := copyOut (k.cpus c).cr3 k.toPhys
          ((utrapframe tf faultVa).flatMap bytesOfWord) (utfAddr tf.tfEsp)
        let k := { k with toPhys := m }
        if fault then .nested
        else
          let tf := { tf with tfEip := (k.envs cur).envPgfaultUpcall, tfEsp := utfAddr tf.tfEsp }
          .upcall (if user then k.setEnv cur { k.envs cur with envTf := tf } else k) := by
  rw [pageFaultEnd, if_neg (not_kernelTest _), if_pos hup]
  simp only [hcheck]
  cases r with
  | none => rfl
  | some a => rfl

theorem pageFaultHandler_eq (hcur : k.curenv c = some cur) :
    pageFaultHandler k c cur tf faultVa user =
      (pageFaultEnd k c cur tf faultVa user).finish c cur := by
  by_cases hup : (k.envs cur).envPgfaultUpcall = 0
  · rw [pageFaultEnd_none hup, pageFaultHandler, if_neg fun h => h hup, envDestroy_self hcur]
    cases (destroyEnd k c cur).finish c cur with
    | none => rfl
    | some k' => rfl
  · have hperm : pteU ||| pteW ||| pteU = pteU ||| pteW := by decide
    rw [pageFaultHandler, if_pos hup]
    simp only [userMemAssert, hperm]
    cases hcheck : userMemCheck k.toPhys (k.envs cur).envPgdir (utfAddr tf.tfEsp) 52 (pteU ||| pteW) with
    | none =>
      rw [pageFaultEnd, if_neg (not_kernelTest _), if_pos hup]
      simp only [hcheck]
      rfl
    | some r =>
      rw [pageFaultEnd_check hup hcheck]
      cases r with
      | some a =>
        simp only [Option.bind_eq_bind, Option.bind_some, envDestroy_self hcur]
        cases (destroyEnd k c cur).finish c cur with
        | none => rfl
        | some k' => rfl
      | none =>
        simp only [Option.bind_eq_bind, Option.bind_some, Option.pure_def]
        split
        · rfl
        · rfl

theorem destroyEnd_freed (hfree : envFree k c cur = some k') :
    destroyEnd k c cur = .destroyed (k'.setCurenv c none) := by
  rw [destroyEnd, hfree]

end End

section Check

variable {b : Base} {m m' : Phys} {ds : Dirs} {e : EnvIx} {d : Nat} {va len perm : Word}
  {out : Set Nat} {l : List Nat}

theorem Shape.table_lt (h : Shape b m ds) (hd : ds e = some d) {i : Nat} (hi : i < 1024)
    (hp : m.mem d i &&& pteP ≠ 0) : pgnum (m.mem d i) < m.npages := by
  have hz : (0 : Word) &&& pteP = 0 := by decide
  by_cases hlo : i < 955
  · rcases h.pde hd ⟨i, hlo⟩ with h0 | ⟨t, ht, hw⟩
    · exact absurd hz (h0 ▸ hp)
    · replace hw : m.mem d i = pdeWord t := hw
      rw [hw, pgnum_pdeWord (b.lt ht)]
      exact h.lt_npages ht
  · by_cases hu : i = 957
    · rw [hu, h.uvpt hd, BitVec.or_assoc, pgnum_page2pa_or (b.lt (h.dir_mem hd)) (by decide)]
      exact h.lt_npages (h.dir_mem hd)
    · rw [h.kern hd (by omega) hi hu] at hp ⊢
      rcases b.pde (by omega) hi hu with h0 | ⟨t, ht, -, hw⟩
      · exact absurd hz (h0 ▸ hp)
      · have := b.npages_le
        rw [hw, pgnum_pdeWord (by omega), h.npages_eq]
        exact ht

theorem userMemCheckLoop_some (h : Shape b m ds) (hd : ds e = some d) (stop : Word) (n : Nat)
    (start : Word) : ∃ r, userMemCheckLoop m (some d) va stop perm n start = some r := by
  induction n generalizing start with
  | zero => exact ⟨_, rfl⟩
  | succ n ih =>
    rw [userMemCheckLoop]
    split
    · by_cases hp : m.mem d (pdx start) &&& pteP = 0
      · rw [pgdirWalk_absent hp]
        exact ⟨_, rfl⟩
      · rw [pgdirWalk_present hp (h.table_lt hd (pdx_lt start) hp)]
        simp only [Option.bind_eq_bind, Option.bind_some]
        split
        · exact ⟨_, rfl⟩
        · exact ih _
    · exact ⟨_, rfl⟩

theorem Shape.userMemCheck_some (h : Shape b m ds) (hd : ds e = some d) (va len perm : Word) :
    ∃ r, userMemCheck m (some d) va len perm = some r :=
  userMemCheckLoop_some h hd _ _ _

def Grants (m : Phys) (d : Nat) (va : Word) (n : Nat) (perm : Word) : Prop :=
  ∀ i < n, translate m d (va + BitVec.ofNat 32 i) perm ≠ none

/-- Where nothing wraps around, `user_mem_check` lets pass what user code can access, if the
directory entries have the permissions. -/
theorem Shape.check_iff (h : Shape b m ds) (hd : ds e = some d) (hU : perm &&& pteU = pteU)
    (hlen : 0 < len.toNat) (hw : va.toNat + len.toNat + 4095 < 2 ^ 32)
    (hpde : ∀ a : Word, va.toNat ≤ a.toNat → a.toNat < va.toNat + len.toNat →
      m.mem d (pdx a) &&& pteP ≠ 0 → m.mem d (pdx a) &&& perm = perm) :
    userMemCheck m (some d) va len perm = some none ↔ Grants m d va len.toNat perm := by
  have hud := h.userDir hd
  have hat : ∀ i < len.toNat, (va + BitVec.ofNat 32 i).toNat = va.toNat + i := by
    intro i hi
    rw [BitVec.toNat_add, BitVec.toNat_ofNat]
    omega
  constructor
  · intro hcheck i hi
    have hai := hat i hi
    have hlo : va.toNat ≤ (va + BitVec.ofNat 32 i).toNat := by omega
    have hhi : (va + BitVec.ofNat 32 i).toNat < va.toNat + len.toNat := by omega
    obtain ⟨-, hwalk, hpte⟩ := (pageOk_of_check hcheck hw hlo hhi).mmuWalk hud hU
    exact (translate_ne_none hwalk).mpr ⟨hpde _ hlo hhi (mmuWalk_eq_some hwalk).2.2.1, hpte⟩
  · intro hg
    refine userMemCheck_eq_none_iff.mpr fun x hx hlo hhi => ?_
    have hsum : (va + len).toNat = va.toNat + len.toNat := by
      rw [BitVec.toNat_add]
      omega
    rw [BitVec.le_def, toNat_roundDown] at hlo
    rw [BitVec.lt_def, toNat_roundUp, hsum] at hhi
    -- a byte of the range on the page
    obtain ⟨i, hi, hpage⟩ : ∃ i < len.toNat, (va.toNat + i) / 4096 * 4096 = x.toNat := by
      by_cases hge : va.toNat ≤ x.toNat
      · exact ⟨x.toNat - va.toNat, by omega, by omega⟩
      · exact ⟨0, hlen, by omega⟩
    have hdown : roundDown (va + BitVec.ofNat 32 i) pgsize = x := by
      apply BitVec.eq_of_toNat_eq
      rw [toNat_roundDown, hat i hi, hpage]
    obtain ⟨p, hp⟩ := Option.ne_none_iff_exists'.mp (hg i hi)
    obtain ⟨pde, pte, hwalk, -, hpte, -⟩ := translate_eq_some hp
    obtain ⟨rfl, rfl, hp1, hp2⟩ := mmuWalk_eq_some hwalk
    have hlt := (hud.pte hp1 (and_eq_of_and_eq hpte hU)).2
    rw [BitVec.lt_def, hat i hi] at hlt
    refine ⟨fun hul => ?_, ?_, ?_, ?_⟩
    · rw [BitVec.lt_def] at hul
      omega
    · rw [← hdown, pdx_roundDown]
      exact hp1
    · rw [← hdown, pdx_roundDown]
      exact h.table_lt hd (pdx_lt _) hp1
    · rw [← hdown, pdx_roundDown, ptx_roundDown]
      exact hpte

theorem DataOnly.translate (h : DataOnly b ds out l m m') (hs : Spaces b m ds out l)
    (hd : ds e = some d) (hva : va < utop) {flags : Word} (h7 : (7 : Word) &&& flags = flags)
    (hlt : flags.toNat < 4096) : translate m' d va flags = translate m d va flags := by
  cases htr : Kern.translate m d va flags with
  | some p =>
    obtain ⟨htgt, hf⟩ := translate_user hd hva htr
    refine h.spaces.translate_eq hd hva ?_ ?_ h7 hlt
    · rw [h.target_eq]
      exact htgt
    · rw [h.entry_eq]
      exact hf
  | none =>
    cases htr' : Kern.translate m' d va flags with
    | none => rfl
    | some p =>
      obtain ⟨htgt, hf⟩ := translate_user hd hva htr'
      rw [h.target_eq] at htgt
      rw [h.entry_eq] at hf
      rw [hs.translate_eq hd hva htgt hf h7 hlt] at htr
      cases htr

structure CopiedTo (b : Base) (ds : Dirs) (out : Set Nat) (l : List Nat) (d : Nat) (va : Word)
    (bs : List Byte) (m m' : Phys) : Prop where
  run : copyOut d m bs va = (m', false)
  data : DataOnly b ds out l m m'
  other : ∀ p off, (∀ i < bs.length, pgoff (va + BitVec.ofNat 32 i) ≠ off) →
    m'.loadByte p off = m.loadByte p off
  back : copyIn m' d bs.length va = (bs, false)

theorem Spaces.copiedTo (h : Spaces b m ds out l) (hd : ds e = some d) {bs : List Byte}
    (hlen : bs.length ≤ 4096) (hend : va.toNat + bs.length ≤ utop.toNat)
    (hg : Grants m d va bs.length pteW) : ∃ m', CopiedTo b ds out l d va bs m m' := by
  induction bs generalizing m va with
  | nil => exact ⟨m, rfl, .refl h, fun _ _ _ => rfl, rfl⟩
  | cons v bs ih =>
    rw [List.length_cons] at hlen hend hg
    have hva : va < utop := by
      rw [BitVec.lt_def]
      omega
    have h0 := hg 0 (Nat.succ_pos _)
    rw [BitVec.add_zero] at h0
    obtain ⟨p, hp⟩ := Option.ne_none_iff_exists'.mp h0
    have htgt := (translate_user hd hva hp).1
    have hlt := h.shape.lt_npages (h.data_page htgt).1
    have hdata : DataOnly b ds out l m (m.storeByte p (pgoff va) v) := h.setPage_data htgt _
    have hnext : (va + 1).toNat = va.toNat + 1 := by
      rw [BitVec.toNat_add]
      have := utop.isLt
      simp only [BitVec.ofNat_eq_ofNat, BitVec.toNat_ofNat]
      omega
    have hg' : Grants (m.storeByte p (pgoff va) v) d (va + 1) bs.length pteW := by
      intro i hi
      have hlt' : va + BitVec.ofNat 32 (i + 1) < utop := by
        have := utop.isLt
        rw [BitVec.lt_def, BitVec.toNat_add, BitVec.toNat_ofNat]
        omega
      rw [add_one_add, hdata.translate h hd hlt' (by decide) (by decide)]
      exact hg (i + 1) (by omega)
    obtain ⟨m', hrest⟩ := ih hdata.spaces (by omega) (by omega) hg'
    have hall := hdata.trans hrest.data
    refine ⟨m', ?_, hall, fun q off hq => ?_, ?_⟩
    · rw [Kern.copyOut, Kern.mmuStore, hp]
      simp only [Option.map_some, if_pos hlt]
      exact hrest.run
    · rw [hrest.other q off fun i hi => ?_, loadByte_storeByte_of_ne]
      · have hne := hq 0 (by simp)
        rw [BitVec.add_zero] at hne
        exact .inr hne.symm
      · rw [add_one_add]
        exact hq (i + 1) (by simpa using hi)
    · have hback : m'.loadByte p (pgoff va) = v := by
        rw [hrest.other p (pgoff va), loadByte_storeByte, if_pos rfl]
        intro i hi
        have := pgoff_lt va
        rw [add_one_add, pgoff_add_ofNat]
        omega
      have hload : mmuLoad m' d va 0 = some v := by
        rw [mmuLoad, hall.translate h hd hva (by decide) (by decide), translate_zero hp,
          Option.map_some, hback]
      rw [List.length_cons, copyIn, hload, hrest.back]

end Check

/-- The frame of the upcall: the address and the error code of the fault, and the trap-time
registers, `eip`, `eflags` and `esp`. -/
def faultFrame (tf : Trapframe) (faultVa : Word) : List Word :=
  let r := tf.tfRegs
  [faultVa, tf.tfErr,
    r.regEdi, r.regEsi, r.regEbp, r.regOesp, r.regEbx, r.regEdx, r.regEcx, r.regEax,
    tf.tfEip, tf.tfEflags, tf.tfEsp]

def frameAddr (esp : Word) : Word :=
  if uxstacktop - pgsize ≤ esp ∧ esp < uxstacktop then esp - 4 - 52 else uxstacktop - 52

/-- The frame is on the exception stack, and the environment goes on in its upcall. -/
structure Pushed (k : Kernel) (c : Cpu) (cur : EnvIx) (tf : Trapframe) (faultVa : Word)
    (k' : Kernel) : Prop where
  frame : copyIn k'.toPhys (k'.cpus c).cr3 52 (frameAddr tf.tfEsp) =
    ((faultFrame tf faultVa).flatMap bytesOfWord, false)
  resume : (k'.envs cur).envTf =
    { tf with tfEip := (k.envs cur).envPgfaultUpcall, tfEsp := frameAddr tf.tfEsp }

def Catches (k : Kernel) (cur : EnvIx) (d : Nat) (esp : Word) : Prop :=
  (k.envs cur).envPgfaultUpcall ≠ 0 ∧ Grants k.toPhys d (frameAddr esp) 52 (pteU ||| pteW)

/-- Page faults as they should be: a panic in kernel mode, before anything is changed; in user
mode the upcall, or the end of the environment. -/
structure Delivered (k : Kernel) (c : Cpu) (cur : EnvIx) (tf : Trapframe) (faultVa : Word)
    (out : FaultEnd) : Prop where
  kernel : tf.tfCs &&& 3 = 0 → out = .panic k
  upcall : tf.tfCs &&& 3 = 3 → Catches k cur (k.cpus c).cr3 tf.tfEsp →
    ∃ k', out = .upcall k' ∧ Pushed k c cur tf faultVa k'
  destroyed : tf.tfCs &&& 3 = 3 → ¬ Catches k cur (k.cpus c).cr3 tf.tfEsp →
    ∃ k', out = .destroyed k' ∧ k'.status cur = .free ∧ k'.dirs cur = none

theorem toNat_utfAddr (esp : Word) : utfAddr esp = frameAddr esp ∧
    (frameAddr esp).toNat + 52 ≤ utop.toNat := by
  have h1 : (uxstacktop - pgsize).toNat = 0xEEBFF000 := by decide
  have h2 : (uxstacktop - 1).toNat = 0xEEBFFFFF := by decide
  have h3 : uxstacktop.toNat = 0xEEC00000 := by decide
  have hiff : (uxstacktop - pgsize ≤ esp ∧ esp ≤ uxstacktop - 1) ↔
      (uxstacktop - pgsize ≤ esp ∧ esp < uxstacktop) := by
    rw [BitVec.le_def, BitVec.le_def, BitVec.lt_def, h2, h3]
    omega
  have hsub : esp - 52 - 4 = esp - 4 - 52 := by
    rw [BitVec.sub_sub, BitVec.sub_sub]
    rfl
  refine ⟨?_, ?_⟩
  · rw [utfAddr, frameAddr, hsub]
    simp only [hiff]
  · rw [frameAddr]
    split
    · next h =>
      have hlo := BitVec.le_def.mp h.1
      have hhi := BitVec.lt_def.mp h.2
      rw [h1] at hlo
      rw [h3] at hhi
      rw [BitVec.toNat_sub, BitVec.toNat_sub, toNat_utop]
      simp only [BitVec.ofNat_eq_ofNat, BitVec.toNat_ofNat]
      omega
    · decide

theorem bytesOfWord_inj {w w' : Word} (h : bytesOfWord w = bytesOfWord w') : w = w' := by
  rw [bytesOfWord, bytesOfWord] at h
  obtain ⟨h0, h⟩ := List.cons.inj h
  obtain ⟨h1, h⟩ := List.cons.inj h
  obtain ⟨h2, h⟩ := List.cons.inj h
  obtain ⟨h3, -⟩ := List.cons.inj h
  rw [← word_of_bytes w, h0, h1, h2, h3, word_of_bytes]

theorem utrapframe_bytes {tf : Trapframe} {faultVa : Word} :
    (utrapframe tf faultVa).flatMap bytesOfWord = (faultFrame tf faultVa).flatMap bytesOfWord ↔
      tf.tfErr = tf.tfTrapno := by
  simp only [utrapframe, faultFrame, List.flatMap_cons]
  constructor
  · intro h
    have h' := List.append_inj (List.append_cancel_left h) rfl
    exact (bytesOfWord_inj h'.1).symm
  · intro h
    rw [h]

namespace Sound

variable {b : Base} {k k' : Kernel} {c : Cpu} {e cur : EnvIx} {d : Nat}

theorem envFree_some (h : Sound b k) (hc : Counted k) (hd : k.dirs e = some d) :
    ∃ k', envFree k c e = some k' := by
  obtain ⟨l, hsp⟩ := h.spaces
  obtain ⟨m', l', heq, -⟩ := hsp.envFreeVm hd fun q => hc.le q
  have hpg : (k.envs e).envPgdir = some d := hd
  rw [envFree]
  split
  · simp only [Kernel.lcr3, Kernel.setCpu, hpg, Option.bind_eq_bind, Option.bind_some, heq]
    exact ⟨_, rfl⟩
  · simp only [hpg, Option.bind_eq_bind, Option.bind_some, heq]
    exact ⟨_, rfl⟩

theorem destroyEnd_eq (h : Sound b k) (hc : Counted k) (hd : k.dirs cur = some d) :
    ∃ k', Freed k c cur k' ∧ destroyEnd k c cur = .destroyed (k'.setCurenv c none) := by
  obtain ⟨k', hk'⟩ := h.envFree_some (c := c) hc hd
  exact ⟨k', envFree_freed hk', destroyEnd_freed hk'⟩

theorem stackCheck_iff (h : Sound b k) (hd : k.dirs cur = some d) (esp : Word) :
    userMemCheck k.toPhys (some d) (frameAddr esp) 52 (pteU ||| pteW) = some none ↔
      Grants k.toPhys d (frameAddr esp) 52 (pteU ||| pteW) := by
  obtain ⟨l, hsp⟩ := h.spaces
  have hend := (toNat_utfAddr esp).2
  have h52 : (52 : Word).toNat = 52 := rfl
  rw [toNat_utop] at hend
  refine hsp.shape.check_iff hd (by decide) (by decide) (by rw [h52]; omega) fun a _ hhi hp => ?_
  have ha : a < utop := by
    rw [BitVec.lt_def, toNat_utop]
    omega
  rcases hsp.shape.pde hd (dirIx a ha) with h0 | ⟨t, -, hw⟩
  · replace h0 : k.mem d (pdx a) = 0 := h0
    rw [h0] at hp
    exact absurd (by decide) hp
  · replace hw : k.mem d (pdx a) = pdeWord t := hw
    rw [hw, pdeWord_and (by decide)]
    decide

theorem pageFaultEnd_other (h : Sound b k) (hc : Counted k) (hd : k.dirs cur = some d)
    (tf : Trapframe) (faultVa : Word) (user : Bool) (hcat : ¬ Catches k cur d tf.tfEsp) : ∃ k', Freed k c cur k' ∧
      pageFaultEnd k c cur tf faultVa user = .destroyed (k'.setCurenv c none) := by
  obtain ⟨k', hfree, hend⟩ := h.destroyEnd_eq (c := c) hc hd
  refine ⟨k', hfree, ?_⟩
  by_cases hup : (k.envs cur).envPgfaultUpcall = 0
  · rw [pageFaultEnd_none hup, hend]
  · obtain ⟨l, hsp⟩ := h.spaces
    obtain ⟨r, hr⟩ := hsp.shape.userMemCheck_some hd (frameAddr tf.tfEsp) 52 (pteU ||| pteW)
    have hpg : (k.envs cur).envPgdir = some d := hd
    have hcheck := hr
    rw [← (toNat_utfAddr tf.tfEsp).1, ← hpg] at hcheck
    rw [pageFaultEnd_check hup hcheck]
    cases r with
    | some a => exact hend
    | none => exact absurd ⟨hup, (h.stackCheck_iff hd tf.tfEsp).mp hr⟩ hcat

theorem pageFaultEnd_catches (h : Sound b k) (hd : k.dirs cur = some (k.cpus c).cr3)
    (tf : Trapframe) (faultVa : Word) (user : Bool) (hcat : Catches k cur (k.cpus c).cr3 tf.tfEsp) : ∃ m', ∃ out l,
      CopiedTo b k.dirs out l (k.cpus c).cr3 (frameAddr tf.tfEsp)
        ((utrapframe tf faultVa).flatMap bytesOfWord) k.toPhys m' ∧
      pageFaultEnd k c cur tf faultVa user = .upcall (if user then
        ({ k with toPhys := m' } : Kernel).setEnv cur { k.envs cur with
          envTf := { tf with tfEip := (k.envs cur).envPgfaultUpcall, tfEsp := frameAddr tf.tfEsp } }
        else { k with toPhys := m' }) := by
  obtain ⟨l, hsp⟩ := h.spaces
  have hlen : ((utrapframe tf faultVa).flatMap bytesOfWord).length = 52 := rfl
  have hg : Grants k.toPhys (k.cpus c).cr3 (frameAddr tf.tfEsp)
      ((utrapframe tf faultVa).flatMap bytesOfWord).length pteW := by
    intro i hi
    obtain ⟨p, hp⟩ := Option.ne_none_iff_exists'.mp (hcat.2 i (by rwa [hlen] at hi))
    obtain ⟨pde, pte, hw, hpde, hpte, -⟩ := translate_eq_some hp
    exact (translate_ne_none hw).mpr
      ⟨and_eq_of_and_eq hpde (by decide), and_eq_of_and_eq hpte (by decide)⟩
  obtain ⟨m', hcopy⟩ := hsp.copiedTo hd (by rw [hlen]; decide)
    (by rw [hlen]; exact (toNat_utfAddr tf.tfEsp).2) hg
  refine ⟨m', ∅, l, hcopy, ?_⟩
  have hpg : (k.envs cur).envPgdir = some (k.cpus c).cr3 := hd
  have hcheck : userMemCheck k.toPhys (k.envs cur).envPgdir (utfAddr tf.tfEsp) 52 (pteU ||| pteW) =
      some none := by
    rw [hpg, (toNat_utfAddr tf.tfEsp).1]
    exact (h.stackCheck_iff hd tf.tfEsp).mpr hcat.2
  rw [pageFaultEnd_check hcat.1 hcheck]
  simp only [(toNat_utfAddr tf.tfEsp).1, hcopy.run]
  rfl

end Sound

section Delivery

variable {b : Base} {k : Kernel} {c : Cpu} {cur : EnvIx}

/-- A fault is delivered as it should be if it is one of user mode, and the error code is the trap
number when the upcall gets to see it. -/
theorem pageFault_delivered_iff (h : Sound b k) (hc : Counted k) (hcur : k.curenv c = some cur)
    (hd : k.dirs cur = some (k.cpus c).cr3) (tf : Trapframe) (faultVa : Word) :
    pageFaultHandler k c cur tf faultVa (tf.tfCs &&& 3 = 3) =
      (pageFaultEnd k c cur tf faultVa (tf.tfCs &&& 3 = 3)).finish c cur ∧
    (Delivered k c cur tf faultVa (pageFaultEnd k c cur tf faultVa (tf.tfCs &&& 3 = 3)) ↔
      tf.tfCs &&& 3 ≠ 0 ∧ (tf.tfCs &&& 3 = 3 → Catches k cur (k.cpus c).cr3 tf.tfEsp →
        tf.tfErr = tf.tfTrapno)) := by
  refine ⟨pageFaultHandler_eq hcur, ?_⟩
  by_cases hcat : Catches k cur (k.cpus c).cr3 tf.tfEsp
  · obtain ⟨m', out, l, hcopy, hend⟩ := h.pageFaultEnd_catches hd tf faultVa
      (tf.tfCs &&& 3 = 3) hcat
    rw [hend]
    constructor
    · rintro ⟨hkernel, hupcall, -⟩
      refine ⟨fun h0 => (nomatch hkernel h0), fun hu _ => ?_⟩
      obtain ⟨k', heq, hpushed⟩ := hupcall hu hcat
      obtain rfl := FaultEnd.upcall.inj heq
      have hframe := hpushed.frame
      rw [if_pos (decide_eq_true hu)] at hframe
      exact utrapframe_bytes.mp (congrArg Prod.fst (hcopy.back.symm.trans hframe))
    · rintro ⟨hne, herr⟩
      refine ⟨fun h0 => absurd h0 hne, fun hu _ => ⟨_, rfl, ?_, ?_⟩, fun _ hn => absurd hcat hn⟩
      · rw [if_pos (decide_eq_true hu), ← utrapframe_bytes.mpr (herr hu hcat)]
        exact hcopy.back
      · rw [if_pos (decide_eq_true hu), envs_setEnv_self]
  · obtain ⟨k', hfree, hend⟩ := h.pageFaultEnd_other (c := c) hc hd tf faultVa
      (tf.tfCs &&& 3 = 3) hcat
    rw [hend]
    constructor
    · rintro ⟨hkernel, -, -⟩
      exact ⟨fun h0 => (nomatch hkernel h0), fun _ hyes => absurd hyes hcat⟩
    · rintro ⟨hne, -⟩
      refine ⟨fun h0 => absurd h0 hne, fun _ hyes => absurd hyes hcat, fun _ _ => ⟨_, rfl, ?_, ?_⟩⟩
      · exact hfree.status_self
      · exact congrArg Env.envPgdir hfree.envs_self

def faultAt (cs : BitVec 16) : Trapframe := { Trapframe.zero with tfCs := cs, tfTrapno := 14, tfErr := 4 }

theorem pageFault_delivered_demo : ∃ k₀ k, Booted demo (List.replicate 1 idleProg) k₀ ∧
    step k₀ (.start bootcpu) = some k ∧
      Delivered k bootcpu env0 (faultAt 0x1B) 0 (pageFaultEnd k bootcpu env0 (faultAt 0x1B) 0 true) := by
  obtain ⟨b, k₀, k, hb, hst, hs, hc, hd, hcur, hup⟩ := demo_running
  refine ⟨k₀, k, hb, hst, ?_⟩
  refine (pageFault_delivered_iff hs hc hcur (hd.cr3 hcur) (faultAt 0x1B) 0).2.mpr ⟨by decide, ?_⟩
  exact fun _ hcat => absurd hup hcat.1

/-- A page fault in kernel mode ends the environment that is current, and not in a panic. -/
theorem kernelFault_no_panic : ∃ k₀ k, Booted demo (List.replicate 1 idleProg) k₀ ∧
    step k₀ (.start bootcpu) = some k ∧ (faultAt 8).tfCs &&& 3 = 0 ∧
      (∃ k', pageFaultEnd k bootcpu env0 (faultAt 8) 0 false = .destroyed k') ∧
      ¬ Delivered k bootcpu env0 (faultAt 8) 0 (pageFaultEnd k bootcpu env0 (faultAt 8) 0 false) := by
  obtain ⟨b, k₀, k, hb, hst, hs, hc, hd, hcur, hup⟩ := demo_running
  obtain ⟨k', -, hend⟩ := hs.pageFaultEnd_other (c := bootcpu) hc (hd.cr3 hcur) (faultAt 8) 0 false
    fun hcat => hcat.1 hup
  refine ⟨k₀, k, hb, hst, by decide, ⟨_, hend⟩, fun hdel => ?_⟩
  have hpanic := hdel.kernel (by decide)
  rw [hend] at hpanic
  cases hpanic

end Delivery

end Jos.Kern
