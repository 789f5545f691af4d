import Jos.Kern.Demo
import Jos.Lib.Run
import Mathlib.Data.Nat.ModEq

/-! Environment identifiers over whole histories of `env_alloc` and `env_free`. -/

namespace Jos.Kern

open Lib Kernel

def period : Nat := 2 ^ 19 - 1

def idAt (e : EnvIx) (n : Nat) : Word := BitVec.ofNat 32 ((n % period + 1) * 4096 + e)

theorem toNat_idAt (e : EnvIx) (n : Nat) : (idAt e n).toNat = (n % period + 1) * 4096 + e := by
  have hlt : n % period < period := Nat.mod_lt _ (by decide)
  have he : e.val < 1024 := e.isLt
  rw [idAt, BitVec.toNat_ofNat, period] at *
  omega

theorem toInt_idAt (e : EnvIx) (n : Nat) : (idAt e n).toInt = (n % period + 1) * 4096 + e := by
  have hlt : n % period < period := Nat.mod_lt _ (by decide)
  have he : e.val < 1024 := e.isLt
  have hnat := toNat_idAt e n
  rw [period] at *
  rw [BitVec.toInt_eq_toNat_of_lt (by omega), hnat]
  simp

theorem idAt_pos (e : EnvIx) (n : Nat) : 0 < (idAt e n).toInt := by
  rw [toInt_idAt]
  omega

theorem idAt_ne_zero (e : EnvIx) (n : Nat) : idAt e n ≠ 0 := by
  intro h
  have hpos := idAt_pos e n
  rw [h] at hpos
  exact absurd hpos (by decide)

theorem envx_idAt (e : EnvIx) (n : Nat) : envx (idAt e n) = e := by
  have he : e.val < 1024 := e.isLt
  apply Fin.ext
  change (idAt e n &&& 0x3FF).toNat = e.val
  rw [BitVec.toNat_and, show (0x3FF : Word).toNat = 2 ^ 10 - 1 from rfl,
    Nat.and_two_pow_sub_one_eq_mod, toNat_idAt]
  omega

theorem idAt_inj {e : EnvIx} {n n' : Nat} : idAt e n = idAt e n' ↔ n ≡ n' [MOD period] := by
  rw [Nat.ModEq, ← BitVec.toNat_inj, toNat_idAt, toNat_idAt]
  omega

theorem toNat_clear_index (w : Word) : (w &&& ~~~(0x3FF : Word)).toNat = w.toNat / 1024 * 1024 := by
  have hmask : ~~~(0x3FF : Word) = BitVec.allOnes 32 <<< 10 := by decide
  have h : w &&& ~~~(0x3FF : Word) = (w >>> 10) <<< 10 := by
    rw [hmask]
    apply BitVec.eq_of_getLsbD_eq
    intro i hi
    simp only [BitVec.getLsbD_and, BitVec.getLsbD_shiftLeft, BitVec.getLsbD_allOnes,
      BitVec.getLsbD_ushiftRight]
    by_cases h10 : i < 10
    · simp [h10]
    · have : 10 + (i - 10) = i := by omega
      simp [h10, hi, this]
      omega
  rw [h, BitVec.toNat_shiftLeft, BitVec.toNat_ushiftRight, Nat.shiftRight_eq_div_pow,
    Nat.shiftLeft_eq]
  have := w.isLt
  omega

theorem or_index {w : Word} {g : Nat} (hw : w.toNat = g * 4096) (e : EnvIx) :
    w ||| BitVec.ofNat 32 e = BitVec.ofNat 32 (g * 4096 + e) := by
  have he : e.val < 1024 := e.isLt
  apply BitVec.eq_of_toNat_eq
  rw [BitVec.toNat_or, hw, BitVec.toNat_ofNat, BitVec.toNat_ofNat,
    Nat.mod_eq_of_lt (by omega), Nat.mod_eq_of_lt (by omega)]
  have := Nat.shiftLeft_add_eq_or_of_lt (i := 12) (show e.val < 2 ^ 12 by omega) g
  rw [Nat.shiftLeft_eq] at this
  exact this.symm

theorem envgen_eq {envId : Word} {g : Nat} {e : EnvIx} (hg : g < 2 ^ 19)
    (hid : envId.toNat / 4096 = g) (hlow : envId.toNat % 4096 < 1024) :
    envgen envId e = BitVec.ofNat 32 ((if g + 1 = 2 ^ 19 then 1 else g + 1) * 4096 + e) := by
  have hgen : ((envId + 0x1000) &&& ~~~0x3FF).toNat = (g + 1) * 4096 := by
    rw [toNat_clear_index, BitVec.toNat_add, show (0x1000 : Word).toNat = 4096 from rfl]
    omega
  rw [envgen]
  generalize (envId + 0x1000) &&& ~~~0x3FF = w at hgen
  by_cases hlast : g + 1 = 2 ^ 19
  · have hneg : w.sle 0 = true := by
      rw [BitVec.sle_eq_decide, decide_eq_true_iff, BitVec.toInt_eq_toNat_cond]
      simp only [hgen, hlast]
      decide
    rw [if_pos hlast]
    simp only [hneg, if_true]
    exact or_index (g := 1) rfl e
  · have hpos : w.sle 0 = false := by
      rw [BitVec.sle_eq_decide, decide_eq_false_iff_not,
        BitVec.toInt_eq_toNat_of_lt (by omega), hgen, show (0 : Word).toInt = 0 from rfl]
      omega
    rw [if_neg hlast]
    simp only [hpos]
    exact or_index hgen e

theorem envgen_zero (e : EnvIx) : envgen 0 e = idAt e 0 :=
  envgen_eq (g := 0) (by decide) rfl (by decide)

theorem envgen_idAt (e : EnvIx) (n : Nat) : envgen (idAt e n) e = idAt e (n + 1) := by
  have hlt : n % period < period := Nat.mod_lt _ (by decide)
  have he : e.val < 1024 := e.isLt
  have hnat := toNat_idAt e n
  have hmod : (n + 1) % period = if n % period + 1 = period then 0 else n % period + 1 := by
    rw [← Nat.mod_add_mod]
    split
    · next h => rw [h, Nat.mod_self]
    · next h => exact Nat.mod_eq_of_lt (by omega)
  have hgen : (if n % period + 1 + 1 = 2 ^ 19 then 1 else n % period + 1 + 1) =
      (n + 1) % period + 1 := by
    rw [hmod, period]
    split <;> split <;> omega
  rw [envgen_eq (g := n % period + 1) (by rw [period] at *; omega) (by omega) (by omega), hgen, idAt]

/-- The kernel, and the ids `env_alloc` has handed out so far, the latest last. -/
structure EnvTable where
  kernel : Kernel
  ids : List (EnvIx × Word)

namespace EnvTable

def idsOf (s : EnvTable) (e : EnvIx) : List Word :=
  s.ids.filterMap fun p => if p.1 = e then some p.2 else none

end EnvTable

inductive EnvCall
  | alloc (parentId : Word)
  | free (c : Cpu) (e : EnvIx)
  | other (k : Kernel)

/-- A call of `env_alloc` or `env_free`; `other k` is what the rest of the kernel does
between two of them. -/
def envCall (s : EnvTable) : EnvCall → Option EnvTable
  | .alloc parentId => do
    match ← envAlloc s.kernel parentId with
    | (k, .ok e) => return ⟨k, s.ids ++ [(e, (k.envs e).envId)]⟩
    | (k, .error _) => return ⟨k, s.ids⟩
  | .free c e => (envFree s.kernel c e).map fun k => ⟨k, s.ids⟩
  | .other k => some ⟨k, s.ids⟩

/-- The rest of the kernel leaves the free list, the ids and the page directories alone, and
makes no environment free or live. -/
structure Aside (k k' : Kernel) : Prop where
  freeList_eq : k'.envFreeList = k.envFreeList
  link_eq : ∀ e, (k'.envs e).envLink = (k.envs e).envLink
  id_eq : ∀ e, (k'.envs e).envId = (k.envs e).envId
  dirs_eq : ∀ e, k'.dirs e = k.dirs e
  free_iff : ∀ e, k'.status e = .free ↔ k.status e = .free

def EnvCall.Admitted (s : EnvTable) : EnvCall → Prop
  | .other k => Aside s.kernel k
  | _ => True

def latest (e : EnvIx) : Nat → Word
  | 0 => 0
  | n + 1 => idAt e n

theorem envgen_latest (e : EnvIx) (n : Nat) : envgen (latest e n) e = idAt e n := by
  cases n with
  | zero => exact envgen_zero e
  | succ n => exact envgen_idAt e n

/-- The free list runs through the free slots, and each slot counts its allocations. -/
structure Numbered (s : EnvTable) : Prop where
  list : ∃ l, Chain (fun e => (s.kernel.envs e).envLink) s.kernel.envFreeList l ∧
    ∀ e, e ∈ l ↔ s.kernel.status e = .free
  dirs : ∀ {e}, s.kernel.status e = .free → s.kernel.dirs e = none
  ids : ∀ e, ∃ n, s.idsOf e = (List.range n).map (idAt e) ∧
    (s.kernel.envs e).envId = latest e n ∧ (s.kernel.status e ≠ .free → n ≠ 0)

namespace Numbered

variable {s t : EnvTable} {k : Kernel} {e : EnvIx}

theorem start (M : Machine) (m : Phys) (kern : Nat) : Numbered ⟨kernStart M m kern, []⟩ := by
  obtain ⟨-, -, -, -, hchain, hunused⟩ := kernStart_spec M m kern
  have hall : ∀ e : EnvIx, e ∈ List.finRange nenv := List.mem_finRange
  generalize List.finRange nenv = l at hchain hall
  generalize kernStart M m kern = k at hchain hunused
  have hfree : ∀ e, k.status e = .free := by
    intro e
    obtain ⟨link, hv⟩ := hunused e
    rw [status, hv]
    rfl
  refine ⟨⟨_, hchain, fun e => ?_⟩, ?_, fun e => ⟨0, rfl, ?_, fun h => absurd (hfree e) h⟩⟩
  · exact ⟨fun _ => hfree e, fun _ => hall e⟩
  · intro e _
    obtain ⟨link, hv⟩ := hunused e
    simp only [Kernel.dirs, hv]
    rfl
  · obtain ⟨link, hv⟩ := hunused e
    simp only [hv]
    rfl

theorem aside (h : Numbered s) (ha : Aside s.kernel k) : Numbered ⟨k, s.ids⟩ := by
  obtain ⟨l, hchain, hmem⟩ := h.list
  refine ⟨⟨l, ?_, fun e => (hmem e).trans (ha.free_iff e).symm⟩, ?_, fun e => ?_⟩
  · simp only [ha.freeList_eq, ha.link_eq]
    exact hchain
  · intro e he
    rw [ha.dirs_eq]
    exact h.dirs ((ha.free_iff e).1 he)
  · obtain ⟨n, hids, hid, hpos⟩ := h.ids e
    exact ⟨n, hids, (ha.id_eq e).trans hid, fun hst => hpos fun hf => hst ((ha.free_iff e).2 hf)⟩

theorem allocated {parentId : Word} (h : Numbered s) (ha : Allocated s.kernel parentId e k) :
    Numbered ⟨k, s.ids ++ [(e, (k.envs e).envId)]⟩ := by
  obtain ⟨l, hchain, hmem⟩ := h.list
  obtain ⟨d, hself⟩ := ha.envs_self
  rw [ha.head] at hchain
  obtain ⟨l, rfl⟩ : ∃ l', l = e :: l' := by
    cases hchain with
    | cons _ => exact ⟨_, rfl⟩
  have hnd := List.nodup_cons.1 hchain.nodup
  refine ⟨⟨l, ?_, fun e' => ?_⟩, ?_, fun e' => ?_⟩
  · have hlink : (fun e' => (k.envs e').envLink) = fun e' => (s.kernel.envs e').envLink := by
      funext e'
      by_cases hee : e' = e
      · rw [hee, hself]
      · rw [ha.envs_eq hee]
    rw [hlink, ha.freeList_eq]
    cases hchain with
    | cons hchain => exact hchain
  · by_cases hee : e' = e
    · rw [hee, status, hself]
      simp [hnd.1]
    · rw [status, ha.envs_eq hee, ← status, ← hmem e']
      simp [hee]
  · intro e' he'
    by_cases hee : e' = e
    · rw [hee, status, hself] at he'
      cases he'
    · rw [status, ha.envs_eq hee] at he'
      rw [Kernel.dirs, ha.envs_eq hee]
      exact h.dirs he'
  · obtain ⟨n, hids, hid, hpos⟩ := h.ids e'
    by_cases hee : e' = e
    · subst hee
      have hnew : (k.envs e').envId = idAt e' n := by
        rw [hself, ← envgen_latest e' n, ← hid]
      refine ⟨n + 1, ?_, hnew, fun _ => by simp⟩
      rw [List.range_succ, List.map_append, ← hids]
      simp [EnvTable.idsOf, hnew]
    · refine ⟨n, ?_, ?_, ?_⟩
      · rw [← hids]
        simp [EnvTable.idsOf, Ne.symm hee]
      · rw [← hid]
        exact congrArg Env.envId (ha.envs_eq hee)
      · rw [status, ha.envs_eq hee]
        exact hpos

theorem freed {c : Cpu} (h : Numbered s) (hf : Freed s.kernel c e k) : Numbered ⟨k, s.ids⟩ := by
  obtain ⟨l, hchain, hmem⟩ := h.list
  have hlive : s.kernel.status e ≠ .free := by
    intro hst
    obtain ⟨d, hd, -⟩ := hf.vm
    rw [h.dirs hst] at hd
    cases hd
  have hel : e ∉ l := fun hl => hlive ((hmem e).1 hl)
  have hlink : (fun e' => (k.envs e').envLink) =
      Function.update (fun e' => (s.kernel.envs e').envLink) e s.kernel.envFreeList := by
    funext e'
    by_cases hee : e' = e
    · rw [hee, Function.update_self, hf.envs_self]
    · rw [Function.update_of_ne hee, hf.envs_eq hee]
  refine ⟨⟨e :: l, ?_, fun e' => ?_⟩, ?_, fun e' => ?_⟩
  · rw [hlink, hf.freeList_eq]
    exact hchain.push hel
  · by_cases hee : e' = e
    · simp [hee, hf.status_self]
    · rw [hf.status_of_ne hee, ← hmem e']
      simp [hee]
  · intro e' he'
    by_cases hee : e' = e
    · rw [hee, Kernel.dirs, hf.envs_self]
    · rw [hf.status_of_ne hee] at he'
      rw [Kernel.dirs, hf.envs_eq hee]
      exact h.dirs he'
  · obtain ⟨n, hids, hid, hpos⟩ := h.ids e'
    by_cases hee : e' = e
    · subst hee
      exact ⟨n, hids, by rw [← hid, hf.envs_self], fun _ => hpos hlive⟩
    · refine ⟨n, hids, by rw [← hid, hf.envs_eq hee], ?_⟩
      rw [hf.status_of_ne hee]
      exact hpos

theorem envCall {call : EnvCall} (h : Numbered s) (hg : call.Admitted s)
    (hst : envCall s call = some t) : Numbered t := by
  cases call with
  | alloc parentId =>
    obtain ⟨⟨k, r⟩, halloc, hst⟩ := Option.bind_eq_some_iff.1 hst
    rcases envAlloc_cases halloc with ⟨r, rfl, rfl | ⟨m, -, rfl⟩⟩ | ⟨e, rfl, ha⟩
    · cases hst
      exact h
    · cases hst
      exact h.aside ⟨rfl, fun _ => rfl, fun _ => rfl, fun _ => rfl, fun _ => Iff.rfl⟩
    · cases hst
      exact h.allocated ha
  | free c e =>
    obtain ⟨k, hfree, rfl⟩ := Option.map_eq_some_iff.1 hst
    exact h.freed (envFree_freed hfree)
  | other k =>
    cases hst
    exact h.aside hg

theorem run {cs : List EnvCall} (h : Numbered s)
    (hr : Run Kern.envCall (fun s call => call.Admitted s) s cs t) : Numbered t :=
  hr.invariant Numbered (fun ht hg hst => ht.envCall hg hst) h

theorem id_of_live (h : Numbered s) (he : s.kernel.status e ≠ .free) :
    ∃ n, s.idsOf e = (List.range (n + 1)).map (idAt e) ∧ (s.kernel.envs e).envId = idAt e n := by
  obtain ⟨n, hids, hid, hpos⟩ := h.ids e
  cases n with
  | zero => exact absurd rfl (hpos he)
  | succ n => exact ⟨n, hids, hid⟩

theorem envid2env_iff (h : Numbered s) {c : Cpu} {id : Word} (hid : id ≠ 0) :
    envid2env s.kernel c id false = some e ↔
      s.kernel.status e ≠ .free ∧ (s.kernel.envs e).envId = id := by
  simp only [envid2env, if_neg hid, Bool.false_eq_true, false_and, if_false]
  constructor
  · intro hsome
    split at hsome
    · cases hsome
    · next hne =>
      cases hsome
      exact ⟨fun hf => hne (.inl hf), not_not.1 fun hn => hne (.inr hn)⟩
  · rintro ⟨hlive, rfl⟩
    obtain ⟨n, -, hn⟩ := h.id_of_live hlive
    rw [hn, envx_idAt, if_neg]
    rw [hn]
    simp [hlive]

theorem stale (h : Numbered s) {c : Cpu} {i : Nat} (hi : i < (s.idsOf e).length)
    (hold : s.kernel.status e = .free ∨
      i + 1 < (s.idsOf e).length ∧ (s.idsOf e).length < i + 1 + period) :
    envid2env s.kernel c (s.idsOf e)[i] false = none := by
  obtain ⟨n, hids, hid, -⟩ := h.ids e
  simp only [hids, List.length_map, List.length_range, List.getElem_map, List.getElem_range] at *
  rw [Option.eq_none_iff_forall_not_mem]
  intro e' he'
  obtain ⟨hlive, heq⟩ := (h.envid2env_iff (idAt_ne_zero e i)).1 he'
  obtain ⟨n', -, hn'⟩ := h.id_of_live hlive
  have hee : e' = e := by rw [← envx_idAt e' n', ← hn', heq, envx_idAt]
  subst hee
  rcases hold with hfree | ⟨hlt, hperiod⟩
  · exact hlive hfree
  · obtain ⟨n, rfl⟩ : ∃ n₀, n = n₀ + 1 := ⟨n - 1, by omega⟩
    rw [hid, latest, idAt_inj] at heq
    have hdvd := (Nat.modEq_iff_dvd' (by omega)).1 heq.symm
    have := Nat.le_of_dvd (by omega) hdvd
    omega

end Numbered

/-- `env_free_list` holds the free slots once each; the id of a live environment is positive
and names its slot, and no other live environment has it; the ids of one slot come around with
period `2 ^ 19 - 1`, and until then a stale one is refused. -/
theorem envIds_of_calls {M : Machine} {m : Phys} {kern : Nat} {cs : List EnvCall} {s : EnvTable}
    (hr : Run envCall (fun s call => call.Admitted s) ⟨kernStart M m kern, []⟩ cs s) :
    (∃ l, Chain (fun e => (s.kernel.envs e).envLink) s.kernel.envFreeList l ∧ l.Nodup ∧
      ∀ e, e ∈ l ↔ s.kernel.status e = .free) ∧
    (∀ e, s.kernel.status e ≠ .free →
      0 < (s.kernel.envs e).envId.toInt ∧ envx (s.kernel.envs e).envId = e) ∧
    (∀ e e', s.kernel.status e ≠ .free → s.kernel.status e' ≠ .free →
      (s.kernel.envs e).envId = (s.kernel.envs e').envId → e = e') ∧
    (∀ e i j, (hi : i < (s.idsOf e).length) → (hj : j < (s.idsOf e).length) →
      ((s.idsOf e)[i] = (s.idsOf e)[j] ↔ i ≡ j [MOD 2 ^ 19 - 1])) ∧
    (∀ c id e, id ≠ 0 → (envid2env s.kernel c id false = some e ↔
      s.kernel.status e ≠ .free ∧ (s.kernel.envs e).envId = id)) ∧
    (∀ c e i, (hi : i < (s.idsOf e).length) →
      s.kernel.status e = .free ∨
        i + 1 < (s.idsOf e).length ∧ (s.idsOf e).length < i + 1 + (2 ^ 19 - 1) →
      envid2env s.kernel c (s.idsOf e)[i] false = none) := by
  have h : Numbered s := (Numbered.start M m kern).run hr
  have hlive : ∀ e, s.kernel.status e ≠ .free →
      0 < (s.kernel.envs e).envId.toInt ∧ envx (s.kernel.envs e).envId = e := by
    intro e he
    obtain ⟨n, -, hn⟩ := h.id_of_live he
    rw [hn]
    exact ⟨idAt_pos e n, envx_idAt e n⟩
  refine ⟨?_, hlive, ?_, ?_, ?_, ?_⟩
  · obtain ⟨l, hchain, hmem⟩ := h.list
    exact ⟨l, hchain, hchain.nodup, hmem⟩
  · intro e e' he he' heq
    rw [← (hlive e he).2, ← (hlive e' he').2, heq]
  · intro e i j hi hj
    obtain ⟨n, hids, -⟩ := h.ids e
    simp only [hids, List.getElem_map, List.getElem_range]
    exact idAt_inj
  · exact fun c id e hid => h.envid2env_iff hid
  · exact fun c e i hi hold => h.stale hi hold

def twoPages : Phys where
  npages := 2
  mem := fun _ _ => 0
  ppRef := fun _ => 0
  ppLink := fun _ => none
  pageFreeList := some 1

theorem twoPages_alloc : ∃ k, envAlloc (kernStart demo twoPages 0) 0 = some (k, .ok env0) ∧
    (k.envs env0).envId = envid0 ∧ k.status env0 ≠ .free := by
  obtain ⟨hphys, hkern, -, -, hchain, hunused⟩ := kernStart_spec demo twoPages 0
  have hhead : (kernStart demo twoPages 0).envFreeList = some env0 := by
    rw [hchain.head_eq, List.head?_eq_getElem?, List.getElem?_eq_getElem (by simp; decide)]
    simp
    rfl
  obtain ⟨link, hv⟩ := hunused env0
  generalize kernStart demo twoPages 0 = k at *
  obtain ⟨m, d, hvm⟩ : ∃ m d, envSetupVm k.toPhys k.kernPgdir = some (m, some d) := by
    rw [hphys, hkern]
    exact ⟨_, _, rfl⟩
  obtain ⟨k', halloc⟩ := envAlloc_some hhead hvm 0
  rcases envAlloc_cases halloc with ⟨_, hr, -⟩ | ⟨_, ⟨⟩, ha⟩
  · cases hr
  obtain ⟨d, hself⟩ := ha.envs_self
  refine ⟨k', halloc, ?_, ?_⟩
  · rw [hself]
    change envgen (k.envs env0).envId env0 = envid0
    rw [hv]
    change envgen 0 env0 = envid0
    decide
  · rw [status, hself]
    simp

theorem envIds_of_one_alloc : ∃ s : EnvTable,
    Run envCall (fun s call => call.Admitted s) ⟨kernStart demo twoPages 0, []⟩ [.alloc 0] s ∧
      s.kernel.status env0 ≠ .free ∧ envid2env s.kernel bootcpu envid0 false = some env0 := by
  obtain ⟨k, halloc, hid, hlive⟩ := twoPages_alloc
  have hstep : envCall ⟨kernStart demo twoPages 0, []⟩ (.alloc 0) =
      some ⟨k, [(env0, (k.envs env0).envId)]⟩ := by
    simp only [envCall, halloc]
    rfl
  have hr : Run envCall (fun s call => call.Admitted s) ⟨kernStart demo twoPages 0, []⟩ [.alloc 0]
      ⟨k, [(env0, (k.envs env0).envId)]⟩ := .single trivial hstep
  exact ⟨_, hr, hlive, ((envIds_of_calls hr).2.2.2.2.1 bootcpu envid0 env0 (by decide)).2
    ⟨hlive, hid⟩⟩

end Jos.Kern
