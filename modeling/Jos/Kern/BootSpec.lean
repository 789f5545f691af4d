import Jos.Kern.MemInit
import Jos.Kern.UserMem

/-! What `boot_map_region` does to the translations of `kern_pgdir`. -/

namespace Jos.Kern

open Lib Phys

/-- A directory in page `d` whose tables are pages of their own, with the free pages `l`.  It is
its own table in the slot of `UVPT`. -/
structure Dir (m : Phys) (d : Nat) (l : List Nat) : Prop where
  npages_le : m.npages ≤ 2 ^ 20
  chain : Chain m.ppLink m.pageFreeList l
  free_lt : ∀ {p}, p ∈ l → p < m.npages
  notMem : d ∉ l
  uvpt : present (m.mem d 957) = some d
  table : ∀ {i t}, i < 1024 → i ≠ 957 → present (m.mem d i) = some t →
    t < m.npages ∧ t ∉ l ∧ t ≠ d
  inj : ∀ {i i' t}, i < 1024 → i' < 1024 → i ≠ 957 → i' ≠ 957 → present (m.mem d i) = some t →
    present (m.mem d i') = some t → i = i'

theorem BootMap.dir {s : Setup} {m : Phys} {l : List Nat} (h : BootMap s m l) : Dir m s.kern l where
  npages_le := by
    have := s.npages_le
    rw [h.npages_eq]
    omega
  chain := h.chain
  free_lt hp := by
    rw [h.npages_eq]
    exact s.lt (h.sub hp)
  notMem hk := s.kern_notMem (h.sub hk)
  uvpt := h.uvpt
  table {i t} hi hne ht := by
    by_cases hlow : i < 955
    · rw [h.low hlow, present_zero] at ht
      cases ht
    · obtain ⟨htp, htl, -⟩ := h.table_mem ⟨by omega, hi, hne⟩ ht
      rw [h.npages_eq]
      exact ⟨s.lt htp, htl, fun heq => s.kern_notMem (heq ▸ htp)⟩
  inj {i i' t} hi hi' hne hne' ht ht' := by
    by_cases hlow : i < 955
    · rw [h.low hlow, present_zero] at ht
      cases ht
    by_cases hlow' : i' < 955
    · rw [h.low hlow', present_zero] at ht'
      cases ht'
    exact h.inj ⟨by omega, hi, hne⟩ ⟨by omega, hi', hne'⟩ ht ht'

variable {m m' : Phys} {d t pp : Nat} {l : List Nat} {va x : Word}

theorem mmuWalk_eq (m : Phys) (d : Nat) (x : Word) :
    mmuWalk m d x = (present (m.mem d (pdx x))).bind fun t =>
      (present (m.mem t (ptx x))).map fun _ => (m.mem d (pdx x), m.mem t (ptx x)) := by
  rw [mmuWalk]
  by_cases hd : m.mem d (pdx x) &&& pteP = 0
  · rw [if_pos hd, present_eq_none_iff.mpr hd]
    rfl
  · rw [if_neg hd, present_eq_some_iff.mpr ⟨hd, rfl⟩, Option.bind_some]
    by_cases ht : m.mem (pgnum (m.mem d (pdx x))) (ptx x) &&& pteP = 0
    · rw [if_pos ht, present_eq_none_iff.mpr ht]
      rfl
    · rw [if_neg ht, present_eq_some_iff.mpr ⟨ht, rfl⟩]
      rfl

theorem mmuWalk_of_table (ht : present (m.mem d (pdx x)) = some t) :
    mmuWalk m d x = (present (m.mem t (ptx x))).map fun _ => (m.mem d (pdx x), m.mem t (ptx x)) := by
  rw [mmuWalk_eq, ht, Option.bind_some]

theorem mmuWalk_of_none (ht : present (m.mem d (pdx x)) = none) : mmuWalk m d x = none := by
  rw [mmuWalk_eq, ht, Option.bind_none]

theorem mmuWalk_congr (hd : m'.mem d (pdx x) = m.mem d (pdx x))
    (ht : ∀ t, present (m.mem d (pdx x)) = some t → m'.mem t (ptx x) = m.mem t (ptx x)) :
    mmuWalk m' d x = mmuWalk m d x := by
  cases hp : present (m.mem d (pdx x)) with
  | none => rw [mmuWalk_of_none hp, mmuWalk_of_none (by rw [hd, hp])]
  | some t => rw [mmuWalk_of_table hp, mmuWalk_of_table (t := t) (by rw [hd, hp]), hd, ht t hp]

namespace Dir

theorem lt_twoPow (h : Dir m d l) {p : Nat} (hp : p ∈ l) : p < 2 ^ 20 :=
  Nat.lt_of_lt_of_le (h.free_lt hp) h.npages_le

theorem store (h : Dir m d l) {i j : Nat} {w : Word} (hi : i < 1024) (hne : i ≠ 957)
    (ht : present (m.mem d i) = some t) : Dir (m.store t j w) d l := by
  have hd : (m.store t j w).mem d = m.mem d := mem_store_of_ne _ _ _ (h.table hi hne ht).2.2.symm
  refine ⟨h.npages_le, h.chain, h.free_lt, h.notMem, ?_, ?_, ?_⟩
  · rw [hd]
    exact h.uvpt
  · intro i' t' hi' hne' ht'
    rw [hd] at ht'
    exact h.table hi' hne' ht'
  · intro i₁ i₂ t' h₁ h₂ hne₁ hne₂ ht₁ ht₂
    rw [hd] at ht₁ ht₂
    exact h.inj h₁ h₂ hne₁ hne₂ ht₁ ht₂

theorem walk_store (h : Dir m d l) (hne : pdx va ≠ 957) (ht : present (m.mem d (pdx va)) = some t)
    {w : Word} : (pdx x = pdx va → ptx x = ptx va → w &&& pteP ≠ 0 →
        mmuWalk (m.store t (ptx va) w) d x = some (m.mem d (pdx va), w)) ∧
      (pdx x ≠ pdx va ∨ ptx x ≠ ptx va → mmuWalk (m.store t (ptx va) w) d x = mmuWalk m d x) := by
  have htd := h.table (pdx_lt va) hne ht
  have hd : (m.store t (ptx va) w).mem d = m.mem d := mem_store_of_ne _ _ _ htd.2.2.symm
  constructor
  · intro hpd hpt hw
    rw [mmuWalk_of_table (t := t) (by rw [hd, hpd, ht]), hd, hpd, hpt, mem_store_self, if_pos rfl,
      present_eq_some_iff.mpr ⟨hw, rfl⟩]
    rfl
  · intro hx
    refine mmuWalk_congr (by rw [hd]) fun t' ht' => ?_
    by_cases htt : t' = t
    · subst htt
      rw [mem_store_self, if_neg]
      intro hpt
      by_cases hx957 : pdx x = 957
      · rw [hx957, h.uvpt] at ht'
        exact htd.2.2 (Option.some.inj ht').symm
      · exact hx.elim (fun hpd => hpd (h.inj (pdx_lt x) (pdx_lt va) hx957 hne ht' ht))
          fun hp => hp hpt
    · rw [mem_store_of_ne _ _ _ htt]

theorem walk_uvpt (h : Dir m d l) (hx : pdx x = 957) :
    mmuWalk m d x = (present (m.mem d (ptx x))).map fun _ => (m.mem d 957, m.mem d (ptx x)) := by
  rw [mmuWalk_of_table (t := d) (by rw [hx, h.uvpt]), hx]

def giveTable (m : Phys) (d i pp : Nat) (r : BitVec 16) : Phys :=
  (((m.unlink pp).clear pp).setRef pp r).store d i (pdeWord pp)

theorem mem_giveTable_of_ne {i p : Nat} {r : BitVec 16} (hd : p ≠ d) (hp : p ≠ pp) :
    (giveTable m d i pp r).mem p = m.mem p := by
  rw [giveTable, mem_store_of_ne _ _ _ hd]
  exact mem_clear_of_ne _ hp

section Give

variable {i : Nat} {r : BitVec 16} (h : Dir m d (pp :: l)) (hi : i < 1024) (hne : i ≠ 957)
  (h0 : present (m.mem d i) = none)

include h

theorem mem_giveTable_dir (j : Nat) :
    (giveTable m d i pp r).mem d j = if j = i then pdeWord pp else m.mem d j := by
  have hdp : d ≠ pp := fun heq => h.notMem (heq ▸ List.mem_cons_self)
  rw [giveTable, mem_store_self]
  split
  · rfl
  · exact congrFun (mem_clear_of_ne _ hdp) j

theorem mem_giveTable_new (j : Nat) : (giveTable m d i pp r).mem pp j = 0 := by
  have hdp : pp ≠ d := fun heq => h.notMem (heq ▸ List.mem_cons_self)
  rw [giveTable, mem_store_of_ne _ _ _ hdp]
  exact mem_clear_self _ _ _

theorem present_giveTable : present ((giveTable m d i pp r).mem d i) = some pp := by
  rw [h.mem_giveTable_dir, if_pos rfl, present_pdeWord (h.lt_twoPow List.mem_cons_self)]

include hne

theorem dir_giveTable : Dir (giveTable m d i pp r) d l := by
  have hnd := List.nodup_cons.mp h.chain.nodup
  have hhead : m.pageFreeList = some pp := h.chain.head_eq
  have hold : ∀ {j t}, j < 1024 → j ≠ 957 → j ≠ i →
      present ((giveTable m d i pp r).mem d j) = some t →
      present (m.mem d j) = some t ∧ t ≠ pp := by
    intro j t hj hj957 hji ht
    rw [h.mem_giveTable_dir, if_neg hji] at ht
    exact ⟨ht, fun heq => (h.table hj hj957 ht).2.1 (heq ▸ List.mem_cons_self)⟩
  refine ⟨h.npages_le, ?_, fun hp => h.free_lt (List.mem_cons_of_mem _ hp),
    fun hd => h.notMem (List.mem_cons_of_mem _ hd), ?_, ?_, ?_⟩
  · have hc := h.chain
    rw [hhead] at hc
    exact hc.pop
  · rw [h.mem_giveTable_dir, if_neg (Ne.symm hne)]
    exact h.uvpt
  · intro j t hj hj957 ht
    by_cases hji : j = i
    · subst hji
      rw [h.present_giveTable] at ht
      obtain rfl := Option.some.inj ht
      exact ⟨h.free_lt List.mem_cons_self, hnd.1, fun heq => h.notMem (heq ▸ List.mem_cons_self)⟩
    · obtain ⟨ht, -⟩ := hold hj hj957 hji ht
      obtain ⟨hlt, htl, htd⟩ := h.table hj hj957 ht
      exact ⟨hlt, fun hm => htl (List.mem_cons_of_mem _ hm), htd⟩
  · intro j j' t hj hj' hj957 hj957' ht ht'
    by_cases hji : j = i <;> by_cases hji' : j' = i
    · rw [hji, hji']
    · subst hji
      rw [h.present_giveTable] at ht
      exact absurd (Option.some.inj ht).symm (hold hj' hj957' hji' ht').2
    · subst hji'
      rw [h.present_giveTable] at ht'
      exact absurd (Option.some.inj ht').symm (hold hj hj957 hji ht).2
    · exact h.inj hj hj' hj957 hj957' (hold hj hj957 hji ht).1 (hold hj' hj957' hji' ht').1

include h0

theorem walk_giveTable (hx : pdx x ≠ 957) :
    mmuWalk (giveTable m d i pp r) d x = mmuWalk m d x := by
  by_cases hxi : pdx x = i
  · subst hxi
    rw [mmuWalk_of_none h0, mmuWalk_of_table h.present_giveTable, h.mem_giveTable_new, present_zero]
    rfl
  · refine mmuWalk_congr (by rw [h.mem_giveTable_dir, if_neg hxi]) fun t ht => ?_
    obtain ⟨-, htl, htd⟩ := h.table (pdx_lt x) hx ht
    rw [mem_giveTable_of_ne htd fun heq => htl (heq ▸ List.mem_cons_self)]

end Give

end Dir

structure Round (d : Nat) (va w : Word) (m m' : Phys) : Prop where
  npages : m'.npages = m.npages
  here : ∀ x, pdx x = pdx va → ptx x = ptx va → ∃ pde, mmuWalk m' d x = some (pde, w)
  other : ∀ x, pdx x ≠ 957 → pdx x ≠ pdx va ∨ ptx x ≠ ptx va → mmuWalk m' d x = mmuWalk m d x
  slot : ∀ i, i ≠ pdx va ∨ present (m.mem d i) ≠ none → m'.mem d i = m.mem d i
  made : present (m'.mem d (pdx va)) ≠ none

namespace Dir

theorem kaddr_table (h : Dir m d l) (hne : pdx va ≠ 957) (ht : present (m.mem d (pdx va)) = some t) :
    m.kaddr (pteAddr (m.mem d (pdx va))) = some t := by
  have hp : pgnum (pteAddr (m.mem d (pdx va))) = t := by
    rw [pgnum_pteAddr]
    exact (present_eq_some_iff.mp ht).2
  rw [kaddr_eq (by rw [hp]; exact (h.table (pdx_lt va) hne ht).1), hp]

theorem pgdirWalk_some (h : Dir m d l) (hne : pdx va ≠ 957)
    (ht : present (m.mem d (pdx va)) = some t) (create : Bool) :
    pgdirWalk m (some d) va create = some (m, some (t, ptx va)) := by
  rw [pgdirWalk, Option.bind_eq_bind, Option.bind_some, if_neg (present_eq_some_iff.mp ht).1,
    h.kaddr_table hne ht]
  rfl

theorem pgdirWalk_new (h : Dir m d (pp :: l)) (hne : pdx va ≠ 957)
    (h0 : present (m.mem d (pdx va)) = none) :
    pgdirWalk m (some d) va true =
      some (giveTable m d (pdx va) pp (m.ppRef pp + 1), some (pp, ptx va)) := by
  have halloc := pageAlloc_head h.chain.head_eq (h.free_lt List.mem_cons_self) h.npages_le true
  have hkaddr := (h.dir_giveTable (r := m.ppRef pp + 1) hne).kaddr_table hne h.present_giveTable
  simp only [pgdirWalk, Option.bind_eq_bind, Option.bind_some, present_eq_none_iff.mp h0, if_true,
    Bool.not_true, Bool.false_eq_true, if_false, halloc]
  exact (congrArg (Option.bind · _) hkaddr).trans rfl

theorem pgdirWalk_full (h : Dir m d []) (h0 : present (m.mem d (pdx va)) = none) :
    pgdirWalk m (some d) va true = some (m, none) := by
  have hl : m.pageFreeList = none := h.chain.head_eq
  rw [pgdirWalk, Option.bind_eq_bind, Option.bind_some, if_pos (present_eq_none_iff.mp h0), pageAlloc, hl]
  rfl

theorem round (h : Dir m d l) (hne : pdx va ≠ 957) {w : Word} (hw : w &&& pteP ≠ 0)
    (ht : present (m.mem d (pdx va)) = some t) : Round d va w m (m.store t (ptx va) w) where
  npages := rfl
  here x hpd hpt := ⟨_, (h.walk_store hne ht).1 hpd hpt hw⟩
  other x _ hx := (h.walk_store hne ht).2 hx
  slot i _ := congrFun (mem_store_of_ne _ _ _ (h.table (pdx_lt va) hne ht).2.2.symm) i
  made := by
    rw [mem_store_of_ne _ _ _ (h.table (pdx_lt va) hne ht).2.2.symm, ht]
    exact Option.some_ne_none t

theorem bootMapStep (h : Dir m d l) {pa perm : Word} {i : Nat}
    (hne : pdx (va + BitVec.ofNat 32 i * pgsize) ≠ 957)
    (hst : bootMapStep d va pa perm m i = some m') :
    ∃ l', Dir m' d l' ∧ Round d (va + BitVec.ofNat 32 i * pgsize)
      ((pa + BitVec.ofNat 32 i * pgsize) ||| perm ||| pteP) m m' := by
  have hw : ((pa + BitVec.ofNat 32 i * pgsize) ||| perm ||| pteP) &&& pteP ≠ 0 := by
    rw [or_and_distrib, BitVec.and_self]
    intro h0
    exact absurd (BitVec.or_eq_zero_iff.mp h0).2 (by decide)
  cases ht : present (m.mem d (pdx (va + BitVec.ofNat 32 i * pgsize))) with
  | some t =>
    rw [Kern.bootMapStep, h.pgdirWalk_some hne ht] at hst
    obtain rfl := Option.some.inj hst
    exact ⟨l, h.store (pdx_lt _) hne ht, h.round hne hw ht⟩
  | none =>
    cases l with
    | nil =>
      rw [Kern.bootMapStep, h.pgdirWalk_full ht] at hst
      cases hst
    | cons pp l =>
      rw [Kern.bootMapStep, h.pgdirWalk_new hne ht] at hst
      obtain rfl := Option.some.inj hst
      have hg := h.dir_giveTable (r := m.ppRef pp + 1) hne
      have hr := hg.round hne hw h.present_giveTable
      refine ⟨l, hg.store (pdx_lt _) hne h.present_giveTable, rfl, hr.here, fun x hx hxv => ?_,
        fun j hj => ?_, hr.made⟩
      · rw [hr.other x hx hxv, h.walk_giveTable hne ht hx]
      · have hj' : j ≠ pdx (va + BitVec.ofNat 32 i * pgsize) := by
          rintro rfl
          exact hj.elim (fun hn => hn rfl) fun hn => hn ht
        rw [hr.slot j (.inl hj'), h.mem_giveTable_dir, if_neg hj']

end Dir

theorem same_page_iff {x y : Word} :
    pdx x = pdx y ∧ ptx x = ptx y ↔ x.toNat / 4096 = y.toNat / 4096 := by
  rw [pdx_eq, pdx_eq, ptx_eq, ptx_eq]
  omega

/-- `n` pages from `va` on have been given entries for the pages from `pa` on. -/
structure Region (d : Nat) (va : Word) (n : Nat) (pa perm : Word) (m m' : Phys) : Prop where
  npages : m'.npages = m.npages
  here : ∀ i < n, ∀ x : Word, x.toNat / 4096 = va.toNat / 4096 + i →
    ∃ pde, mmuWalk m' d x = some (pde, (pa + BitVec.ofNat 32 i * pgsize) ||| perm ||| pteP)
  other : ∀ x : Word, pdx x ≠ 957 → (∀ i < n, x.toNat / 4096 ≠ va.toNat / 4096 + i) →
    mmuWalk m' d x = mmuWalk m d x
  slot : ∀ j, (∀ i < n, j ≠ pdx (va + BitVec.ofNat 32 i * pgsize)) ∨ present (m.mem d j) ≠ none →
    m'.mem d j = m.mem d j
  made : ∀ i < n, present (m'.mem d (pdx (va + BitVec.ofNat 32 i * pgsize))) ≠ none

section Region

variable {n : Nat} {pa perm : Word} {m'' : Phys}

theorem Region.refl : Region d va 0 pa perm m m :=
  ⟨rfl, fun _ h => absurd h (Nat.not_lt_zero _), fun _ _ _ => rfl, fun _ _ => rfl,
    fun _ h => absurd h (Nat.not_lt_zero _)⟩

/-- The pages of a region that does not wrap and stays clear of `UVPT`. -/
structure Clear (va : Word) (n : Nat) : Prop where
  end_le : va.toNat + n * 4096 ≤ 2 ^ 32
  ne_uvpt : ∀ i < n, pdx (va + BitVec.ofNat 32 i * pgsize) ≠ 957

theorem Clear.mono {k : Nat} (h : Clear va n) (hk : k ≤ n) : Clear va k where
  end_le := (Nat.add_le_add_left (Nat.mul_le_mul_right 4096 hk) _).trans h.end_le
  ne_uvpt i hi := h.ne_uvpt i (Nat.lt_of_lt_of_le hi hk)

theorem Clear.toNat (h : Clear va n) {i : Nat} (hi : i < n) :
    (va + BitVec.ofNat 32 i * pgsize).toNat = va.toNat + i * 4096 := by
  have := h.end_le
  exact toNat_add_page (by omega)

theorem Clear.pdx_eq (h : Clear va n) {i : Nat} (hi : i < n)
    (hx : x.toNat / 4096 = va.toNat / 4096 + i) : pdx x = pdx (va + BitVec.ofNat 32 i * pgsize) := by
  refine (same_page_iff.mpr ?_).1
  rw [h.toNat hi]
  omega

theorem Region.snoc (h : Region d va n pa perm m m') (hc : Clear va (n + 1))
    (hr : Round d (va + BitVec.ofNat 32 n * pgsize)
      ((pa + BitVec.ofNat 32 n * pgsize) ||| perm ||| pteP) m' m'') :
    Region d va (n + 1) pa perm m m'' := by
  have hn := hc.toNat (Nat.lt_succ_self n)
  have hpage : ∀ x : Word, (pdx x ≠ pdx (va + BitVec.ofNat 32 n * pgsize) ∨
      ptx x ≠ ptx (va + BitVec.ofNat 32 n * pgsize)) ↔ x.toNat / 4096 ≠ va.toNat / 4096 + n := by
    intro x
    rw [← not_and_or, same_page_iff, hn]
    omega
  refine ⟨hr.npages.trans h.npages, fun i hi x hx => ?_, fun x hx hxn => ?_, fun j hj => ?_,
    fun i hi => ?_⟩
  · by_cases hin : i = n
    · subst hin
      have hsame := same_page_iff.mpr (show x.toNat / 4096 =
        (va + BitVec.ofNat 32 i * pgsize).toNat / 4096 by omega)
      exact hr.here x hsame.1 hsame.2
    · obtain ⟨pde, hw⟩ := h.here i (by omega) x hx
      have hx957 : pdx x ≠ 957 := by
        rw [hc.pdx_eq hi hx]
        exact hc.ne_uvpt i hi
      exact ⟨pde, (hr.other x hx957 ((hpage x).mpr (by omega))).trans hw⟩
  · rw [hr.other x hx ((hpage x).mpr (hxn n (Nat.lt_succ_self n))),
      h.other x hx fun i hi => hxn i (Nat.lt_succ_of_lt hi)]
  · have hj' : (∀ i < n, j ≠ pdx (va + BitVec.ofNat 32 i * pgsize)) ∨ present (m.mem d j) ≠ none :=
      hj.imp (fun hall i hi => hall i (Nat.lt_succ_of_lt hi)) id
    have hold := h.slot j hj'
    rw [hr.slot j, hold]
    rw [hold]
    exact hj.imp (fun hall => hall n (Nat.lt_succ_self n)) id
  · by_cases hin : i = n
    · subst hin
      exact hr.made
    · have hi' : i < n := by omega
      rw [hr.slot _ (.inr (h.made i hi'))]
      exact h.made i hi'

theorem Dir.bootMapRounds (h : Dir m d l) (hc : Clear va n)
    (hst : (List.range n).foldlM (Kern.bootMapStep d va pa perm) m = some m') :
    (∃ l', Dir m' d l') ∧ Region d va n pa perm m m' := by
  have hstep : ∀ i m₁ m₂, i < n → (∃ l', Dir m₁ d l') ∧ Region d va i pa perm m m₁ →
      Kern.bootMapStep d va pa perm m₁ i = some m₂ →
      (∃ l', Dir m₂ d l') ∧ Region d va (i + 1) pa perm m m₂ := by
    rintro i m₁ m₂ hi ⟨⟨l₁, h₁⟩, hr⟩ hst
    obtain ⟨l₂, h₂, hround⟩ := h₁.bootMapStep (hc.ne_uvpt i hi) hst
    exact ⟨⟨l₂, h₂⟩, hr.snoc (hc.mono hi) hround⟩
  have h0 : (∃ l', Dir m d l') ∧ Region d va 0 pa perm m m := ⟨⟨l, h⟩, .refl⟩
  exact foldlM_range_keeps _ hstep hst h0

theorem Dir.bootMapRegion (h : Dir m d l) {size : Word} (hc : Clear va (size.toNat / 4096))
    (hst : bootMapRegion m d va size pa perm = some m') :
    (∃ l', Dir m' d l') ∧ Region d va (size.toNat / 4096) pa perm m m' := by
  have hn : (size / pgsize).toNat = size.toNat / 4096 := by rw [BitVec.toNat_udiv, toNat_pgsize]
  rw [Kern.bootMapRegion, hn] at hst
  exact h.bootMapRounds hc hst

end Region

end Jos.Kern
