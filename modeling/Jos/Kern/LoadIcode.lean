import Jos.Kern.Boot
import Jos.Kern.WriteSpec
import Jos.Lib.Fold

/-! `region_alloc` and `load_icode`: the address space of an environment made at start-up. -/

namespace Jos.Kern

open Lib Phys

def Unshared {R : Type} (f : R → Option Nat) : Prop :=
  ∀ ⦃r r' p⦄, f r = some p → f r' = some p → r = r'

theorem Unshared.update {R : Type} [DecidableEq R] {f : R → Option Nat} (h : Unshared f) {r : R}
    {p : Nat} (hp : ∀ r', f r' ≠ some p) : Unshared (Function.update f r (some p)) := by
  intro r₁ r₂ q h₁ h₂
  by_cases e₁ : r₁ = r <;> by_cases e₂ : r₂ = r
  · rw [e₁, e₂]
  · rw [e₁, Function.update_self] at h₁
    rw [Function.update_of_ne e₂, ← h₁] at h₂
    exact absurd h₂ (hp r₂)
  · rw [e₂, Function.update_self] at h₂
    rw [Function.update_of_ne e₁, ← h₂] at h₁
    exact absurd h₁ (hp r₁)
  · rw [Function.update_of_ne e₁] at h₁
    rw [Function.update_of_ne e₂] at h₂
    exact h h₁ h₂

theorem Unshared.refCount_le {R : Type} [Fintype R] [DecidableEq R] {f : R → Option Nat}
    (h : Unshared f) (p : Nat) : refCount f p ≤ 1 := by
  refine Finset.card_le_one.2 ?_
  intro r hr r' hr'
  exact h (Finset.mem_filter.1 hr).2 (Finset.mem_filter.1 hr').2

structure Grown (b : Base) (ds : Dirs) (e : EnvIx) (m m' : Phys) (l' : List Nat) : Prop where
  spaces : Spaces b m' ds ∅ l'
  unshared : Unshared (target m' ds)
  entry_eq : ∀ {e'}, e' ≠ e → entry m' ds e' = entry m ds e'

section

variable {b : Base} {ds : Dirs} {e : EnvIx} {d : Nat} {m m' m'' : Phys} {l l' l'' : List Nat}

theorem Grown.refl (h : Spaces b m ds ∅ l) (hu : Unshared (target m ds)) : Grown b ds e m m l :=
  ⟨h, hu, fun _ => rfl⟩

theorem Grown.trans (h : Grown b ds e m m' l') (h' : Grown b ds e m' m'' l'') :
    Grown b ds e m m'' l'' :=
  ⟨h'.spaces, h'.unshared, fun he => (h'.entry_eq he).trans (h.entry_eq he)⟩

theorem Spaces.regionAllocStep (h : Spaces b m ds ∅ l) (hu : Unshared (target m ds))
    (hd : ds e = some d) {start : Word} {i : Nat}
    (hva : start + BitVec.ofNat 32 i * pgsize < utop) :
    (l.length < 2 ∧ regionAllocStep (some d) start m i = none) ∨
    ∃ m' l' pp, regionAllocStep (some d) start m i = some m' ∧ Grown b ds e m m' l' ∧
      l.length ≤ l'.length + 2 ∧
      entry m' ds e (dirIx _ hva) (tabIx (start + BitVec.ofNat 32 i * pgsize)) =
        page2pa pp ||| (pteW ||| pteU) ||| pteP ∧
      target m' ds (.pte e (dirIx _ hva) (tabIx (start + BitVec.ofNat 32 i * pgsize))) =
        some pp := by
  cases l with
  | nil =>
    refine .inl ⟨by decide, ?_⟩
    rw [Kern.regionAllocStep, h.pageAlloc_nil false]
    rfl
  | cons pp l =>
    have halloc := h.pageAlloc_cons false
    have h1 := h.unlink
    obtain ⟨hpool, -, -⟩ := h.free.mem_pool_of_head
    have hfresh : ∀ r, target (m.unlink pp) ds r ≠ some pp := by
      rw [target_unlink]
      exact h.free.target_ne List.mem_cons_self
    have hnl : pp ∉ l := (List.nodup_cons.1 h.free.chain.nodup).1
    have hcount : ∀ q, refCount (target (m.unlink pp) ds) q ≤ 65535 := by
      intro q
      rw [target_unlink]
      exact (hu.refCount_le q).trans (by decide)
    have hU : (pteW ||| pteU) &&& pteU ≠ 0 := by decide
    rcases h1.pageInsert hd hva hpool hnl (fun r _ => hfresh r) (by decide) hU
      (fun q _ => hcount q) with ⟨rfl, -, heq⟩ | ⟨m', l', heq, hsp, hlen, hins⟩
    · refine .inl ⟨by simp, ?_⟩
      simp only [Kern.regionAllocStep, halloc, Option.bind_eq_bind, Option.bind_some,
        Bool.false_eq_true, if_false, heq]
      rfl
    · refine .inr ⟨m', l', pp, ?_, ⟨?_, ?_, ?_⟩, ?_, ?_, ?_⟩
      · simp only [Kern.regionAllocStep, halloc, Option.bind_eq_bind, Option.bind_some,
          Bool.false_eq_true, if_false, heq]
        rfl
      · rwa [Set.insert_sdiff_self_of_notMem (Set.notMem_empty pp)] at hsp
      · obtain ⟨f, hf, htgt⟩ := hins.target_eq
        rw [target_unlink] at hf
        rw [htgt]
        rcases hf with rfl | ⟨t, ht, rfl⟩
        · exact hu.update (h.free.target_ne List.mem_cons_self)
        · refine (hu.update (h.free.target_ne (List.mem_cons_of_mem _ ht))).update ?_
          intro r hr
          by_cases hrr : r = .pde e (dirIx _ hva)
          · rw [hrr, Function.update_self] at hr
            cases hr
            exact hnl ht
          · rw [Function.update_of_ne hrr] at hr
            exact h.free.target_ne List.mem_cons_self r hr
      · intro e' he
        funext i' j'
        rw [hins.entry_eq, if_neg (fun hc => he hc.1)]
        rfl
      · rw [List.length_cons]
        omega
      · rw [hins.entry_eq, if_pos ⟨rfl, rfl, rfl⟩]
      · obtain ⟨f, -, htgt⟩ := hins.target_eq
        rw [htgt, Function.update_self]

theorem region_lt {va len : Word} (h : va.toNat + len.toNat ≤ utop.toNat) {i : Nat}
    (hi : i < ((roundUp (va + len) pgsize - roundDown va pgsize) / pgsize).toNat) :
    roundDown va pgsize + BitVec.ofNat 32 i * pgsize < utop := by
  rw [toNat_utop] at h
  have hup : (roundUp (va + len) pgsize).toNat = (va.toNat + len.toNat + 4095) / 4096 * 4096 := by
    rw [toNat_roundUp, BitVec.toNat_add]
    omega
  have hle : roundDown va pgsize ≤ roundUp (va + len) pgsize := by
    rw [BitVec.le_def, toNat_roundDown, hup]
    omega
  rw [BitVec.toNat_udiv, BitVec.toNat_sub_of_le hle, toNat_pgsize, hup, toNat_roundDown] at hi
  rw [BitVec.lt_def, toNat_utop, toNat_add_page] <;> rw [toNat_roundDown] <;> omega

theorem Spaces.regionAlloc (h : Spaces b m ds ∅ l) (hu : Unshared (target m ds))
    (hd : ds e = some d) {va len : Word} (hva : va.toNat + len.toNat ≤ utop.toNat)
    (hm : regionAlloc (some d) va len m = some m') : ∃ l', Grown b ds e m m' l' := by
  refine foldlM_keeps (P := fun m' => ∃ l', Grown b ds e m m' l') ?_ hm ⟨l, .refl h hu⟩
  rintro i m₁ m₂ hi ⟨l₁, g₁⟩ hst
  rcases g₁.spaces.regionAllocStep g₁.unshared hd (region_lt hva (List.mem_range.1 hi)) with
    ⟨-, hn⟩ | ⟨m₃, l₃, _, hst', g₂, -⟩
  · rw [hn] at hst
    cases hst
  · rw [hst'] at hst
    cases hst
    exact ⟨l₃, g₁.trans g₂⟩

theorem Spaces.loadSegment (h : Spaces b m ds ∅ l) (hu : Unshared (target m ds))
    (hd : ds e = some d) {s : Segment} (hm : loadSegment d m s = some m') :
    ∃ l', Grown b ds e m m' l' := by
  rw [Kern.loadSegment] at hm
  obtain ⟨m₁, h₁, hm⟩ := Option.bind_eq_some_iff.1 hm
  have hbelow := s.below
  have hsz : (BitVec.ofNat 32 s.memsz).toNat = s.memsz := by
    rw [toNat_utop] at hbelow
    rw [BitVec.toNat_ofNat]
    omega
  obtain ⟨l₁, g₁⟩ := h.regionAlloc hu hd (by rw [hsz]; exact hbelow) h₁
  split at hm
  · cases hm
  · next m₂ hcopy =>
    cases hm
    have hlt : s.va < ulim := by
      rw [BitVec.lt_def, toNat_ulim]
      rw [toNat_utop] at hbelow
      omega
    have hdata := g₁.spaces.copyOut hd
      (s.data ++ List.replicate (s.memsz - s.data.length) 0) hlt
    rw [hcopy] at hdata
    refine ⟨l₁, hdata.spaces, ?_, ?_⟩
    · rw [hdata.target_eq]
      exact g₁.unshared
    · intro e' he
      rw [← g₁.entry_eq he, hdata.entry_eq]

def stackVa : Word := ustacktop - pgsize

theorem stackVa_lt : stackVa < utop := by decide

/-- The page at the top of the stack of `e` is mapped there and open to user code. -/
def HasStack (m : Phys) (ds : Dirs) (e : EnvIx) : Prop :=
  ∃ pp, entry m ds e (dirIx stackVa stackVa_lt) (tabIx stackVa) =
      page2pa pp ||| (pteW ||| pteU) ||| pteP ∧
    target m ds (.pte e (dirIx stackVa stackVa_lt) (tabIx stackVa)) = some pp

theorem HasStack.congr {ds' : Dirs} (h : HasStack m ds e) (he : entry m' ds' e = entry m ds e) :
    HasStack m' ds' e := by
  obtain ⟨pp, hent, htgt⟩ := h
  rw [target] at htgt
  refine ⟨pp, ?_, ?_⟩
  · rw [he, hent]
  · rw [target, he, htgt]

theorem regionAlloc_stack (d : Nat) (m : Phys) :
    regionAlloc (some d) stackVa pgsize m = Kern.regionAllocStep (some d) stackVa m 0 := by
  have hn : ((roundUp (stackVa + pgsize) pgsize - roundDown stackVa pgsize) / pgsize).toNat = 1 := by
    decide
  have hd : roundDown stackVa pgsize = stackVa := by decide
  change (List.range ((roundUp (stackVa + pgsize) pgsize - roundDown stackVa pgsize) /
    pgsize).toNat).foldlM (Kern.regionAllocStep (some d) (roundDown stackVa pgsize)) m = _
  rw [hn, hd]
  change (Kern.regionAllocStep (some d) stackVa m 0).bind some = _
  cases Kern.regionAllocStep (some d) stackVa m 0 <;> rfl

theorem Spaces.stack (h : Spaces b m ds ∅ l) (hu : Unshared (target m ds)) (hd : ds e = some d) :
    (l.length < 2 ∧ Kern.regionAlloc (some d) stackVa pgsize m = none) ∨
    ∃ m' l', Kern.regionAlloc (some d) stackVa pgsize m = some m' ∧ Grown b ds e m m' l' ∧
      l.length ≤ l'.length + 2 ∧ HasStack m' ds e := by
  have hlt : stackVa + BitVec.ofNat 32 0 * pgsize < utop := stackVa_lt
  rw [regionAlloc_stack]
  rcases h.regionAllocStep hu hd hlt with hn | ⟨m', l', pp, hst, hg, hlen, hent, htgt⟩
  · exact .inl hn
  · exact .inr ⟨m', l', hst, hg, hlen, pp, hent, htgt⟩

theorem Spaces.loadIcode (h : Spaces b m ds ∅ l) (hu : Unshared (target m ds))
    (hd : ds e = some d) {img : Image} (hm : loadIcode d img m = some m') :
    ∃ l', Grown b ds e m m' l' ∧ HasStack m' ds e := by
  rw [Kern.loadIcode] at hm
  split at hm
  · cases hm
  · obtain ⟨m₁, h₁, hm⟩ := Option.bind_eq_some_iff.1 hm
    obtain ⟨l₁, g₁⟩ := foldlM_keeps (P := fun m' => ∃ l', Grown b ds e m m' l') (by
      rintro s m₁ m₂ - ⟨l₁, g₁⟩ hst
      obtain ⟨l₂, g₂⟩ := g₁.spaces.loadSegment g₁.unshared hd hst
      exact ⟨l₂, g₁.trans g₂⟩) h₁ ⟨l, .refl h hu⟩
    rcases g₁.spaces.stack g₁.unshared hd with ⟨-, hn⟩ | ⟨m₂, l₂, hst, g₂, -, hs⟩
    · rw [stackVa, hm] at hn
      cases hn
    · rw [stackVa, hm] at hst
      cases hst
      exact ⟨l₂, g₁.trans g₂, hs⟩

theorem Spaces.loadIcode_some (h : Spaces b m ds ∅ l) (hu : Unshared (target m ds))
    (hd : ds e = some d) {img : Image} (he : img.entry ≠ 0) (hs : img.segments = [])
    (hl : 2 ≤ l.length) :
    ∃ m' l', Kern.loadIcode d img m = some m' ∧ Grown b ds e m m' l' ∧
      l.length ≤ l'.length + 2 ∧ HasStack m' ds e := by
  rcases h.stack hu hd with ⟨hlt, -⟩ | ⟨m₂, l₂, hst, g₂, hlen, hstack⟩
  · omega
  · refine ⟨m₂, l₂, ?_, g₂, hlen, hstack⟩
    rw [Kern.loadIcode, if_neg he, hs]
    exact hst

end

end Jos.Kern
