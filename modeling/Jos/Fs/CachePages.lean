import Jos.Fs.Coherence
import Jos.Lib.Run
import Jos.User.Vm

/-! The pages behind the block cache: what the kernel's paging calls and the processor do to
the server's address space is what the cache takes them to do. -/

namespace Jos.Fs

open Kern Lib User

def diskmap : Word := 0x10000000

def blockVa (b : Nat) : Word := diskmap + BitVec.ofNat 32 (b * blksize)

def blockPn (b : Nat) : Nat := 65536 + b

/-- The cache is what environment `e` has mapped at `DISKMAP`, on pages of its own. -/
structure Backs (s : Vm) (e : EnvIx) (c : Cache) : Prop where
  pte : ∀ b, b * blksize < disksize → c.pte b = flags (s.pte e (blockPn b))
  mem : ∀ b p f, b * blksize < disksize → s.pte e (blockPn b) = some (p, f) →
    ∀ off < blksize, s.mem p off = c.mem (b * blksize + off)
  own : ∀ b p f e' pn f', b * blksize < disksize → s.pte e (blockPn b) = some (p, f) →
    s.pte e' pn = some (p, f') → e' = e ∧ pn = blockPn b

/-- Page `pn` of `e'` is not in the disk map of `e`. -/
def Outside (e e' : EnvIx) (pn : Nat) : Prop :=
  ∀ b, b * blksize < disksize → e' = e → pn ≠ blockPn b

def Aside (e : EnvIx) : Cmd → Prop
  | .pageAlloc e' va _ => Outside e e' (pgnum va)
  | .pageMap src srcva dst dstva _ => Outside e src (pgnum srcva) ∧ Outside e dst (pgnum dstva)
  | .pageUnmap e' va => Outside e e' (pgnum va)

/-- What happens to pages: the calls for a block and the stores to it, and any other command. -/
inductive PageEvent
  | alloc (b : Nat) (perm : Word)
  | remap (b : Nat) (perm : Word)
  | store (b off : Nat) (v : Byte)
  | other (cmd : Cmd) (r : Word)

/-- A store marks the page dirty. -/
inductive OnPages (e : EnvIx) : PageEvent → Vm → Vm → Prop
  | alloc {b perm s s'} : b * blksize < disksize →
      Exec (.pageAlloc e (blockVa b) perm) s 0 s' → OnPages e (.alloc b perm) s s'
  | remap {b perm s s'} : b * blksize < disksize →
      Exec (.pageMap e (blockVa b) e (blockVa b) perm) s 0 s' → OnPages e (.remap b perm) s s'
  | store {b off v s p f} : b * blksize < disksize → off < blksize →
      s.pte e (blockPn b) = some (p, f) → OnPages e (.store b off v) s
        ((s.store p off v).mapAt e (blockPn b) (some (p, f ||| pteD)))
  | other {cmd r s s'} : Aside e cmd → Exec cmd s r s' → OnPages e (.other cmd r) s s'

variable {s s' : Vm} {e : EnvIx} {c : Cache} {b p : Nat} {perm f : Word}

theorem pgnum_blockVa (hb : b * blksize < disksize) : pgnum (blockVa b) = blockPn b := by
  have hb : b < 786432 := by
    rw [blksize, disksize] at hb
    omega
  have hmap : diskmap.toNat = 268435456 := rfl
  have hnat : (blockVa b).toNat = 268435456 + b * 4096 := by
    rw [blockVa, BitVec.toNat_add, BitVec.toNat_ofNat, blksize, hmap]
    omega
  rw [pgnum_eq, hnat, blockPn]
  omega

theorem blockPn_inj {b' : Nat} (h : blockPn b = blockPn b') : b = b' := by
  rw [blockPn, blockPn] at h
  omega

theorem disjoint_block {b' off : Nat} (h : b' ≠ b) (hoff : off < blksize) :
    b' * blksize + off < b * blksize ∨ b * blksize + blksize ≤ b' * blksize + off := by
  rw [blksize] at hoff ⊢
  omega

theorem Backs.mapAt {s₁ : Vm} {c' : Cache} (h : Backs s e c) (hpte : s₁.pte = s.pte)
    (hown : ∀ e' pn f', s.pte e' pn = some (p, f') → e' = e ∧ pn = blockPn b)
    (hc : c'.pte = Function.update c.pte b f)
    (hnew : ∀ off < blksize, s₁.mem p off = c'.mem (b * blksize + off))
    (hmem : ∀ q, q ≠ p → s₁.mem q = s.mem q)
    (hkept : ∀ b' off, b' ≠ b → off < blksize → c'.mem (b' * blksize + off) =
      c.mem (b' * blksize + off)) :
    Backs (s₁.mapAt e (blockPn b) (some (p, f))) e c' := by
  have hother : ∀ {b' q f'}, b' ≠ b → s.pte e (blockPn b') = some (q, f') → q ≠ p := by
    rintro b' q f' hbb hq rfl
    exact hbb (blockPn_inj (hown e _ f' hq).2)
  have hold : ∀ {b'}, b' ≠ b → (s₁.mapAt e (blockPn b) (some (p, f))).pte e (blockPn b') =
      s.pte e (blockPn b') := by
    intro b' hbb
    rw [Vm.mapAt_ne (.inr fun hpn => hbb (blockPn_inj hpn)), hpte]
  refine ⟨fun b' hb' => ?_, fun b' q f' hb' hq off hoff => ?_,
    fun b' q f' e' pn f'' hb' hq hq' => ?_⟩
  · rw [hc]
    by_cases hbb : b' = b
    · subst hbb
      rw [Vm.mapAt_self, Function.update_self]
      rfl
    · rw [hold hbb, Function.update_of_ne hbb, h.pte b' hb']
  · rw [Vm.mapAt_mem]
    by_cases hbb : b' = b
    · subst hbb
      rw [Vm.mapAt_self] at hq
      cases hq
      exact hnew off hoff
    · rw [hold hbb] at hq
      rw [hmem q (hother hbb hq), hkept b' off hbb hoff]
      exact h.mem b' q f' hb' hq off hoff
  · by_cases hbb : b' = b
    · subst hbb
      rw [Vm.mapAt_self] at hq
      cases hq
      obtain ⟨rfl, rfl, -⟩ | hq' := Vm.mapAt_cases hq'
      · exact ⟨rfl, rfl⟩
      · exact hown e' pn f'' (hpte ▸ hq')
    · rw [hold hbb] at hq
      obtain ⟨-, -, hx⟩ | hq' := Vm.mapAt_cases hq'
      · cases hx
        exact absurd rfl (hother hbb hq)
      · exact h.own b' q f' e' pn f'' hb' hq (hpte ▸ hq')

theorem Backs.pageAlloc {c' : Cache} (h : Backs s e c) (hb : b * blksize < disksize)
    (hx : Exec (.pageAlloc e (blockVa b) perm) s 0 s')
    (hrun : (sysPageAlloc b perm).run c = some ((), c')) : Backs s' e c' := by
  cases hx with
  | failed hr => exact absurd hr (by decide)
  | @pageAlloc _ _ _ _ p _ _ hun =>
    rw [pgnum_blockVa hb]
    have hc' := (sysPageAlloc_wp (D := True) (.inl trivial)).ends hrun
    subst hc'
    refine h.mapAt Vm.fill_pte (fun e' pn f' hp => absurd ⟨f', hp⟩ (hun e' pn)) rfl
      (fun off hoff => ?_) (fun q hq => Vm.fill_of_ne hq) fun b' off hbb hoff => ?_
    · rw [Vm.fill_self]
      dsimp only
      rw [Lib.Image.put_add hoff]
    · dsimp only
      rw [Lib.Image.put_of_notMem (disjoint_block hbb hoff)]

theorem Backs.pageMap (h : Backs s e c) (hb : b * blksize < disksize)
    (hx : Exec (.pageMap e (blockVa b) e (blockVa b) perm) s 0 s') :
    Backs s' e (c.setPte b perm) := by
  cases hx with
  | failed hr => exact absurd hr (by decide)
  | @pageMap _ _ _ _ _ _ p f hp =>
    rw [pgnum_blockVa hb] at hp ⊢
    exact h.mapAt rfl (fun e' pn f' hq => h.own b p f e' pn f' hb hp hq) rfl
      (fun off hoff => h.mem b p f hb hp off hoff) (fun _ _ => rfl) fun _ _ _ _ => rfl

theorem Backs.store {off : Nat} {v : Byte} (h : Backs s e c) (hb : b * blksize < disksize)
    (hp : s.pte e (blockPn b) = some (p, f)) (hoff : off < blksize) :
    Backs ((s.store p off v).mapAt e (blockPn b) (some (p, f ||| pteD))) e
      (c.stored (b * blksize + off) 1 fun _ => v) := by
  have hblocks : ∀ x, x ∈ blocksOf (b * blksize + off) 1 ↔ x = b := by
    intro x
    rw [mem_blocksOf]
    rw [blksize] at hoff ⊢
    constructor
    · rintro ⟨y, hy⟩
      omega
    · rintro rfl
      exact ⟨x * 4096 + off, by omega, by omega, by omega⟩
  refine h.mapAt Vm.fill_pte (fun e' pn f' hq => h.own b p f e' pn f' hb hp hq) ?_
    (fun off' hoff' => ?_) (fun q hq => Vm.fill_of_ne hq) fun b' off' hbb hoff' => ?_
  · funext x
    rw [Cache.stored]
    dsimp only
    by_cases hx : x = b
    · subst hx
      rw [if_pos ((hblocks x).2 rfl), Function.update_self, h.pte x hb, hp]
      rfl
    · rw [if_neg fun hm => hx ((hblocks x).1 hm), Function.update_of_ne hx]
  · rw [Vm.store, Vm.fill_self, Function.update_apply, Cache.stored]
    dsimp only
    split
    · next heq =>
      subst heq
      rw [Lib.Image.put_of_mem (by omega) (by omega)]
    · rw [Lib.Image.put_of_notMem (by omega)]
      exact h.mem b p f hb hp off' hoff'
  · have hout := disjoint_block hbb hoff'
    rw [Cache.stored]
    dsimp only
    rw [Lib.Image.put_of_notMem (by omega)]

theorem Backs.mapElsewhere {s₁ : Vm} {e' : EnvIx} {pn : Nat} {x : Option (Nat × Word)}
    (h : Backs s e c) (ho : Outside e e' pn) (hpte : s₁.pte = s.pte)
    (hmem : ∀ b q f, s.pte e (blockPn b) = some (q, f) → s₁.mem q = s.mem q)
    (hx : ∀ q f, x = some (q, f) → ∀ b f', b * blksize < disksize →
      s.pte e (blockPn b) ≠ some (q, f')) : Backs (s₁.mapAt e' pn x) e c := by
  have hold : ∀ b, b * blksize < disksize →
      (s₁.mapAt e' pn x).pte e (blockPn b) = s.pte e (blockPn b) := by
    intro b hb
    rw [Vm.mapAt_ne, hpte]
    by_cases he : e' = e
    · exact .inr (ho b hb he).symm
    · exact .inl (Ne.symm he)
  refine ⟨fun b hb => ?_, fun b q f hb hq off hoff => ?_, fun b q f e₁ pn₁ f₁ hb hq hq₁ => ?_⟩
  · rw [hold b hb]
    exact h.pte b hb
  · rw [hold b hb] at hq
    rw [Vm.mapAt_mem, hmem b q f hq]
    exact h.mem b q f hb hq off hoff
  · rw [hold b hb] at hq
    obtain ⟨-, -, hnew⟩ | hq₁ := Vm.mapAt_cases hq₁
    · exact absurd hq (hx q f₁ hnew b f hb)
    · exact h.own b q f e₁ pn₁ f₁ hb hq (hpte ▸ hq₁)

theorem Backs.other {cmd : Cmd} {r : Word} (h : Backs s e c) (ha : Aside e cmd)
    (hx : Exec cmd s r s') : Backs s' e c := by
  cases hx with
  | failed => exact h
  | pageUnmap => exact h.mapElsewhere ha rfl (fun _ _ _ _ => rfl) nofun
  | pageAlloc _ _ hun =>
    refine h.mapElsewhere ha Vm.fill_pte (fun b q f hq => Vm.fill_of_ne (hun.ne hq)) ?_
    rintro q f ⟨⟩ b f' - hq
    exact hun.ne hq rfl
  | pageMap hp =>
    refine h.mapElsewhere ha.2 rfl (fun _ _ _ _ => rfl) ?_
    rintro q f ⟨⟩ b f' hb hq
    obtain ⟨he, hpn⟩ := h.own b _ f' _ _ _ hb hq hp
    exact ha.1 b hb he hpn

def onCache (c : Cache) : PageEvent → Option Cache
  | .alloc b perm => ((sysPageAlloc b perm).run c).map (·.2)
  | .remap b perm => ((sysPageMap b perm).run c).map (·.2)
  | .store b off v => some (c.stored (b * blksize + off) 1 fun _ => v)
  | .other _ _ => some c

theorem Backs.step {ev : PageEvent} {c' : Cache} (h : Backs s e c) (hs : OnPages e ev s s')
    (hc : onCache c ev = some c') : Backs s' e c' := by
  cases hs with
  | alloc hb hx =>
    obtain ⟨⟨⟨⟩, c₁⟩, hrun, rfl⟩ := Option.map_eq_some_iff.1 hc
    exact h.pageAlloc hb hx hrun
  | remap hb hx =>
    cases hc
    exact h.pageMap hb hx
  | store hb hoff hp =>
    cases hc
    exact h.store hb hp hoff
  | other ha hx =>
    cases hc
    exact h.other ha hx

/-- The pages of the file server and the model of them that `bc.c` is read with. -/
def Both (e : EnvIx) (ev : PageEvent) (x y : Vm × Cache) : Prop :=
  OnPages e ev x.1 y.1 ∧ onCache x.2 ev = some y.2

/-- Whatever the other environments do with their own memory, the disk map of the server stays
what the block cache takes it for. -/
theorem backs_trace {x y : Vm × Cache} {es : List PageEvent} (h : Backs x.1 e x.2)
    (ht : Trace (Both e) x es y) : Backs y.1 e y.2 := by
  induction ht with
  | nil => exact h
  | snoc _ hev ih => exact ih.step hev.1 hev.2

def unmappedDisk : Vm × Cache :=
  (⟨fun _ => .live, fun _ _ => none, fun _ _ => 0⟩,
    ⟨fun _ => 0, fun _ => 0, fun _ => 0, false, false, 1, []⟩)

theorem backs_trace_demo : ∃ y,
    Trace (Both ⟨0, by decide⟩) unmappedDisk [.alloc 1 (pteU ||| pteP)] y ∧
    Backs y.1 ⟨0, by decide⟩ y.2 := by
  have hx : Exec (.pageAlloc ⟨0, by decide⟩ (blockVa 1) (pteU ||| pteP)) unmappedDisk.1 0 _ :=
    .pageAlloc (p := 7) (by decide) ⟨by decide, by decide⟩ (by rintro _ _ ⟨_, ⟨⟩⟩)
  have hb : Both ⟨0, by decide⟩ (.alloc 1 (pteU ||| pteP)) unmappedDisk (_, _) :=
    ⟨.alloc (by decide) hx, rfl⟩
  have hstart : Backs unmappedDisk.1 ⟨0, by decide⟩ unmappedDisk.2 :=
    ⟨fun _ _ => rfl, by rintro _ _ _ _ ⟨⟩, by rintro _ _ _ _ _ _ _ ⟨⟩⟩
  exact ⟨_, .snoc .nil hb, backs_trace hstart (.snoc .nil hb)⟩

end Jos.Fs
