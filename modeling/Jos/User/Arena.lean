import Jos.User.MallocSpec
import Jos.Lib.Run

/-! Runs of `malloc` and `free`: the blocks that are live never overlap. -/

namespace Jos.User

open Kern Lib

def Kept (h h' : Heap) (live : List Block) : Prop :=
  ∀ b ∈ live, (∀ pn, b.first ≤ pn → pn ≤ b.last → h'.pte pn = h.pte pn) ∧
    ∀ x, b.lo ≤ x → x < b.hi → h'.mem x = h.mem x

section

variable {leak : Nat → Nat} {h h' h₁ : Heap} {live : List Block} {b : Block}

theorem Kept.trans (hk : Kept h h₁ live) (hk' : Kept h₁ h' live) : Kept h h' live := by
  intro b hb
  obtain ⟨h1, h2⟩ := hk b hb
  obtain ⟨h3, h4⟩ := hk' b hb
  exact ⟨fun pn hl hr => (h3 pn hl hr).trans (h1 pn hl hr), fun x hl hr => (h4 x hl hr).trans (h2 x hl hr)⟩

theorem Block.page_of {x : Nat} (hl : b.lo ≤ x) (hr : x < b.hi) :
    b.first ≤ x / 4096 ∧ x / 4096 ≤ b.last := by
  rw [Block.first, Block.last]
  omega

theorem Kept.of_freed {s' : Space} {m' : Word} {first last : Nat} {live' : List Block}
    (H : HeapInv leak h live) (hf : Freed h.toSpace s' first last) (hsub : ∀ c ∈ live', c ∈ live)
    (hlast : 0 < refs leak h.mptr live last)
    (hpos : ∀ c ∈ live', c.last = last → 1 < refs leak h.mptr live last)
    (hcont : ∀ c ∈ live', ∀ pn, c.first ≤ pn → pn ≤ c.last → pn < first ∨ last ≤ pn) :
    Kept h ⟨s', m'⟩ live' := by
  intro c hc
  refine ⟨fun pn h1 h2 => ?_, fun x h1 h2 => ?_⟩
  · by_cases hpn : pn = last
    · subst hpn
      have hcl : c.last = pn := by
        rcases Nat.lt_or_eq_of_le h2 with hlt | heq
        · exact absurd ⟨h1, hlt⟩ (H.not_cont hlast (hsub c hc))
        · exact heq.symm
      have htwo := hpos c hc hcl
      obtain ⟨g1, -, g3⟩ := H.counted pn hlast
      dsimp only
      rw [hf.tail, if_neg (by omega), g1]
    · exact hf.other pn (by have := hcont c hc pn h1 h2; omega)
  · have := H.clear_of_ref hlast (hsub c hc)
    exact hf.mem x (by omega)

theorem Leaves.inv (hl : Leaves h h₁) (H : HeapInv leak h live) :
    HeapInv leak h₁ live ∧ Kept h h₁ live := by
  cases hl with
  | aligned h0 hm _ => exact ⟨H.setMptr h0 hm, fun b hb => ⟨fun _ _ _ => rfl, fun _ _ _ => rfl⟩⟩
  | @dropped s m p hmid hp _ _ hf hm =>
    have hheld : heldAt h.mptr p = 1 := if_pos ⟨hmid, hp⟩
    refine ⟨H.leave hmid hp hf (by omega), .of_freed H hf (fun _ hc => hc) ?_ ?_ ?_⟩
    · rw [refs]
      omega
    · intro c hc hcl
      have := hcl ▸ ends_pos hc
      rw [refs]
      omega
    · intro c hc pn _ _
      omega

theorem HeapInv.kept_release {s' : Space} (H : HeapInv leak h (b :: live))
    (hf : Freed h.toSpace s' b.first b.last) : Kept h ⟨s', h.mptr⟩ live := by
  have hsub : ∀ c ∈ live, c ∈ b :: live := fun c hc => List.mem_cons_of_mem b hc
  have hb : b ∈ b :: live := List.mem_cons_self
  refine .of_freed H hf hsub (HeapInv.refs_pos hb) (fun c hc hcl => ?_) fun c hc pn h1 h2 => ?_
  · have := hcl ▸ ends_pos hc
    rw [HeapInv.refs_cons, if_pos rfl, refs]
    omega
  · rcases Nat.lt_or_eq_of_le h2 with hlt | rfl
    · have := H.cont_apart hc h1 hlt
      omega
    · have := H.not_cont (HeapInv.refs_pos (hsub c hc)) hb
      omega

theorem Refused.inv (hr : Refused h h') (H : HeapInv leak h live) (h0 : h.mptr.toNat % 4096 = 0) :
    HeapInv leak h' live ∧ Kept h h' live := by
  have hmem : ∀ pn, h.pte pn ≠ none → refWord h'.toSpace pn = refWord h.toSpace pn := by
    intro pn hpn
    refine refWord_congr fun x h1 h2 => hr.mem x ?_
    rwa [show x / 4096 = pn by omega]
  constructor
  · have hcongr : HeapInv leak { h' with mptr := h.mptr } live := by
      refine H.congr rfl (fun pn _ => congrFun hr.pte pn) fun pn hpn => hmem pn ?_
      rw [(H.counted pn hpn).1]
      exact Option.some_ne_none _
    exact hcongr.setMptr h0 hr.mptr
  · intro b hb
    refine ⟨fun pn _ _ => congrFun hr.pte pn, fun x h1 h2 => hr.mem x ?_⟩
    obtain ⟨g1, g2⟩ := Block.page_of h1 h2
    exact H.mapped hb g1 g2

theorem Bumped.inv {p : Nat} {w : Word} (hb : Bumped h h' b p w) (H : HeapInv leak h live) :
    HeapInv leak h' (b :: live) ∧ Kept h h' live := by
  have hh : h' = ⟨setRef h.toSpace p w, h'.mptr⟩ := by
    rw [← hb.space]
  have hpos : 0 < refs leak h.mptr live p := by
    have hheld : heldAt h.mptr p = 1 := if_pos ⟨hb.mid, hb.page⟩
    rw [refs]
    omega
  constructor
  · rw [hh]
    exact H.bump hb.mid hb.page (congrArg BitVec.toNat hb.addr) hb.last hb.count hb.mptr
  · rw [hh]
    intro c hc
    refine ⟨fun _ _ _ => rfl, fun x h1 h2 => ?_⟩
    have := H.clear_of_ref hpos hc
    exact Lib.Image.put_of_notMem (by omega)

theorem Fresh.inv {P k : Nat} {s₁ : Space} (hf : Fresh h h' b P k s₁) (H : HeapInv leak h live)
    (h0 : h.mptr.toNat % 4096 = 0) :
    HeapInv (HeapInv.freshLeak leak b) h' (b :: live) ∧ Kept h h' live := by
  have htop := hf.top
  have hpos := hf.pos
  have hlo : b.lo = 4096 * P := by
    rw [Block.lo, hf.addr, toNat_pageAddr (by omega)]
  have hh : h' = ⟨setRef s₁ b.last 2, h'.mptr⟩ := by
    rw [← hf.space]
  have hnone : ∀ pn, P ≤ pn → pn < P + k → h.pte pn = none := by
    intro pn h1 h2
    have := hf.clear (pn - P) (by omega)
    rwa [show P + (pn - P) = pn by omega] at this
  obtain ⟨hfirst, hlast⟩ := Block.pages hlo hf.pos hf.size hf.size'
  constructor
  · rw [hh]
    exact H.fresh h0 hf.fill hf.clear hf.pos (by omega) hlo hf.size hf.size' hf.mptr
  · rw [hh]
    intro c hc
    refine ⟨fun pn h1 h2 => hf.fill.other pn ?_, fun x h1 h2 => ?_⟩
    · by_contra hn
      exact H.mapped hc h1 h2 (hnone pn (by omega) (by omega))
    · obtain ⟨g1, g2⟩ := Block.page_of h1 h2
      have hx : x / 4096 < P ∨ P + k ≤ x / 4096 := by
        by_contra hn
        exact H.mapped hc g1 g2 (hnone _ (by omega) (by omega))
      have hne : x / 4096 ≠ b.last := by omega
      change (s₁.mem.putWord (4096 * b.last + 4092) 2) x = h.mem x
      rw [Lib.Image.putWord, Lib.Image.put_of_notMem (by omega)]
      exact hf.fill.mem x (by omega)

/-- The block fits on the page that is being filled, or does not end where a page begins, or is
too large to be tried at all. -/
def Tidy (h : Heap) (b : Block) : Prop :=
  Fits h b ∨ b.size % 4096 ≠ 0 ∨ 2 ^ 20 ≤ b.size

/-- What `malloc` does to the invariant.  A reference on a page of the heap is lost only by a
block that ends where a new page begins. -/
theorem HeapInv.malloc {avail : Nat} {n v : Word} (H : HeapInv leak h live) (hn : n.toNat < 2 ^ 20)
    (hlen : live.length + 4 < 2 ^ 32) (hres : malloc avail h n = some (v, h')) :
    ∃ leak', HeapInv leak' h' (if v = 0 then live else (v, n) :: live) ∧ Kept h h' live ∧
      (Tidy h (v, n) → ∀ pn, 32768 ≤ pn → leak' pn = leak pn) := by
  rcases malloc_cases H hn hlen hres with ⟨rfl, rfl⟩ | ⟨p, w, hb⟩ | ⟨hfit, hmax, h₁, hl, hv⟩
  · refine ⟨leak, ?_, fun b hb => ⟨fun _ _ _ => rfl, fun _ _ _ => rfl⟩, fun _ _ _ => rfl⟩
    by_cases hz : h.mptr = 0
    · rw [startPtr, if_pos hz]
      exact H.setMptr (by rw [hz]; rfl) (by decide)
    · rw [startPtr_of_ne hz]
      exact H
  · obtain ⟨H', hk⟩ := hb.inv H
    rw [if_neg hb.ne_zero]
    exact ⟨leak, H', hk, fun _ _ _ => rfl⟩
  · obtain ⟨H₁, hk₁⟩ := hl.inv H
    rcases hv with ⟨rfl, hr⟩ | ⟨P, k, s₁, hvP, hf⟩
    · obtain ⟨H', hk⟩ := hr.inv H₁ hl.mptr
      exact ⟨leak, H', hk₁.trans hk, fun _ _ _ => rfl⟩
    · obtain ⟨H', hk⟩ := hf.inv H₁ hl.mptr
      have htop := hf.top
      have hpos := hf.pos
      have hlo : Block.lo (v, n) = 4096 * P := by rw [Block.lo, hvP, toNat_pageAddr (by omega)]
      have hhi : Block.hi (v, n) = Block.lo (v, n) + Block.size (v, n) := rfl
      obtain ⟨hfirst, hlast⟩ := Block.pages hlo hf.pos hf.size hf.size'
      have hleak : Tidy h (v, n) → ∀ pn, HeapInv.freshLeak leak (v, n) pn = leak pn := by
        intro hor pn
        rcases hor with hf | hsize | hlarge
        · exact absurd hf hfit
        · exact if_neg fun hn => hsize (by omega)
        · omega
      by_cases hv0 : v = 0
      · -- the block at address 0 looks like a failure, and nobody will free it
        have hP : P = 0 := by
          have h0 : (0 : Word).toNat = 0 := rfl
          have hz : Block.lo (v, n) = 0 := by rw [hv0]; rfl
          omega
        have hend : h₁.pte (Block.last (v, n)) = none := by
          rw [hlast]
          exact hf.clear (k - 1) (by omega)
        have hzero : leak (Block.last (v, n)) = 0 := by
          have := H₁.refs_eq_zero hend
          rw [refs] at this
          omega
        have hle : HeapInv.freshLeak leak (v, n) (Block.last (v, n)) ≤ 1 := by
          rw [HeapInv.freshLeak]
          split
          · exact Nat.le_refl 1
          · omega
        have hlow : Block.last (v, n) < 32768 := by
          have hs : Block.size (v, n) = (n.toNat + 3) / 4 * 4 := rfl
          have := hf.size'
          omega
        rw [if_pos hv0]
        refine ⟨_, H'.forget hle, hk₁.trans hk, fun hor pn hpn => ?_⟩
        rw [if_neg (by omega), hleak hor]
        rfl
      · rw [if_neg hv0]
        exact ⟨_, H', hk₁.trans hk, fun hor pn _ => hleak hor pn⟩

theorem HeapInv.free (H : HeapInv leak h live) (hb : b ∈ live) (hlow : mbegin ≤ b.1) :
    ∃ s', free h.toSpace b.1 = some s' ∧ Freed h.toSpace s' b.first b.last := by
  obtain ⟨hp, hend, href⟩ := H.last_page hb
  have hfirst : b.first = b.1.toNat / 4096 := rfl
  have hle := b.first_le
  rw [BitVec.le_def, toNat_mbegin] at hlow
  refine free_freed (pgnum_eq b.1) (by omega) hle hend hp heapPerm_continued (.inl rfl)
    (href ▸ HeapInv.refs_pos hb) fun pn h1 h2 => ?_
  exact ⟨_, H.cont b hb pn h1 h2, by decide⟩

end

structure Arena where
  heap : Heap
  live : List Block

inductive HeapEvent
  | malloc (avail : Nat) (n : Word)
  | free (b : Block)
  | write (va : Word) (x : Byte)

def heapStep (a : Arena) : HeapEvent → Option Arena
  | .malloc avail n =>
    (malloc avail a.heap n).map fun (v, h) => ⟨h, if v = 0 then a.live else (v, n) :: a.live⟩
  | .free b => (free a.heap.toSpace b.1).map fun s => ⟨⟨s, a.heap.mptr⟩, a.live.erase b⟩
  | .write va x => (a.heap.store va x).map fun s => ⟨⟨s, a.heap.mptr⟩, a.live⟩

def Block.Covers (b : Block) (x : Nat) : Prop := b.lo ≤ x ∧ x < b.lo + b.2.toNat

namespace HeapEvent

def Legal (a : Arena) : HeapEvent → Prop
  | .malloc _ n => n < maxmalloc
  | .free b => b ∈ a.live
  | .write va _ => ∃ b ∈ a.live, b.Covers va.toNat

def Countable (a : Arena) : HeapEvent → Prop
  | .malloc _ _ => a.live.length + 4 < 2 ^ 32
  | _ => True

def keeps (a : Arena) : HeapEvent → List Block
  | .free b => a.live.erase b
  | _ => a.live

end HeapEvent

structure HeapSafe (a : Arena) : Prop where
  apart : a.live.Pairwise fun b c => ∀ x, ¬ (b.Covers x ∧ c.Covers x)
  mapped : ∀ b ∈ a.live, ∀ x, b.Covers x → ∃ f, a.heap.pte (x / 4096) = some f ∧ f &&& pteW ≠ 0
  /-- The counts of the pages that `free` takes down, for a block or for `malloc` itself. -/
  counts : ∀ b ∈ a.live, ∀ x, b.Covers x → ∀ pn, (∃ c ∈ a.live, c.last = pn) ∨
    (a.heap.mptr.toNat % 4096 ≠ 0 ∧ a.heap.mptr.toNat / 4096 = pn) →
    ¬ (4096 * pn + 4092 ≤ x ∧ x < 4096 * pn + 4096)
  frees : ∀ b ∈ a.live, mbegin ≤ b.1 →
    ∃ s', free a.heap.toSpace b.1 = some s' ∧ Freed a.heap.toSpace s' b.first b.last

/-- No page of a block is unmapped while the block is live, and only the program writes to it. -/
def Undisturbed (a : Arena) (e : HeapEvent) (a' : Arena) : Prop :=
  ∀ b ∈ e.keeps a, ∀ x, b.Covers x → a'.heap.pte (x / 4096) = a.heap.pte (x / 4096) ∧
    ((∀ va y, e ≠ .write va y) → a'.heap.mem x = a.heap.mem x)

structure ArenaInv (leak : Nat → Nat) (a : Arena) : Prop extends HeapInv leak a.heap a.live where
  addr : ∀ b ∈ a.live, b.1 ≠ 0

theorem Block.Covers.hi {b : Block} {x : Nat} (h : b.Covers x) : b.lo ≤ x ∧ x < b.hi := by
  obtain ⟨h1, h2⟩ := h
  rw [Block.hi, Block.size]
  omega

theorem Block.Covers.page {b : Block} {x : Nat} (h : b.Covers x) :
    b.first ≤ x / 4096 ∧ x / 4096 ≤ b.last := Block.page_of h.hi.1 h.hi.2

section

variable {leak : Nat → Nat} {a a' : Arena} {e : HeapEvent}

theorem ArenaInv.safe (H : ArenaInv leak a) : HeapSafe a where
  apart := by
    refine H.apart.imp fun {b c} hd x ⟨hb, hc⟩ => ?_
    obtain ⟨h1, h2⟩ := hb.hi
    obtain ⟨h3, h4⟩ := hc.hi
    rw [Disjoint] at hd
    omega
  mapped b hb x hx := by
    obtain ⟨h1, h2⟩ := hx.page
    rcases Nat.lt_or_eq_of_le h2 with hlt | heq
    · exact ⟨_, H.cont b hb _ h1 hlt, by decide⟩
    · rw [heq]
      exact ⟨_, (H.last_page hb).1, by decide⟩
  counts b hb x hx pn hpn := by
    obtain ⟨h1, h2⟩ := hx.hi
    have hpos : 0 < refs leak a.heap.mptr a.live pn := by
      rcases hpn with ⟨c, hc, rfl⟩ | hmid
      · exact HeapInv.refs_pos hc
      · have hheld : heldAt a.heap.mptr pn = 1 := if_pos hmid
        rw [refs]
        omega
    have := H.clear_of_ref hpos hb
    omega
  frees b hb hlow := H.free hb hlow

theorem Kept.undisturbed (hk : Kept a.heap a'.heap (e.keeps a)) : Undisturbed a e a' := by
  intro b hb x hx
  obtain ⟨h1, h2⟩ := hk b hb
  exact ⟨h1 _ hx.page.1 hx.page.2, fun _ => h2 x hx.hi.1 hx.hi.2⟩

theorem ArenaInv.malloc {avail : Nat} {n : Word} (H : ArenaInv leak a) (hn : n < maxmalloc)
    (hlen : a.live.length + 4 < 2 ^ 32) (hst : heapStep a (.malloc avail n) = some a') :
    ∃ leak', ArenaInv leak' a' ∧ Kept a.heap a'.heap a.live ∧
      (Tidy a.heap (0, n) → ∀ pn, 32768 ≤ pn → leak' pn = leak pn) := by
  obtain ⟨⟨v, h'⟩, hres, rfl⟩ := Option.map_eq_some_iff.mp hst
  obtain ⟨leak', H', hk, hleak⟩ := H.toHeapInv.malloc hn hlen hres
  refine ⟨leak', ⟨H', fun b hb => ?_⟩, hk, hleak⟩
  dsimp only at hb
  split at hb
  · exact H.addr b hb
  · next hv =>
    rcases List.mem_cons.mp hb with rfl | hb
    · exact hv
    · exact H.addr b hb

theorem ArenaInv.free {b : Block} (H : ArenaInv leak a) (hb : b ∈ a.live)
    (hst : heapStep a (.free b) = some a') :
    ArenaInv leak a' ∧ Kept a.heap a'.heap (a.live.erase b) ∧
      Freed a.heap.toSpace a'.heap.toSpace b.first b.last := by
  obtain ⟨s', hres, rfl⟩ := Option.map_eq_some_iff.mp hst
  have hlow : mbegin ≤ b.1 := ((free_some hres).resolve_left fun hz => H.addr b hb hz.1).1
  obtain ⟨s₁, hs₁, hf⟩ := H.toHeapInv.free hb hlow
  rw [hres] at hs₁
  cases hs₁
  have H' := H.toHeapInv.perm (List.perm_cons_erase hb)
  exact ⟨⟨H'.release hf, fun c hc => H.addr c (List.mem_of_mem_erase hc)⟩, H'.kept_release hf, hf⟩

theorem ArenaInv.write {va : Word} {x : Byte} (H : ArenaInv leak a)
    (hb : ∃ b ∈ a.live, b.Covers va.toNat) (hst : heapStep a (.write va x) = some a') :
    ArenaInv leak a' ∧ a'.heap.pte = a.heap.pte := by
  obtain ⟨s', hres, rfl⟩ := Option.map_eq_some_iff.mp hst
  obtain ⟨b, hb, hx⟩ := hb
  obtain ⟨f, hf, hw⟩ := H.safe.mapped b hb va.toNat hx
  rw [Space.store, Space.touch, pgnum_eq, hf] at hres
  dsimp only at hres
  rw [if_pos hw] at hres
  cases hres
  exact ⟨⟨H.toHeapInv.write hb hx.hi.1 hx.hi.2, H.addr⟩, rfl⟩

theorem ArenaInv.step (H : ArenaInv leak a) (hl : e.Legal a) (hc : e.Countable a)
    (hst : heapStep a e = some a') : (∃ leak', ArenaInv leak' a') ∧ Undisturbed a e a' := by
  cases e with
  | malloc avail n =>
    obtain ⟨leak', H', hk, -⟩ := H.malloc hl hc hst
    exact ⟨⟨leak', H'⟩, hk.undisturbed⟩
  | free b =>
    obtain ⟨H', hk, -⟩ := H.free hl hst
    exact ⟨⟨leak, H'⟩, hk.undisturbed⟩
  | write va x =>
    obtain ⟨H', hp⟩ := H.write hl hst
    exact ⟨⟨leak, H'⟩, fun b _ y _ => ⟨congrFun hp _, fun hn => absurd rfl (hn va x)⟩⟩

theorem ArenaInv.start (s : Space) : ArenaInv (fun _ => 0) ⟨⟨s, 0⟩, []⟩ where
  mptr4 := rfl
  lo4 _ hb := absurd hb List.not_mem_nil
  whole _ hb := absurd hb List.not_mem_nil
  cont _ hb := absurd hb List.not_mem_nil
  counted pn hpos := by
    have hz : refs (fun _ => 0) 0 [] pn = 0 := by
      rw [refs, ends, heldAt_of_aligned rfl]
      rfl
    exact absurd hz (Nat.pos_iff_ne_zero.mp hpos)
  leak_le _ := Nat.zero_le 2
  apart := List.Pairwise.nil
  above _ hb := absurd hb List.not_mem_nil
  addr _ hb := absurd hb List.not_mem_nil

/-- While the counts do not overflow, in every state that calls of `malloc` and `free` lead to the
live blocks are apart, mapped and clear of the counts, and the next call disturbs none of them. -/
theorem malloc_safe {s : Space} {es : List HeapEvent}
    (h : Run heapStep (fun a e => e.Legal a ∧ e.Countable a) ⟨⟨s, 0⟩, []⟩ es a) :
    HeapSafe a ∧ ∀ e a', e.Legal a ∧ e.Countable a → heapStep a e = some a' → Undisturbed a e a' := by
  obtain ⟨leak, H⟩ := h.invariant (fun a => ∃ leak, ArenaInv leak a)
    (fun ⟨_, H⟩ hg hst => (H.step hg.1 hg.2 hst).1) ⟨_, .start s⟩
  exact ⟨H.safe, fun e a' hg hst => (H.step hg.1 hg.2 hst).2⟩

end

instance (b : Block) (x : Nat) : Decidable (b.Covers x) := inferInstanceAs (Decidable (_ ∧ _))

instance (a : Arena) : ∀ e : HeapEvent, Decidable (e.Legal a)
  | .malloc _ n => inferInstanceAs (Decidable (n < maxmalloc))
  | .free b => inferInstanceAs (Decidable (b ∈ a.live))
  | .write va _ => inferInstanceAs (Decidable (∃ b ∈ a.live, b.Covers va.toNat))

instance (a : Arena) : ∀ e : HeapEvent, Decidable (e.Countable a)
  | .malloc _ _ => inferInstanceAs (Decidable (_ < _))
  | .free _ => isTrue trivial
  | .write _ _ => isTrue trivial

def bareSpace : Space := ⟨fun _ => none, fun _ => 0⟩

theorem malloc_safe_large : ∃ a, Run heapStep (fun a e => e.Legal a ∧ e.Countable a) ⟨⟨bareSpace, 0⟩, []⟩
    [.malloc 9 100, .malloc 9 5000, .malloc 9 8, .free (0x08000000, 100), .write 0x08001010 7] a ∧
    a.live = [(0x08002388, 8), (0x08001000, 5000)] ∧ HeapSafe a := by
  have hrun : ∃ a, Run heapStep (fun a e => e.Legal a ∧ e.Countable a) ⟨⟨bareSpace, 0⟩, []⟩
      [.malloc 9 100, .malloc 9 5000, .malloc 9 8, .free (0x08000000, 100), .write 0x08001010 7] a ∧
      a.live = [(0x08002388, 8), (0x08001000, 5000)] := by
    apply Run.exists_ofFoldlM
    decide +kernel
  obtain ⟨a, hrun, ha⟩ := hrun
  exact ⟨a, hrun, ha, (malloc_safe hrun).1⟩

structure Piled (a : Arena) (k : Nat) : Prop where
  mptr : a.heap.mptr = 0x08000004
  pte : a.heap.pte 32768 = some (heapPerm false)
  count : a.heap.mem.word 0x08000ffc = BitVec.ofNat 32 (k + 2)
  live : a.live = List.replicate k (0x08000004, 0) ++ [(0x08000000, 4)]

theorem touch_pile {s : Space} (h : s.pte 32768 = some (heapPerm false)) :
    s.touch 0x08000ffc = some s := by
  rw [Space.touch, show pgnum 0x08000ffc = 32768 by decide, h]
  exact if_pos (by decide)

theorem Piled.load {a : Arena} {k : Nat} (h : Piled a k) :
    a.heap.loadWord 0x08000ffc = some (BitVec.ofNat 32 (k + 2)) := by
  rw [Space.loadWord, show pgnum 0x08000ffc = 32768 by decide, h.pte, ← h.count]
  rfl

theorem Piled.step {a : Arena} {k : Nat} (h : Piled a k) :
    ∃ a', heapStep a (.malloc 0 0) = some a' ∧ Piled a' (k + 1) := by
  have hload := h.load
  have hmalloc : malloc 0 a.heap 0 = some (0x08000004,
      ⟨{ a.heap.toSpace with mem := a.heap.mem.putWord 0x08000ffc (BitVec.ofNat 32 (k + 2) + 1) }, 0x08000004⟩) := by
    have hne : ¬ a.heap.mptr = 0 := by
      rw [h.mptr]
      decide
    rw [malloc, if_neg hne]
    dsimp only
    rw [h.mptr, if_neg (by decide), if_pos (by decide), if_pos (by decide),
      show roundUp (0x08000004 : Word) pgsize - 4 = 0x08000ffc by decide, hload]
    simp only [Option.bind_eq_bind, Option.bind_some]
    rw [Space.storeWord, touch_pile h.pte]
    rfl
  refine ⟨_, congrArg (Option.map _) hmalloc, rfl, h.pte, ?_, ?_⟩
  · dsimp only
    rw [Lib.Image.word_putWord, show k + 1 + 2 = k + 2 + 1 by omega, BitVec.ofNat_add k.succ.succ 1]
    rfl
  · dsimp only
    rw [h.live]
    rfl

theorem Piled.free {a : Arena} {k : Nat} (h : Piled a (k + 1)) (hk : BitVec.ofNat 32 (k + 3) = 1) :
    ∃ a', heapStep a (.free (0x08000004, 0)) = some a' ∧ (0x08000000, 4) ∈ a'.live ∧
      a'.heap.pte 32768 = none := by
  have hload : a.heap.loadWord 0x08000ffc = some 1 := h.load.trans (congrArg some hk)
  have hfree : User.free a.heap.toSpace 0x08000004 = some (Space.setPte
      { a.heap.toSpace with mem := a.heap.mem.putWord 0x08000ffc 0 } 32768 none) := by
    rw [User.free, if_neg (by decide), if_pos (by decide),
      show roundDown (0x08000004 : Word) pgsize = 0x08000000 by decide, freeFrom,
      show pgnum 0x08000000 = 32768 by decide, h.pte]
    dsimp only
    rw [if_neg (by decide), show (0x08000000 : Word) + pgsize - 4 = 0x08000ffc by decide, hload]
    simp only [Option.bind_eq_bind, Option.bind_some]
    rw [Space.storeWord, touch_pile h.pte]
    rfl
  refine ⟨_, congrArg (Option.map _) hfree, ?_, ?_⟩
  · dsimp only
    rw [List.mem_erase_of_ne (by decide), h.live]
    exact List.mem_append_right _ List.mem_cons_self
  · dsimp only [Space.setPte]
    exact Function.update_self ..

/-- The count of the page wraps around, and the page of the first block is unmapped. -/
theorem malloc_count_wraps : ∃ es a, Run heapStep (fun a e => e.Legal a) ⟨⟨bareSpace, 0⟩, []⟩ es a ∧
    (0x08000000, 4) ∈ a.live ∧ a.heap.pte 32768 = none ∧ ¬ HeapSafe a := by
  have hfirst : ∃ a, Run heapStep (fun a e => e.Legal a) ⟨⟨bareSpace, 0⟩, []⟩ [.malloc 1 4] a ∧
      (a.heap.mptr = 0x08000004 ∧ a.heap.pte 32768 = some (heapPerm false) ∧
        a.heap.mem.word 0x08000ffc = BitVec.ofNat 32 2 ∧ a.live = [(0x08000000, 4)]) := by
    apply Run.exists_ofFoldlM
    decide +kernel
  have hpile : ∀ k, ∃ es a, Run heapStep (fun a e => e.Legal a) ⟨⟨bareSpace, 0⟩, []⟩ es a ∧ Piled a k := by
    intro k
    induction k with
    | zero =>
      obtain ⟨a, hrun, h1, h2, h3, h4⟩ := hfirst
      exact ⟨_, a, hrun, h1, h2, h3, h4⟩
    | succ k ih =>
      obtain ⟨es, a, hrun, hp⟩ := ih
      obtain ⟨a', hst, hp'⟩ := hp.step
      have hlegal : HeapEvent.Legal a (.malloc 0 0) := show (0 : Word) < maxmalloc by decide
      exact ⟨_, a', .snoc hrun hlegal hst, hp'⟩
  obtain ⟨es, a, hrun, hp⟩ := hpile (4294967294 + 1)
  obtain ⟨a', hst, hlive, hnone⟩ := hp.free (by decide)
  have hlegal : HeapEvent.Legal a (.free (0x08000004, 0)) := by
    rw [HeapEvent.Legal, hp.live]
    exact List.mem_append_left _ (List.mem_replicate.mpr ⟨Nat.succ_ne_zero _, rfl⟩)
  refine ⟨_, a', .snoc hrun hlegal hst, hlive, hnone, fun hs => ?_⟩
  obtain ⟨f, hf, -⟩ := hs.mapped _ hlive 0x08000000 (by decide)
  rw [show 0x08000000 / 4096 = 32768 by decide, hnone] at hf
  cases hf

end Jos.User
