import Jos.User.HeapPages

/-! The blocks that `malloc` has handed out, and the invariant that ties them to the pages, the
reference counts and the pointer `mptr`. -/

namespace Jos.User

open Kern

abbrev Block := Word × Word

namespace Block

variable (b : Block)

def lo : Nat := b.1.toNat

def size : Nat := (b.2.toNat + 3) / 4 * 4

def hi : Nat := b.lo + b.size

def first : Nat := b.lo / 4096

def last : Nat := (b.hi + 3) / 4096

end Block

def heldAt (mptr : Word) (pn : Nat) : Nat :=
  if mptr.toNat % 4096 ≠ 0 ∧ mptr.toNat / 4096 = pn then 1 else 0

def ends (live : List Block) (pn : Nat) : Nat := live.countP fun b => b.last = pn

/-- What the count of page `pn` should be; `leak pn` references will never be dropped. -/
def refs (leak : Nat → Nat) (mptr : Word) (live : List Block) (pn : Nat) : Nat :=
  ends live pn + heldAt mptr pn + leak pn

def Disjoint (b c : Block) : Prop := b.hi ≤ c.lo ∨ c.hi ≤ b.lo

structure HeapInv (leak : Nat → Nat) (h : Heap) (live : List Block) : Prop where
  mptr4 : h.mptr.toNat % 4 = 0
  lo4 : ∀ b ∈ live, b.lo % 4 = 0
  whole : ∀ b ∈ live, b.first < b.last → b.lo % 4096 = 0
  cont : ∀ b ∈ live, ∀ pn, b.first ≤ pn → pn < b.last → h.pte pn = some (heapPerm true)
  counted : ∀ pn, 0 < refs leak h.mptr live pn →
    h.pte pn = some (heapPerm false) ∧ pn < 65536 ∧ refWord h.toSpace pn = refs leak h.mptr live pn
  leak_le : ∀ pn, leak pn ≤ 2
  apart : live.Pairwise Disjoint
  above : ∀ b ∈ live, heldAt h.mptr b.last ≠ 0 → b.hi ≤ h.mptr.toNat

theorem Block.hi4 {b : Block} (h : b.lo % 4 = 0) : b.hi % 4 = 0 := by
  rw [Block.hi, Block.size]
  omega

theorem Block.hi_le {b : Block} (h : b.lo % 4 = 0) : b.hi ≤ 4096 * b.last + 4092 := by
  have := Block.hi4 h
  rw [Block.last]
  omega

theorem Block.le_hi {b : Block} (h : b.lo % 4 = 0) : 4096 * b.last ≤ b.hi ∨ b.first = b.last := by
  have := Block.hi4 h
  rw [Block.last, Block.first]
  have hle : b.lo ≤ b.hi := Nat.le_add_right _ _
  omega

theorem Block.first_le (b : Block) : b.first ≤ b.last := by
  have hle : b.lo ≤ b.hi := Nat.le_add_right _ _
  rw [Block.first, Block.last]
  omega

theorem Block.pages {b : Block} {P k : Nat} (hb : b.lo = 4096 * P) (hk : 0 < k)
    (hsize : b.size + 4 ≤ 4096 * k) (hsize' : 4096 * (k - 1) < b.size + 4) :
    b.first = P ∧ b.last = P + (k - 1) := by
  have hhi : b.hi = b.lo + b.size := rfl
  rw [Block.first, Block.last]
  omega

theorem heldAt_of_aligned {mptr : Word} (h : mptr.toNat % 4096 = 0) (pn : Nat) : heldAt mptr pn = 0 :=
  if_neg fun hn => hn.1 h

theorem heapPerm_ne : heapPerm true ≠ heapPerm false := by decide

theorem ends_pos {live : List Block} {b : Block} (hb : b ∈ live) : 0 < ends live b.last :=
  List.countP_pos_iff.mpr ⟨b, hb, by simp⟩

theorem ends_le (live : List Block) (pn : Nat) : ends live pn ≤ live.length := List.countP_le_length

namespace HeapInv

variable {leak : Nat → Nat} {h h' : Heap} {live live' : List Block} {b c : Block} {pn : Nat}

theorem refs_pos (hb : b ∈ live) : 0 < refs leak h.mptr live b.last := by
  have := ends_pos hb
  rw [refs]
  omega

theorem last_page (H : HeapInv leak h live) (hb : b ∈ live) :
    h.pte b.last = some (heapPerm false) ∧ b.last < 65536 ∧
      refWord h.toSpace b.last = refs leak h.mptr live b.last :=
  H.counted b.last (refs_pos hb)

theorem mapped (H : HeapInv leak h live) (hb : b ∈ live) (h1 : b.first ≤ pn) (h2 : pn ≤ b.last) :
    h.pte pn ≠ none := by
  rcases Nat.lt_or_eq_of_le h2 with hlt | rfl
  · rw [H.cont b hb pn h1 hlt]
    exact Option.some_ne_none _
  · rw [(H.last_page hb).1]
    exact Option.some_ne_none _

theorem not_cont (H : HeapInv leak h live) (hp : 0 < refs leak h.mptr live pn) (hb : b ∈ live) :
    ¬ (b.first ≤ pn ∧ pn < b.last) := by
  rintro ⟨h1, h2⟩
  have hcont := H.cont b hb pn h1 h2
  rw [(H.counted pn hp).1] at hcont
  exact heapPerm_ne (Option.some.inj hcont).symm

theorem clear_of_ref (H : HeapInv leak h live) (hp : 0 < refs leak h.mptr live pn) (hb : b ∈ live) :
    b.hi ≤ 4096 * pn + 4092 ∨ 4096 * pn + 4096 ≤ b.lo := by
  have hn := H.not_cont hp hb
  have hhi := Block.hi_le (H.lo4 b hb)
  have hfirst : b.first = b.lo / 4096 := rfl
  rcases Nat.lt_trichotomy b.last pn with hlt | rfl | hgt
  · omega
  · omega
  · omega

theorem perm (H : HeapInv leak h live) (hp : live.Perm live') : HeapInv leak h live' where
  mptr4 := H.mptr4
  lo4 b hb := H.lo4 b (hp.mem_iff.mpr hb)
  whole b hb := H.whole b (hp.mem_iff.mpr hb)
  cont b hb := H.cont b (hp.mem_iff.mpr hb)
  counted pn hpos := by
    have hrefs : refs leak h.mptr live' pn = refs leak h.mptr live pn := by
      rw [refs, refs, ends, ends, hp.countP_eq]
    rw [hrefs] at hpos ⊢
    exact H.counted pn hpos
  leak_le := H.leak_le
  apart := (hp.pairwise_iff (fun hd => Or.symm hd)).mp H.apart
  above b hb := H.above b (hp.mem_iff.mpr hb)

theorem congr (H : HeapInv leak h live) (hm : h'.mptr = h.mptr)
    (hpte : ∀ pn, h.pte pn ≠ none → h'.pte pn = h.pte pn)
    (href : ∀ pn, 0 < refs leak h.mptr live pn → refWord h'.toSpace pn = refWord h.toSpace pn) :
    HeapInv leak h' live where
  mptr4 := hm ▸ H.mptr4
  lo4 := H.lo4
  whole := H.whole
  cont b hb pn h1 h2 := by
    have hc := H.cont b hb pn h1 h2
    rw [hpte pn (by rw [hc]; exact Option.some_ne_none _), hc]
  counted pn hpos := by
    rw [hm] at hpos ⊢
    obtain ⟨h1, h2, h3⟩ := H.counted pn hpos
    refine ⟨?_, h2, (href pn hpos).trans h3⟩
    rw [hpte pn (by rw [h1]; exact Option.some_ne_none _), h1]
  leak_le := H.leak_le
  apart := H.apart
  above := hm ▸ H.above

theorem setMptr {m : Word} (H : HeapInv leak h live) (h0 : h.mptr.toNat % 4096 = 0)
    (hm : m.toNat % 4096 = 0) : HeapInv leak { h with mptr := m } live := by
  have hrefs : ∀ pn, refs leak m live pn = refs leak h.mptr live pn := by
    intro pn
    rw [refs, refs, heldAt_of_aligned h0, heldAt_of_aligned hm]
  refine ⟨show m.toNat % 4 = 0 by omega, H.lo4, H.whole, H.cont, fun pn hpos => ?_, H.leak_le, H.apart, fun b hb hne => ?_⟩
  · dsimp only at hpos ⊢
    rw [hrefs] at hpos ⊢
    exact H.counted pn hpos
  · exact absurd (heldAt_of_aligned hm b.last) hne

theorem refs_cons (m : Word) : refs leak m (b :: live) pn =
    refs leak m live pn + if b.last = pn then 1 else 0 := by
  rw [refs, refs, ends, ends, List.countP_cons]
  simp only [decide_eq_true_eq]
  omega

theorem cont_apart (H : HeapInv leak h (b :: live)) (hc : c ∈ live) (h1 : c.first ≤ pn)
    (h2 : pn < c.last) : pn < b.first ∨ b.last < pn := by
  have hb : b ∈ b :: live := List.mem_cons_self
  have hc' : c ∈ b :: live := List.mem_cons_of_mem b hc
  have hd : Disjoint b c := List.rel_of_pairwise_cons H.apart hc
  have hwc := H.whole c hc' (by omega)
  have hlc := Block.le_hi (H.lo4 c hc')
  have hcf : c.first = c.lo / 4096 := rfl
  by_contra hn
  rcases Nat.lt_or_ge pn b.last with hlt | hge
  · -- both take the page whole, so they overlap
    have hwb := H.whole b hb (by omega)
    have hlb := Block.le_hi (H.lo4 b hb)
    have hbf : b.first = b.lo / 4096 := rfl
    rw [Disjoint] at hd
    omega
  · have hpn : pn = b.last := by omega
    subst hpn
    exact H.not_cont (refs_pos hb) hc' ⟨h1, h2⟩

theorem counted_freed {s' : Space} {m' : Word} {first last : Nat}
    (H : HeapInv leak h live) (hf : Freed h.toSpace s' first last)
    (hlast : 0 < refs leak h.mptr live last)
    (hcont : ∀ pn, first ≤ pn → pn < last → ¬ 0 < refs leak h.mptr live pn)
    (hrefs : ∀ pn, refs leak m' live' pn =
      refs leak h.mptr live pn - if pn = last then 1 else 0) (hpos : 0 < refs leak m' live' pn) :
    s'.pte pn = some (heapPerm false) ∧ pn < 65536 ∧ refWord s' pn = refs leak m' live' pn := by
  rw [hrefs] at hpos ⊢
  by_cases hpn : pn = last
  · subst hpn
    obtain ⟨-, h2, h3⟩ := H.counted pn hlast
    rw [if_pos rfl] at hpos ⊢
    refine ⟨?_, h2, by rw [hf.ref, h3]⟩
    rw [hf.tail, if_neg (by omega)]
  · rw [if_neg hpn, Nat.sub_zero] at hpos ⊢
    obtain ⟨h1, h2, h3⟩ := H.counted pn hpos
    have hout : pn < first ∨ last < pn := by
      by_contra hn
      exact hcont pn (by omega) (by omega) hpos
    refine ⟨by rw [hf.other pn hout, h1], h2, ?_⟩
    rw [refWord_congr fun x hx1 hx2 => hf.mem x (by omega), h3]

theorem release {s' : Space} (H : HeapInv leak h (b :: live))
    (hf : Freed h.toSpace s' b.first b.last) : HeapInv leak ⟨s', h.mptr⟩ live := by
  have hb : b ∈ b :: live := List.mem_cons_self
  refine ⟨H.mptr4, fun c hc => H.lo4 c (List.mem_cons_of_mem b hc),
    fun c hc => H.whole c (List.mem_cons_of_mem b hc), fun c hc pn h1 h2 => ?_, fun pn hpos => ?_,
    H.leak_le, (List.pairwise_cons.mp H.apart).2, fun c hc => H.above c (List.mem_cons_of_mem b hc)⟩
  · dsimp only
    rw [hf.other pn (H.cont_apart hc h1 h2)]
    exact H.cont c (List.mem_cons_of_mem b hc) pn h1 h2
  · refine counted_freed H hf (refs_pos hb) (fun pn h1 h2 hp => ?_) (fun pn => ?_) hpos
    · exact H.not_cont hp hb ⟨h1, h2⟩
    · rw [refs_cons]
      by_cases hpn : b.last = pn
      · rw [if_pos hpn, if_pos hpn.symm, Nat.add_sub_cancel]
      · rw [if_neg hpn, if_neg (Ne.symm hpn)]
        rfl

theorem leave {s' : Space} {m' : Word} {p : Nat} (H : HeapInv leak h live)
    (hmid : h.mptr.toNat % 4096 ≠ 0) (hp : h.mptr.toNat / 4096 = p)
    (hf : Freed h.toSpace s' p p) (hm : m'.toNat % 4096 = 0) : HeapInv leak ⟨s', m'⟩ live := by
  have hheld : heldAt h.mptr p = 1 := if_pos ⟨hmid, hp⟩
  have hpos : 0 < refs leak h.mptr live p := by
    rw [refs, hheld]
    omega
  refine ⟨show m'.toNat % 4 = 0 by omega, H.lo4, H.whole, fun c hc pn h1 h2 => ?_, fun pn hpn => ?_,
    H.leak_le, H.apart, fun c hc hne => absurd (heldAt_of_aligned hm c.last) hne⟩
  · have hne : pn ≠ p := by
      rintro rfl
      exact H.not_cont hpos hc ⟨h1, h2⟩
    dsimp only
    rw [hf.other pn (by omega)]
    exact H.cont c hc pn h1 h2
  · refine counted_freed H hf hpos (fun pn h1 h2 => by omega) (fun pn => ?_) hpn
    rw [refs, refs, heldAt_of_aligned hm]
    by_cases hpn : pn = p
    · rw [if_pos hpn, hpn, hheld]
      omega
    · have : heldAt h.mptr pn = 0 := if_neg fun hn => hpn (hn.2.symm.trans hp)
      rw [if_neg hpn, this]
      omega

theorem bump {m' : Word} {p : Nat} {w : Word} (H : HeapInv leak h live)
    (hmid : h.mptr.toNat % 4096 ≠ 0) (hp : h.mptr.toNat / 4096 = p) (hb : b.lo = h.mptr.toNat)
    (hlast : b.last = p) (hw : w.toNat = refWord h.toSpace p + 1) (hm : m'.toNat = b.hi) :
    HeapInv leak ⟨setRef h.toSpace p w, m'⟩ (b :: live) := by
  have hm4 := H.mptr4
  have hlo4 : b.lo % 4 = 0 := hb ▸ hm4
  have hhi4 := Block.hi4 hlo4
  have hhi := Block.hi_le hlo4
  have hle : b.lo ≤ b.hi := Nat.le_add_right _ _
  have hfirst : b.first = p := by rw [Block.first, hb, hp]
  have hheld : ∀ pn, heldAt m' pn = heldAt h.mptr pn := by
    intro pn
    rw [heldAt, heldAt, hm, hp, show b.hi / 4096 = p by omega]
    by_cases hpn : p = pn
    · rw [if_pos ⟨by omega, hpn⟩, if_pos ⟨hmid, hpn⟩]
    · rw [if_neg fun hn => hpn hn.2, if_neg fun hn => hpn hn.2]
  have hpos : 0 < refs leak h.mptr live p := by
    have : heldAt h.mptr p = 1 := if_pos ⟨hmid, hp⟩
    rw [refs]
    omega
  have hrefs : ∀ pn, refs leak m' (b :: live) pn =
      refs leak h.mptr live pn + if b.last = pn then 1 else 0 := by
    intro pn
    rw [refs_cons, refs, refs, hheld]
  refine ⟨show m'.toNat % 4 = 0 by omega, ?_, ?_, ?_, fun pn hpn => ?_, H.leak_le, ?_, ?_⟩
  · rintro c (_ | ⟨_, hc⟩)
    · exact hlo4
    · exact H.lo4 c hc
  · rintro c (_ | ⟨_, hc⟩)
    · omega
    · exact H.whole c hc
  · rintro c (_ | ⟨_, hc⟩)
    · omega
    · exact H.cont c hc
  · dsimp only at hpn ⊢
    rw [hrefs] at hpn ⊢
    rw [refWord_setRef]
    by_cases hpp : pn = p
    · subst hpp
      obtain ⟨h1, h2, h3⟩ := H.counted pn hpos
      rw [if_pos rfl, if_pos hlast, hw, h3]
      exact ⟨h1, h2, rfl⟩
    · have hne : ¬ b.last = pn := fun h => hpp (h.symm.trans hlast)
      rw [if_neg hne, Nat.add_zero] at hpn ⊢
      rw [if_neg hpp]
      exact H.counted pn hpn
  · refine List.pairwise_cons.mpr ⟨fun c hc => ?_, H.apart⟩
    have hchi := Block.hi_le (H.lo4 c hc)
    rcases Nat.lt_trichotomy c.last p with hlt | heq | hgt
    · exact .inr (by omega)
    · refine .inr ?_
      rw [hb]
      apply H.above c hc
      rw [heq, heldAt, if_pos ⟨hmid, hp⟩]
      exact Nat.one_ne_zero
    · have hn := H.not_cont hpos hc
      have hcf : c.first = c.lo / 4096 := rfl
      exact .inl (by omega)
  · rintro c (_ | ⟨_, hc⟩) hne
    · exact Nat.le_of_eq hm.symm
    · rw [hheld] at hne
      have := H.above c hc hne
      dsimp only
      omega

theorem refs_eq_zero (H : HeapInv leak h live) (hn : h.pte pn = none) :
    refs leak h.mptr live pn = 0 := by
  by_contra hne
  obtain ⟨h1, -⟩ := H.counted pn (Nat.pos_of_ne_zero hne)
  rw [hn] at h1
  cases h1

/-- A block that ends where its last page begins leaves `mptr` at the start of that page, and the
reference that `malloc` has written down for `mptr` is never dropped. -/
def freshLeak (leak : Nat → Nat) (b : Block) (pn : Nat) : Nat :=
  if b.hi % 4096 = 0 ∧ pn = b.last then 1 else leak pn

section

variable {P k : Nat} {s₁ : Space} {m' : Word}

theorem refs_fresh (H : HeapInv leak h live) (h0 : h.mptr.toNat % 4096 = 0)
    (hclear : h.pte b.last = none) (hlast : b.hi / 4096 = b.last)
    (hm : m'.toNat = b.hi) : refs (freshLeak leak b) m' (b :: live) pn =
      if pn = b.last then 2 else refs leak h.mptr live pn := by
  have hz := H.refs_eq_zero hclear
  rw [refs_cons]
  rw [refs] at hz ⊢
  rw [refs, heldAt_of_aligned h0]
  have hheld : heldAt m' pn = if b.hi % 4096 ≠ 0 ∧ b.last = pn then 1 else 0 := by
    rw [heldAt, hm, hlast]
  rw [hheld, freshLeak]
  by_cases hpn : pn = b.last
  · subst hpn
    by_cases hmod : b.hi % 4096 = 0
    · rw [if_neg (fun hn => hn.1 hmod), if_pos ⟨hmod, rfl⟩, if_pos rfl, if_pos rfl]
      omega
    · rw [if_pos ⟨hmod, rfl⟩, if_neg (fun hn => hmod hn.1), if_pos rfl, if_pos rfl]
      omega
  · rw [if_neg (fun hn => hpn hn.2.symm), if_neg (fun hn => hpn hn.2), if_neg (Ne.symm hpn), if_neg hpn]
    rfl

theorem fresh (H : HeapInv leak h live) (h0 : h.mptr.toNat % 4096 = 0)
    (hfill : Filling h.toSpace s₁ P k k) (hclear : ∀ j < k, h.pte (P + j) = none) (hk : 0 < k)
    (hP : P + k ≤ 65536) (hb : b.lo = 4096 * P) (hsize : b.size + 4 ≤ 4096 * k)
    (hsize' : 4096 * (k - 1) < b.size + 4) (hm : m'.toNat = b.hi) :
    HeapInv (freshLeak leak b) ⟨setRef s₁ b.last 2, m'⟩ (b :: live) := by
  obtain ⟨hfirst, hlast⟩ := Block.pages hb hk hsize hsize'
  have hlo4 : b.lo % 4 = 0 := by omega
  have hhi4 := Block.hi4 hlo4
  have hhi : b.hi = b.lo + b.size := rfl
  have hdiv : b.hi / 4096 = b.last := by omega
  have hnone : ∀ pn, b.first ≤ pn → pn ≤ b.last → h.pte pn = none := by
    intro pn h1 h2
    have := hclear (pn - P) (by omega)
    rwa [show P + (pn - P) = pn by omega] at this
  have hold : ∀ pn, h.pte pn ≠ none → s₁.pte pn = h.pte pn := by
    intro pn hpn
    apply hfill.other
    by_contra hn
    exact hpn (hnone pn (by omega) (by omega))
  have hout : ∀ c ∈ live, ∀ pn, c.first ≤ pn → pn ≤ c.last → pn < b.first ∨ b.last < pn := by
    intro c hc pn h1 h2
    by_contra hn
    exact H.mapped hc h1 h2 (hnone pn (by omega) (by omega))
  refine ⟨show m'.toNat % 4 = 0 by omega, ?_, ?_, ?_, fun pn hpn => ?_, fun pn => ?_, ?_, ?_⟩
  · rintro c (_ | ⟨_, hc⟩)
    · exact hlo4
    · exact H.lo4 c hc
  · rintro c (_ | ⟨_, hc⟩)
    · omega
    · exact H.whole c hc
  · rintro c (_ | ⟨_, hc⟩) pn h1 h2
    · have hj := hfill.mapped (pn - P) (by omega)
      rw [show P + (pn - P) = pn by omega, decide_eq_true (show pn - P + 1 < k by omega)] at hj
      exact hj
    · have hcont := H.cont c hc pn h1 h2
      exact (hold pn (by rw [hcont]; exact Option.some_ne_none _)).trans hcont
  · dsimp only at hpn ⊢
    rw [H.refs_fresh h0 (hnone _ b.first_le (Nat.le_refl _)) hdiv hm] at hpn ⊢
    rw [refWord_setRef]
    by_cases hpp : pn = b.last
    · rw [if_pos hpp, if_pos hpp, hpp]
      have hj := hfill.mapped (k - 1) (by omega)
      rw [← hlast, decide_eq_false (show ¬ k - 1 + 1 < k by omega)] at hj
      exact ⟨hj, by omega, rfl⟩
    · rw [if_neg hpp] at hpn ⊢
      obtain ⟨h1, h2, h3⟩ := H.counted pn hpn
      rw [if_neg hpp]
      have hne : h.pte pn ≠ none := by
        rw [h1]
        exact Option.some_ne_none _
      refine ⟨(hold pn hne).trans h1, h2, ?_⟩
      rw [refWord_congr fun x hx1 hx2 => hfill.mem x ?_, h3]
      by_contra hn
      exact hne (hnone pn (by omega) (by omega))
  · rw [freshLeak]
    split
    · exact Nat.le_succ 1
    · exact H.leak_le pn
  · refine List.pairwise_cons.mpr ⟨fun c hc => ?_, H.apart⟩
    have h1 := hout c hc c.first (Nat.le_refl _) c.first_le
    have h2 := hout c hc c.last c.first_le (Nat.le_refl _)
    have h3 := hout c hc b.first
    have hchi := Block.hi_le (H.lo4 c hc)
    have hbhi := Block.hi_le hlo4
    have hcf : c.first = c.lo / 4096 := rfl
    have hcle := c.first_le
    rw [Disjoint]
    omega
  · rintro c (_ | ⟨_, hc⟩) hne
    · exact Nat.le_of_eq hm.symm
    · have hcl := hout c hc c.last c.first_le (Nat.le_refl _)
      rw [heldAt, hm, hdiv] at hne
      split at hne
      · omega
      · exact absurd rfl hne

end

theorem write {a : Nat} {x : Byte} (H : HeapInv leak h live) (hb : b ∈ live) (h1 : b.lo ≤ a)
    (h2 : a < b.hi) :
    HeapInv leak ⟨{ h.toSpace with mem := Function.update h.mem a x }, h.mptr⟩ live := by
  refine H.congr rfl (fun _ _ => rfl) fun pn hpn => refWord_congr fun y hy1 hy2 => ?_
  have := H.clear_of_ref hpn hb
  exact Function.update_of_ne (by omega) _ _

theorem forget (H : HeapInv leak h (b :: live)) (hle : leak b.last ≤ 1) :
    HeapInv (fun pn => leak pn + if b.last = pn then 1 else 0) h live := by
  have hrefs : ∀ pn, refs (fun pn => leak pn + if b.last = pn then 1 else 0) h.mptr live pn =
      refs leak h.mptr (b :: live) pn := by
    intro pn
    rw [refs_cons, refs, refs]
    omega
  refine ⟨H.mptr4, fun c hc => H.lo4 c (List.mem_cons_of_mem b hc),
    fun c hc => H.whole c (List.mem_cons_of_mem b hc), fun c hc => H.cont c (List.mem_cons_of_mem b hc),
    fun pn hpn => ?_, fun pn => ?_, (List.pairwise_cons.mp H.apart).2,
    fun c hc => H.above c (List.mem_cons_of_mem b hc)⟩
  · rw [hrefs] at hpn ⊢
    exact H.counted pn hpn
  · by_cases hpn : b.last = pn
    · rw [if_pos hpn]
      rw [hpn] at hle
      omega
    · rw [if_neg hpn]
      exact H.leak_le pn

end HeapInv

end Jos.User
