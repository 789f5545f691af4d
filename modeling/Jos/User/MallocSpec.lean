import Jos.User.Blocks

/-! What a call of `malloc` can come to. -/

namespace Jos.User

open Kern

theorem toNat_roundUp4 {n : Word} (h : n.toNat < 2 ^ 31) :
    (roundUp n 4).toNat = (n.toNat + 3) / 4 * 4 := by
  have hadd : n + 4 - 1 = n + 3 := by
    rw [BitVec.sub_eq_add_neg, BitVec.add_assoc]
    rfl
  have h3 : (n + 3).toNat = n.toNat + 3 := by
    rw [BitVec.toNat_add]
    exact Nat.mod_eq_of_lt (show n.toNat + 3 < 2 ^ 32 by omega)
  have hmod : ((n + 3) % 4).toNat = (n.toNat + 3) % 4 := by
    rw [BitVec.toNat_umod, h3]
    rfl
  have hle : (n + 3) % 4 ≤ n + 3 := by
    rw [BitVec.le_def, hmod, h3]
    exact Nat.mod_le _ _
  rw [roundUp, hadd, roundDown, BitVec.toNat_sub_of_le hle, hmod, h3]
  omega

inductive Leaves (h : Heap) : Heap → Prop
  | aligned {m : Word} : h.mptr.toNat % 4096 = 0 → m.toNat % 4096 = 0 →
      (h.mptr = 0 ∧ m = mbegin ∨ h.mptr ≠ 0 ∧ m = h.mptr) → Leaves h { h with mptr := m }
  | dropped {s : Space} {m : Word} {p : Nat} : h.mptr.toNat % 4096 ≠ 0 → h.mptr.toNat / 4096 = p →
      32768 ≤ p → p < 65536 → Freed h.toSpace s p p → m.toNat = 4096 * (p + 1) → Leaves h ⟨s, m⟩

def Fits (h : Heap) (b : Block) : Prop :=
  h.mptr.toNat % 4096 ≠ 0 ∧ h.mptr.toNat / 4096 = (h.mptr.toNat + b.size + 3) / 4096

instance (h : Heap) (b : Block) : Decidable (Fits h b) := inferInstanceAs (Decidable (_ ∧ _))

structure Bumped (h h' : Heap) (b : Block) (p : Nat) (w : Word) : Prop where
  mid : h.mptr.toNat % 4096 ≠ 0
  page : h.mptr.toNat / 4096 = p
  addr : b.1 = h.mptr
  last : b.last = p
  count : w.toNat = refWord h.toSpace p + 1
  space : h'.toSpace = setRef h.toSpace p w
  mptr : h'.mptr.toNat = b.hi

theorem Bumped.ne_zero {h h' : Heap} {b : Block} {p : Nat} {w : Word} (hb : Bumped h h' b p w) :
    b.1 ≠ 0 := fun h0 => hb.mid (by rw [← hb.addr, h0]; rfl)

structure Fresh (h h' : Heap) (b : Block) (P k : Nat) (s₁ : Space) : Prop where
  addr : b.1 = pageAddr P
  fill : Filling h.toSpace s₁ P k k
  clear : ∀ j < k, h.pte (P + j) = none
  pos : 0 < k
  top : P + k ≤ 65536
  size : b.size + 4 ≤ 4096 * k
  size' : 4096 * (k - 1) < b.size + 4
  space : h'.toSpace = setRef s₁ b.last 2
  mptr : h'.mptr.toNat = b.hi

/-- The request refused: the mappings stay, and no page that is mapped loses its bytes. -/
structure Refused (h h' : Heap) : Prop where
  mptr : h'.mptr.toNat % 4096 = 0
  pte : h'.pte = h.pte
  mem : ∀ x, h.pte (x / 4096) ≠ none → h'.mem x = h.mem x

theorem toNat_blockEnd {m n : Word} (hm : m.toNat / 4096 < 65536) (hn : n.toNat < 2 ^ 20) :
    (m + n - 1 + 4).toNat = m.toNat + n.toNat + 3 := by
  have h1 : (1 : Word).toNat = 1 := rfl
  have h4 : (4 : Word).toNat = 4 := rfl
  rw [BitVec.toNat_add, BitVec.toNat_sub, BitVec.toNat_add, h1, h4]
  omega

theorem pgoff_iff {a : Word} : pgoff a = 0 ↔ a.toNat % 4096 = 0 := by rw [pgoff_eq]

theorem fresh_pages (size : Nat) (h4 : size % 4 = 0) :
    size + 4 ≤ 4096 * (size / 4096 + 1) ∧ 4096 * (size / 4096 + 1 - 1) < size + 4 := by
  omega

theorem Filling.refl (s : Space) (P k : Nat) : Filling s s P k 0 :=
  ⟨fun _ hj => absurd hj (Nat.not_lt_zero _), fun _ _ => rfl, fun _ _ => rfl⟩

theorem storeWord_last {s : Space} {q : Nat} {w : Word} (hq : q < 2 ^ 20)
    (hp : s.pte q = some (heapPerm false)) :
    s.storeWord (pageAddr (q + 1) - 4) w = some (setRef s q w) := by
  have hpg : pgnum (pageAddr (q + 1) - 4) = q := by rw [← pageAddr_succ, pgnum_refAddr hq]
  have hto : (pageAddr (q + 1) - 4).toNat = 4096 * q + 4092 := by
    rw [← pageAddr_succ, toNat_refAddr hq]
  have htouch : s.touch (pageAddr (q + 1) - 4) = some s := by
    rw [Space.touch, hpg, hp]
    exact if_pos (by decide)
  rw [Space.storeWord, htouch, hto]
  rfl

theorem mallocFresh_found {avail P : Nat} {h : Heap} {n n' : Word}
    (hn : n'.toNat = (n.toNat + 3) / 4 * 4) (hlt : n'.toNat < 2 ^ 20) (hP : P < 2 ^ 20)
    (hs : search h.toSpace n' (2 ^ 21) h.mptr 0 = some (pageAddr P, true))
    (hclear : Clear h.toSpace P (n'.toNat + 4)) :
    (∃ h' k s₁, mallocFresh avail h n' = some (pageAddr P, h') ∧ Fresh h h' (pageAddr P, n) P k s₁) ∨
    avail < n'.toNat / 4096 + 1 ∧
      ∃ s', mallocFresh avail h n' = some (0, ⟨s', pageAddr P⟩) ∧ Refused h ⟨s', pageAddr P⟩ := by
  rw [mallocFresh, hs]
  dsimp only
  obtain ⟨hk, hk'⟩ := fresh_pages n'.toNat (by omega)
  generalize hkk : n'.toNat / 4096 + 1 = k at hk hk'
  have hpages : ∀ j < k, P + j < 65536 ∧ h.pte (P + j) = none := by
    intro j hj
    apply hclear (P + j) (Nat.le_add_right P j)
    have := Nat.mul_le_mul_left 4096 (show j ≤ k - 1 by omega)
    omega
  have htop : P + k ≤ 65536 := by
    have := (hpages (k - 1) (by omega)).1
    omega
  rcases allocFrom_cases hk hk' (by omega) (fun j hj => (hpages j hj).2) k (n'.toNat / 4096 + 2)
    avail 0 h.toSpace (by omega) (by omega) (.refl _ _ _) with
    ⟨s₁, halloc, -, hfill⟩ | ⟨s₁, halloc, havail, hpte, hmem⟩
  · left
    have hlast : s₁.pte (P + (k - 1)) = some (heapPerm false) := by
      rw [hfill.mapped (k - 1) (by omega), decide_eq_false (show ¬ k - 1 + 1 < k by omega)]
    have hlo : Block.lo (pageAddr P, n) = 4096 * P := toNat_pageAddr hP
    have hsize : Block.size (pageAddr P, n) = n'.toNat := hn.symm
    obtain ⟨-, hl⟩ := Block.pages (b := (pageAddr P, n)) (k := k) hlo (by omega) (by omega) (by omega)
    refine ⟨⟨setRef s₁ (P + (k - 1)) 2, pageAddr P + n'⟩, k, s₁, ?_, rfl, hfill,
      fun j hj => (hpages j hj).2, by omega, htop, by omega, by omega, by rw [hl], ?_⟩
    · rw [halloc]
      dsimp only
      rw [pageAddr_add, show P + k = P + (k - 1) + 1 by omega, storeWord_last (by omega) hlast]
      rfl
    · dsimp only
      rw [Block.hi, hlo, hsize, BitVec.toNat_add, toNat_pageAddr hP]
      exact Nat.mod_eq_of_lt (by omega)
  · right
    refine ⟨havail, s₁, by rw [halloc], ?_, hpte, fun x hx => hmem x ?_⟩
    · dsimp only
      rw [toNat_pageAddr hP]
      omega
    · by_contra hin
      have hj := (hpages (x / 4096 - P) (by omega)).2
      rw [show P + (x / 4096 - P) = x / 4096 by omega] at hj
      exact hx hj

theorem mallocFresh_cases {avail : Nat} {h h' : Heap} {n n' v : Word} (h0 : h.mptr.toNat % 4096 = 0)
    (hn : n'.toNat = (n.toNat + 3) / 4 * 4) (hlt : n'.toNat < 2 ^ 20)
    (hres : mallocFresh avail h n' = some (v, h')) :
    v = 0 ∧ Refused h h' ∨ ∃ P k s₁, v = pageAddr P ∧ Fresh h h' (v, n) P k s₁ := by
  cases hs : search h.toSpace n' (2 ^ 21) h.mptr 0 with
  | none =>
    rw [mallocFresh, hs] at hres
    cases hres
  | some found =>
    obtain ⟨m, ok⟩ := found
    obtain ⟨hm, hfree⟩ := search_some (pgoff_iff.mpr h0) hs
    cases ok with
    | false =>
      rw [mallocFresh, hs] at hres
      cases hres
      exact .inl ⟨rfl, pgoff_iff.mp hm, rfl, fun _ _ => rfl⟩
    | true =>
      obtain ⟨P, hP, rfl⟩ : ∃ P < 2 ^ 20, m = pageAddr P := by
        refine ⟨pgnum m, ?_, eq_pageAddr hm⟩
        have := m.isLt
        rw [pgnum_eq]
        omega
      have h4 : (n' + 4).toNat = n'.toNat + 4 := by
        rw [BitVec.toNat_add]
        exact Nat.mod_eq_of_lt (show n'.toNat + 4 < 2 ^ 32 by omega)
      by_cases hwrap : 4096 * P + (n' + 4).toNat < 2 ^ 32
      · have hclear := (isfree_iff hP hwrap).mp (hfree rfl)
        rw [h4] at hclear
        rcases mallocFresh_found hn hlt hP hs hclear with
          ⟨h₁, k, s₁, hmal, hf⟩ | ⟨-, s', hmal, hr⟩
        · rw [hmal] at hres
          cases hres
          exact .inr ⟨P, k, s₁, rfl, hf⟩
        · rw [hmal] at hres
          cases hres
          exact .inl ⟨rfl, hr⟩
      · -- `isfree` says yes where the range wraps around, but no page can be mapped there
        have htop : utop ≤ pageAddr P := by
          rw [BitVec.le_def, toNat_utop, toNat_pageAddr hP]
          omega
        have halloc : allocFrom (pageAddr P) n' (n'.toNat / 4096 + 2) avail 0 h.toSpace = (h.toSpace, none) := by
          rw [allocFrom, if_pos (by omega), pageAddr_add, Nat.add_zero]
          dsimp only
          rw [Space.sysPageAlloc, if_pos (.inr (.inl htop))]
          dsimp only
          rw [unmapDown, Space.sysPageUnmap, if_pos (.inl htop)]
        rw [mallocFresh, hs] at hres
        dsimp only at hres
        rw [halloc] at hres
        cases hres
        exact .inl ⟨rfl, pgoff_iff.mp hm, rfl, fun _ _ => rfl⟩

theorem heapPerm_continued : heapPerm false &&& pteContinued = 0 := by decide

def startPtr (m : Word) : Word := if m = 0 then mbegin else m

theorem startPtr_of_ne {m : Word} (h : m ≠ 0) : startPtr m = m := if_neg h

theorem HeapInv.mid {leak : Nat → Nat} {h : Heap} {live : List Block} (H : HeapInv leak h live)
    (hmid : h.mptr.toNat % 4096 ≠ 0) :
    h.pte (h.mptr.toNat / 4096) = some (heapPerm false) ∧ h.mptr.toNat / 4096 < 65536 ∧
      0 < refWord h.toSpace (h.mptr.toNat / 4096) ∧
      refWord h.toSpace (h.mptr.toNat / 4096) ≤ live.length + 3 := by
  have hheld : heldAt h.mptr (h.mptr.toNat / 4096) = 1 := if_pos ⟨hmid, rfl⟩
  have hends := ends_le live (h.mptr.toNat / 4096)
  have hleak := H.leak_le (h.mptr.toNat / 4096)
  obtain ⟨h1, h2, h3⟩ := H.counted (h.mptr.toNat / 4096) (by rw [refs]; omega)
  rw [refs] at h3
  exact ⟨h1, h2, by omega, by omega⟩

theorem refAddr_mid {m : Word} (hmid : m.toNat % 4096 ≠ 0) (hlt : m.toNat / 4096 + 1 < 2 ^ 20) :
    roundUp m pgsize - 4 = pageAddr (m.toNat / 4096 + 1) - 4 := by
  have hup : roundUp m pgsize = pageAddr (m.toNat / 4096 + 1) := by
    apply BitVec.eq_of_toNat_eq
    rw [toNat_roundUp, toNat_pageAddr hlt]
    omega
  rw [hup]

section

variable {leak : Nat → Nat} {avail : Nat} {h h' : Heap} {live : List Block} {n n' v : Word}

theorem Bumped.of_room (H : HeapInv leak h live) (hlen : live.length + 4 < 2 ^ 32)
    (hn : n'.toNat = (n.toNat + 3) / 4 * 4) (hmid : h.mptr.toNat % 4096 ≠ 0)
    (hfit : h.mptr.toNat / 4096 = (h.mptr.toNat + n'.toNat + 3) / 4096) :
    ∃ h' p w, (do
      let r ← h.loadWord (roundUp h.mptr pgsize - 4)
      let s ← h.storeWord (roundUp h.mptr pgsize - 4) (r + 1)
      return (h.mptr, (⟨s, h.mptr + n'⟩ : Heap))) = some (h.mptr, h') ∧
      Bumped h h' (h.mptr, n) p w := by
  obtain ⟨hpte, htop, hpos, hle⟩ := H.mid hmid
  rw [refAddr_mid hmid (by omega)]
  have hload : h.loadWord (pageAddr (h.mptr.toNat / 4096 + 1) - 4) =
      some (h.mem.word (4096 * (h.mptr.toNat / 4096) + 4092)) := by
    rw [Space.loadWord, ← pageAddr_succ, pgnum_refAddr (by omega), hpte, toNat_refAddr (by omega)]
    rfl
  rw [hload]
  simp only [Option.bind_eq_bind, Option.bind_some]
  rw [storeWord_last (by omega) hpte]
  have hlo : Block.lo (h.mptr, n) = h.mptr.toNat := rfl
  have hsize : Block.size (h.mptr, n) = n'.toNat := hn.symm
  refine ⟨_, _, _, rfl, hmid, rfl, rfl, ?_, ?_, rfl, ?_⟩
  · rw [Block.last, Block.hi, hlo, hsize]
    omega
  · have h1 : (1 : Word).toNat = 1 := rfl
    rw [BitVec.toNat_add, h1]
    rw [refWord] at hle ⊢
    exact Nat.mod_eq_of_lt (by omega)
  · dsimp only
    rw [Block.hi, hlo, hsize, BitVec.toNat_add]
    exact Nat.mod_eq_of_lt (by omega)

theorem Leaves.of_free {s : Space} (H : HeapInv leak h live) (hmid : h.mptr.toNat % 4096 ≠ 0)
    (hfree : free h.toSpace h.mptr = some s) :
    Leaves h ⟨s, roundDown (h.mptr + pgsize) pgsize⟩ := by
  obtain ⟨hpte, htop, hpos, -⟩ := H.mid hmid
  have hin : mbegin ≤ h.mptr ∧ h.mptr < mend := by
    refine (free_some hfree).resolve_left fun hz => hmid ?_
    rw [hz.1]
    rfl
  rw [BitVec.le_def, BitVec.lt_def, toNat_mbegin, toNat_mend] at hin
  obtain ⟨s', hs', hfreed⟩ := free_freed (pgnum_eq h.mptr) (by omega) (Nat.le_refl _) (by omega) hpte
    heapPerm_continued (.inl rfl) hpos fun pn h1 h2 => by omega
  rw [hfree] at hs'
  cases hs'
  refine .dropped hmid rfl (by omega) (by omega) hfreed ?_
  rw [toNat_roundDown, BitVec.toNat_add, toNat_pgsize]
  omega

theorem Leaves.aligned' (hoff : pgoff (startPtr h.mptr) = 0) :
    Leaves h { h with mptr := startPtr h.mptr } := by
  by_cases hz : h.mptr = 0
  · refine .aligned ?_ (pgoff_iff.mp hoff) (.inl ⟨hz, if_pos hz⟩)
    rw [hz]
    rfl
  · rw [startPtr_of_ne hz] at hoff ⊢
    exact .aligned (pgoff_iff.mp hoff) (pgoff_iff.mp hoff) (.inr ⟨hz, rfl⟩)

theorem Leaves.mptr {h₁ : Heap} (hl : Leaves h h₁) : h₁.mptr.toNat % 4096 = 0 := by
  cases hl with
  | aligned _ hm _ => exact hm
  | dropped _ _ _ _ _ hm =>
    dsimp only
    omega

theorem malloc_cases (H : HeapInv leak h live) (hn : n.toNat < 2 ^ 20)
    (hlen : live.length + 4 < 2 ^ 32) (hres : malloc avail h n = some (v, h')) :
    (v = 0 ∧ h' = { h with mptr := startPtr h.mptr }) ∨
    (∃ p w, Bumped h h' (v, n) p w) ∨
    ¬ Fits h (v, n) ∧ Block.size (v, n) < 2 ^ 20 ∧
      ∃ h₁, Leaves h h₁ ∧ (v = 0 ∧ Refused h₁ h' ∨ ∃ P k s₁, v = pageAddr P ∧ Fresh h₁ h' (v, n) P k s₁) := by
  have hround := toNat_roundUp4 (n := n) (by omega)
  have hh : (if h.mptr = 0 then { h with mptr := mbegin } else h) = { h with mptr := startPtr h.mptr } := by
    rw [startPtr]
    split
    · rfl
    · rfl
  have hmax : maxmalloc.toNat = 2 ^ 20 := by decide
  rw [malloc, hh] at hres
  dsimp only at hres
  generalize roundUp n 4 = n' at hround hres
  split at hres
  · cases hres
    exact .inl ⟨rfl, rfl⟩
  next hlt =>
  rw [BitVec.le_def, hmax, Nat.not_le] at hlt
  have hsize : Block.size (v, n) = n'.toNat := hround.symm
  right
  split at hres
  · next hoff =>
    have hne : h.mptr ≠ 0 := by
      intro hz
      rw [hz] at hoff
      exact hoff (by decide)
    rw [startPtr_of_ne hne] at hoff hres
    have hmid : h.mptr.toNat % 4096 ≠ 0 := fun hz => hoff (pgoff_iff.mpr hz)
    obtain ⟨-, htop, -⟩ := H.mid hmid
    have hend := toNat_blockEnd (m := h.mptr) (by omega) hlt
    split at hres
    · next hfit =>
      rw [pgnum_eq, pgnum_eq, hend] at hfit
      obtain ⟨h₁, p, w, heq, hb⟩ := Bumped.of_room H hlen hround hmid hfit
      rw [heq] at hres
      cases hres
      exact .inl ⟨p, w, hb⟩
    · next hfit =>
      rw [pgnum_eq, pgnum_eq, hend] at hfit
      right
      refine ⟨fun hf => hfit (by rw [← hsize]; exact hf.2), hsize ▸ hlt, ?_⟩
      cases hfree : free h.toSpace h.mptr with
      | none =>
        rw [hfree] at hres
        cases hres
      | some s =>
        rw [hfree] at hres
        have hl : Leaves h ⟨s, roundDown (h.mptr + pgsize) pgsize⟩ := .of_free H hmid hfree
        exact ⟨_, hl, mallocFresh_cases hl.mptr hround hlt hres⟩
  · next hoff =>
    have hl : Leaves h { h with mptr := startPtr h.mptr } := .aligned' (Decidable.not_not.mp hoff)
    refine .inr ⟨fun hf => hf.1 ?_, hsize ▸ hlt, _, hl, mallocFresh_cases hl.mptr hround hlt hres⟩
    cases hl with
    | aligned h0 _ _ => exact h0
    | dropped h0 _ _ _ _ hm =>
      have hz : startPtr h.mptr = h.mptr := startPtr_of_ne fun hz => h0 (by rw [hz]; rfl)
      rw [hz] at hm
      omega

end

end Jos.User
