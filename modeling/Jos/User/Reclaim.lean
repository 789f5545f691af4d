import Jos.User.Arena
import Mathlib.Order.Interval.Finset.Nat

/-! Which pages of the heap stay mapped. -/

namespace Jos.User

open Kern Lib

/-- A page of the heap that is mapped is a live block's, or `mptr` is in the middle of it. -/
def Accounted (h : Heap) (live : List Block) : Prop :=
  ∀ pn, 32768 ≤ pn → pn < 65536 → h.pte pn ≠ none →
    (∃ b ∈ live, b.first ≤ pn ∧ pn ≤ b.last) ∨ h.mptr.toNat % 4096 ≠ 0 ∧ h.mptr.toNat / 4096 = pn

section

variable {leak : Nat → Nat} {h h' h₁ : Heap} {live : List Block} {b : Block}

theorem exists_of_ends {pn : Nat} (hp : 0 < ends live pn) : ∃ b ∈ live, b.first ≤ pn ∧ pn ≤ b.last := by
  obtain ⟨b, hb, hl⟩ := List.countP_pos_iff.mp hp
  rw [decide_eq_true_eq] at hl
  subst hl
  exact ⟨b, hb, b.first_le, Nat.le_refl _⟩

theorem Leaves.accounted (hl : Leaves h h₁) (H : HeapInv leak h live)
    (hz : ∀ pn, 32768 ≤ pn → leak pn = 0) (A : Accounted h live) : Accounted h₁ live := by
  intro pn h1 h2 hpn
  left
  cases hl with
  | aligned h0 _ _ => exact (A pn h1 h2 hpn).resolve_right fun hm => hm.1 h0
  | @dropped s m p hmid hp _ _ hf hm =>
    by_cases hpp : pn = p
    · subst hpp
      have hheld : heldAt h.mptr pn = 1 := if_pos ⟨hmid, hp⟩
      obtain ⟨-, -, href⟩ := H.counted pn (by rw [refs]; omega)
      have hne : refWord h.toSpace pn ≠ 1 := by
        intro h1
        dsimp only at hpn
        rw [hf.tail, if_pos h1] at hpn
        exact hpn rfl
      have hleak := hz pn h1
      rw [refs] at href
      exact exists_of_ends (by omega)
    · dsimp only at hpn
      rw [hf.other pn (by omega)] at hpn
      exact (A pn h1 h2 hpn).resolve_right fun hm => hpp (hm.2.symm.trans hp)

theorem Bumped.accounted {p : Nat} {w : Word} (hb : Bumped h h' b p w) (A : Accounted h live) :
    Accounted h' (b :: live) := by
  intro pn h1 h2 hpn
  left
  rw [hb.space] at hpn
  rcases A pn h1 h2 hpn with ⟨c, hc, hcp⟩ | ⟨-, hm⟩
  · exact ⟨c, List.mem_cons_of_mem b hc, hcp⟩
  · refine ⟨b, List.mem_cons_self, ?_, ?_⟩
    · rw [Block.first, Block.lo, hb.addr, hm]
    · rw [hb.last, ← hb.page, hm]

theorem Fresh.accounted {P k : Nat} {s₁ : Space} (hf : Fresh h h' b P k s₁) (A : Accounted h live)
    (h0 : h.mptr.toNat % 4096 = 0) : Accounted h' (b :: live) := by
  have htop := hf.top
  have hlo : b.lo = 4096 * P := by rw [Block.lo, hf.addr, toNat_pageAddr (by omega)]
  obtain ⟨hfirst, hlast⟩ := Block.pages hlo hf.pos hf.size hf.size'
  intro pn h1 h2 hpn
  left
  rw [hf.space] at hpn
  by_cases hin : P ≤ pn ∧ pn < P + k
  · exact ⟨b, List.mem_cons_self, by omega, by omega⟩
  · have hother : s₁.pte pn = h.pte pn := hf.fill.other pn (by omega)
    obtain ⟨c, hc, hcp⟩ := (A pn h1 h2 (hother ▸ hpn)).resolve_right fun hm => hm.1 h0
    exact ⟨c, List.mem_cons_of_mem b hc, hcp⟩

theorem Accounted.malloc {avail : Nat} {n v : Word} (A : Accounted h live) (H : HeapInv leak h live)
    (hz : ∀ pn, 32768 ≤ pn → leak pn = 0) (hn : n.toNat < 2 ^ 20) (hlen : live.length + 4 < 2 ^ 32)
    (hres : malloc avail h n = some (v, h')) :
    Accounted h' (if v = 0 then live else (v, n) :: live) := by
  rcases malloc_cases H hn hlen hres with ⟨rfl, rfl⟩ | ⟨p, w, hb⟩ | ⟨-, -, h₁, hl, ⟨rfl, hr⟩ | ⟨P, k, s₁, hvP, hf⟩⟩
  · intro pn h1 h2 hpn
    refine (A pn h1 h2 hpn).imp_right fun hm => ?_
    rw [startPtr_of_ne fun hz => hm.1 (by rw [hz]; rfl)]
    exact hm
  · rw [if_neg hb.ne_zero]
    exact hb.accounted A
  · intro pn h1 h2 hpn
    rw [hr.pte] at hpn
    left
    exact (hl.accounted H hz A pn h1 h2 hpn).resolve_right fun hm => hm.1 hl.mptr
  · have hA := hf.accounted (hl.accounted H hz A) hl.mptr
    by_cases hv : v = 0
    · rw [if_pos hv]
      intro pn h1 h2 hpn
      refine (hA pn h1 h2 hpn).imp_left fun ⟨c, hc, hcp⟩ => ?_
      rcases List.mem_cons.mp hc with rfl | hc
      · -- the block at address 0 takes no page of the heap
        have hsize : Block.size (v, n) = (n.toNat + 3) / 4 * 4 := rfl
        have hhi : Block.hi (v, n) = Block.lo (v, n) + Block.size (v, n) := rfl
        have hlo : Block.lo (v, n) = 0 := by rw [hv]; rfl
        rw [Block.last] at hcp
        omega
      · exact ⟨c, hc, hcp⟩
    · rw [if_neg hv]
      exact hA

theorem Accounted.free {s' : Space} (A : Accounted h live) (H : HeapInv leak h live)
    (hz : ∀ pn, 32768 ≤ pn → leak pn = 0) (hb : b ∈ live)
    (hf : Freed h.toSpace s' b.first b.last) : Accounted ⟨s', h.mptr⟩ (live.erase b) := by
  intro pn h1 h2 hpn
  dsimp only at hpn ⊢
  rcases Nat.lt_trichotomy pn b.last with hlt | rfl | hgt
  · by_cases hin : b.first ≤ pn
    · exact absurd (hf.cont pn hin hlt) hpn
    · rw [hf.other pn (by omega)] at hpn
      refine (A pn h1 h2 hpn).imp_left fun ⟨c, hc, hcp⟩ => ⟨c, ?_, hcp⟩
      refine (List.mem_erase_of_ne ?_).mpr hc
      rintro rfl
      exact hin hcp.1
  · have H' := H.perm (List.perm_cons_erase hb)
    obtain ⟨-, -, href⟩ := H'.last_page List.mem_cons_self
    have hne : refWord h.toSpace b.last ≠ 1 := by
      intro hone
      rw [hf.tail, if_pos hone] at hpn
      exact hpn rfl
    have hleak := hz b.last h1
    rw [HeapInv.refs_cons, if_pos rfl, refs] at href
    by_cases hends : 0 < ends (live.erase b) b.last
    · exact .inl (exists_of_ends hends)
    · right
      have hheld : heldAt h.mptr b.last ≠ 0 := by omega
      rw [heldAt] at hheld
      by_contra hn
      exact hheld (if_neg hn)
  · rw [hf.other pn (.inr hgt)] at hpn
    refine (A pn h1 h2 hpn).imp_left fun ⟨c, hc, hcp⟩ => ⟨c, ?_, hcp⟩
    refine (List.mem_erase_of_ne ?_).mpr hc
    rintro rfl
    omega

end

def Heap.pages (h : Heap) : Finset Nat := {pn ∈ Finset.Ico 32768 65536 | (h.pte pn).isSome}

def Block.npages (b : Block) : Nat := b.last + 1 - b.first

def blockPages : List Block → Finset Nat
  | [] => ∅
  | b :: live => Finset.Icc b.first b.last ∪ blockPages live

theorem mem_blockPages {live : List Block} {b : Block} {pn : Nat} (hb : b ∈ live)
    (hpn : b.first ≤ pn ∧ pn ≤ b.last) : pn ∈ blockPages live := by
  induction live with
  | nil => cases hb
  | cons c live ih =>
    rw [blockPages, Finset.mem_union]
    rcases List.mem_cons.mp hb with rfl | hb
    · exact .inl (Finset.mem_Icc.mpr hpn)
    · exact .inr (ih hb)

theorem card_blockPages (live : List Block) :
    (blockPages live).card ≤ (live.map Block.npages).sum := by
  induction live with
  | nil => exact Nat.le_refl 0
  | cons b live ih =>
    rw [blockPages, List.map_cons, List.sum_cons]
    have hunion := Finset.card_union_le (Finset.Icc b.first b.last) (blockPages live)
    rw [Nat.card_Icc] at hunion
    rw [Block.npages]
    omega

theorem Accounted.card_le {h : Heap} {live : List Block} (A : Accounted h live) :
    h.pages.card ≤ 1 + (live.map Block.npages).sum := by
  have hsub : h.pages ⊆ insert (h.mptr.toNat / 4096) (blockPages live) := by
    intro pn hpn
    rw [Heap.pages, Finset.mem_filter, Finset.mem_Ico] at hpn
    rw [Finset.mem_insert]
    rcases A pn hpn.1.1 hpn.1.2 (Option.isSome_iff_ne_none.mp hpn.2) with ⟨b, hb, hbp⟩ | hm
    · exact .inr (mem_blockPages hb hbp)
    · exact .inl hm.2.symm
  have h1 := Finset.card_le_card hsub
  have h2 := Finset.card_insert_le (h.mptr.toNat / 4096) (blockPages live)
  have h3 := card_blockPages live
  omega

def HeapEvent.Tidy (a : Arena) : HeapEvent → Prop
  | .malloc _ n => User.Tidy a.heap (0, n)
  | _ => True

structure Reclaimed (leak : Nat → Nat) (a : Arena) : Prop extends ArenaInv leak a where
  none_lost : ∀ pn, 32768 ≤ pn → leak pn = 0
  accounted : Accounted a.heap a.live

theorem Reclaimed.step {leak : Nat → Nat} {a a' : Arena} {e : HeapEvent} (H : Reclaimed leak a)
    (hl : e.Legal a) (hc : e.Countable a) (ht : e.Tidy a) (hst : heapStep a e = some a') :
    ∃ leak', Reclaimed leak' a' := by
  cases e with
  | malloc avail n =>
    obtain ⟨leak', H', -, hleak⟩ := H.toArenaInv.malloc hl hc hst
    obtain ⟨⟨v, h'⟩, hres, rfl⟩ := Option.map_eq_some_iff.mp hst
    exact ⟨leak', H', fun pn hpn => (hleak ht pn hpn).trans (H.none_lost pn hpn),
      H.accounted.malloc H.toHeapInv H.none_lost hl hc hres⟩
  | free b =>
    obtain ⟨H', -, hf⟩ := H.toArenaInv.free hl hst
    obtain ⟨s', hres, rfl⟩ := Option.map_eq_some_iff.mp hst
    exact ⟨leak, H', H.none_lost, H.accounted.free H.toHeapInv H.none_lost hl hf⟩
  | write va x =>
    obtain ⟨H', hp⟩ := H.toArenaInv.write hl hst
    obtain ⟨s', hres, rfl⟩ := Option.map_eq_some_iff.mp hst
    refine ⟨leak, H', H.none_lost, fun pn h1 h2 hpn => H.accounted pn h1 h2 ?_⟩
    rwa [hp] at hpn

/-- In every state that such calls lead to, a page of the heap is mapped only for a live block or
because `mptr` is in it. -/
theorem malloc_reclaims {s : Space} {es : List HeapEvent} {a : Arena}
    (hs : ∀ pn, 32768 ≤ pn → pn < 65536 → s.pte pn = none)
    (h : Run heapStep (fun a e => e.Legal a ∧ e.Countable a ∧ e.Tidy a) ⟨⟨s, 0⟩, []⟩ es a) :
    Accounted a.heap a.live ∧ a.heap.pages.card ≤ 1 + (a.live.map Block.npages).sum ∧
      (a.live = [] → ∀ pn, 32768 ≤ pn → pn < 65536 → a.heap.pte pn ≠ none →
        pn = a.heap.mptr.toNat / 4096) := by
  obtain ⟨leak, H⟩ := h.invariant (fun a => ∃ leak, Reclaimed leak a)
    (fun ⟨_, H⟩ hg hst => H.step hg.1 hg.2.1 hg.2.2 hst)
    ⟨_, .start s, fun _ _ => rfl, fun pn h1 h2 hpn => absurd (hs pn h1 h2) hpn⟩
  refine ⟨H.accounted, H.accounted.card_le, fun hlive pn h1 h2 hpn => ?_⟩
  rcases H.accounted pn h1 h2 hpn with ⟨b, hb, -⟩ | hm
  · rw [hlive] at hb
    cases hb
  · exact hm.2.symm

instance (h : Heap) (b : Block) : Decidable (Tidy h b) := inferInstanceAs (Decidable (_ ∨ _ ∨ _))

instance (a : Arena) : ∀ e : HeapEvent, Decidable (e.Tidy a)
  | .malloc _ n => inferInstanceAs (Decidable (Tidy a.heap (0, n)))
  | .free _ => isTrue trivial
  | .write _ _ => isTrue trivial

theorem malloc_reclaims_twice : ∃ a, Run heapStep (fun a e => e.Legal a ∧ e.Countable a ∧ e.Tidy a)
    ⟨⟨bareSpace, 0⟩, []⟩ [.malloc 9 5000, .free (0x08000000, 5000), .malloc 9 5000,
      .free (0x08002000, 5000)] a ∧ a.live = [] ∧ a.heap.pages.card ≤ 1 := by
  have hrun : ∃ a, Run heapStep (fun a e => e.Legal a ∧ e.Countable a ∧ e.Tidy a)
      ⟨⟨bareSpace, 0⟩, []⟩ [.malloc 9 5000, .free (0x08000000, 5000), .malloc 9 5000,
        .free (0x08002000, 5000)] a ∧ a.live = [] := by
    apply Run.exists_ofFoldlM
    decide +kernel
  obtain ⟨a, hrun, ha⟩ := hrun
  obtain ⟨-, hcard, -⟩ := malloc_reclaims (fun _ _ _ => rfl) hrun
  rw [ha] at hcard
  exact ⟨a, hrun, ha, hcard⟩

theorem malloc_page_lost : ∃ a, Run heapStep (fun a e => e.Legal a ∧ e.Countable a)
    ⟨⟨bareSpace, 0⟩, []⟩ [.malloc 9 4096, .free (0x08000000, 4096), .malloc 9 4096,
      .free (0x08002000, 4096)] a ∧
    (a.live = [] ∧ a.heap.pte 32769 ≠ none ∧ a.heap.pte 32771 ≠ none ∧ a.heap.mptr = 0x08003000) := by
  apply Run.exists_ofFoldlM
  decide +kernel

end Jos.User
