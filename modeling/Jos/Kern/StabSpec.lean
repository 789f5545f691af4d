import Jos.Kern.Stab

/-! When `stab_binsearch` finds what it looks for.  After an exact hit it goes on with the next
address as its key, and an entry with that value is taken for the answer if it is still in the
interval. -/

namespace Jos.Kern

section

variable (stabs : Int → Stab) (type : Word)

/-- Halving `[l, r]` comes to the entry `i` while `j` is still in the interval. -/
inductive Meets (i j : Int) : Int → Int → Prop
  | here {l r} : Owns stabs type l (trueM l r) i → j ≤ r → Meets i j l r
  | right {l r} : trueM l r < i → Meets i j (trueM l r + 1) r → Meets i j l r
  | left {l r k} : Owns stabs type l (trueM l r) k → i < k → Meets i j l (k - 1) → Meets i j l r

variable {stabs type} {s s' : Probe} {l r i j k L R : Int}

theorem Owns.unique (h : Owns stabs type l r i) (h' : Owns stabs type l r j) : i = j := by
  rcases Int.lt_trichotomy i j with hlt | heq | hlt
  · exact absurd h'.hasType (h.last j hlt h'.le_last)
  · exact heq
  · exact absurd h.hasType (h'.last i hlt h.le_last)

theorem meets_right (h : trueM l r < i) :
    Meets stabs type i j l r ↔ Meets stabs type i j (trueM l r + 1) r := by
  refine ⟨fun hm => ?_, .right h⟩
  cases hm with
  | here ho => exact absurd ho.le_last (by omega)
  | right _ hm => exact hm
  | left ho hlt => exact absurd ho.le_last (by omega)

theorem meets_left (ho : Owns stabs type l (trueM l r) k) (h : i < k) :
    Meets stabs type i j l r ↔ Meets stabs type i j l (k - 1) := by
  refine ⟨fun hm => ?_, .left ho h⟩
  cases hm with
  | here ho' => exact absurd (ho'.unique ho) (by omega)
  | right hlt => exact absurd ho.le_last (by omega)
  | left ho' _ hm => exact ho'.unique ho ▸ hm

theorem meets_here (ho : Owns stabs type l (trueM l r) i) :
    Meets stabs type i j l r ↔ j ≤ r := by
  refine ⟨fun hm => ?_, .here ho⟩
  cases hm with
  | here _ hj => exact hj
  | right hlt => exact absurd ho.le_last (by omega)
  | left ho' hlt => exact absurd (ho'.unique ho) (by omega)

def hitAt (addr : Word) (i r : Int) : Probe := ⟨i, r, addr + 1, i, r, true⟩

theorem Passes.finds (hp : Passes stabs type s s') (hinc : Increasing stabs type L R)
    (hb : Bracket stabs type L R s) (hend : s'.r < s'.l) (ti : HasType stabs type i)
    (hl : s.l ≤ i) (hr : i ≤ s.r) (hv : (stabs i).value = s.addr) :
    ∃ r, i ≤ r ∧ r ≤ s.r ∧ (∀ j, Meets stabs type i j s.l s.r ↔ j ≤ r) ∧
      Bracket stabs type L R (hitAt s.addr i r) ∧ Passes stabs type (hitAt s.addr i r) s' := by
  induction hp using Relation.ReflTransGen.head_induction_on with
  | refl => omega
  | @head s s₁ hstep hp ih =>
    obtain ⟨hle, hm⟩ := hstep
    have hb₁ := hb.step hle hm
    obtain ⟨h1, h2⟩ := trueM_mem hle
    have hL := hb.le_l
    have hR := hb.r_le
    cases hm with
    | none hn =>
      have hmid : trueM s.l s.r < i := by
        by_contra hge
        exact hn i hl (by omega) ti
      obtain ⟨r, hir, hr', hmeets, hhit, hpass⟩ := ih hb₁ (by dsimp only; omega) hr hv
      exact ⟨r, hir, hr', fun j => (meets_right hmid).trans (hmeets j), hhit, hpass⟩
    | @below k ho hlt =>
      have hki : k < i := by
        by_contra hge
        have := ho.le_last
        have := hinc.le_of_le (by omega) (by omega : i ≤ k) (by omega) ti ho.hasType
        bv_omega
      have hmid : trueM s.l s.r < i := by
        by_contra hge
        exact ho.last i hki (by omega) ti
      obtain ⟨r, hir, hr', hmeets, hhit, hpass⟩ := ih hb₁ (by dsimp only; omega) hr hv
      exact ⟨r, hir, hr', fun j => (meets_right hmid).trans (hmeets j), hhit, hpass⟩
    | @above k ho hlt =>
      have hk := ho.le_last
      have hik : i < k := by
        by_contra hge
        have := ho.le
        have := hinc.le_of_le (by omega) (by omega : k ≤ i) (by omega) ho.hasType ti
        bv_omega
      obtain ⟨r, hir, hr', hmeets, hhit, hpass⟩ := ih hb₁ hl (by dsimp only; omega) hv
      exact ⟨r, hir, by dsimp only at hr'; omega, fun j => (meets_left ho hik).trans (hmeets j),
        hhit, hpass⟩
    | @hit k ho heq =>
      have hk := ho.le_last
      have hle := ho.le
      have hik : k = i := by
        rcases Int.lt_trichotomy k i with hlt | h | hlt
        · have := hinc k i (by omega) hlt (by omega) ho.hasType ti
          bv_omega
        · exact h
        · have := hinc i k (by omega) hlt (by omega) ti ho.hasType
          bv_omega
      subst hik
      have hright := hb.right
      have hs : hitAt s.addr k s.r =
          { s with left := k, l := k, addr := s.addr + 1, anyMatches := true } := by
        rw [hitAt, hright]
      refine ⟨s.r, hr, Int.le_refl _, fun j => meets_here ho, ?_, ?_⟩
      · rw [hs]
        exact hb₁
      · rw [hs]
        exact hp

theorem Passes.eq_of_end (hp : Passes stabs type s s') (h : s.r < s.l) : s' = s := by
  cases hp using Relation.ReflTransGen.head_induction_on with
  | refl => rfl
  | head hstep => omega

theorem answer_of_wrap {addr : Word} (hp : Passes stabs type (hitAt addr i r) s')
    (hend : s'.r < s'.l) (h0 : addr + 1 = 0) (hv : (stabs i).value = addr)
    (ti : HasType stabs type i) (hir : i ≤ r)
    (hnone : ∀ j, i < j → j ≤ r → ¬ HasType stabs type j) : answer s' = (i - 1, i - 1) := by
  obtain rfl | ⟨s₁, ⟨-, hm⟩, hp⟩ := Relation.ReflTransGen.cases_head hp
  · exact absurd hend (by simp only [hitAt]; omega)
  obtain ⟨h1, h2⟩ := trueM_mem hir
  have hown : ∀ k, Owns stabs type i (trueM i r) k → k = i := by
    intro k ho
    by_contra hne
    have := ho.le
    have := ho.le_last
    exact hnone k (by omega) (by omega) ho.hasType
  have hs₁ : s₁ = ⟨i, i - 1, addr + 1, i, i - 1, true⟩ := by
    cases hm with
    | none hn => exact absurd ti (hn i (Int.le_refl _) h1)
    | below ho hlt =>
      simp only [hitAt, h0] at hlt
      exact absurd hlt BitVec.not_lt_zero
    | above ho hlt =>
      have := hown _ ho
      subst this
      rfl
    | hit ho heq =>
      have := hown _ ho
      subst this
      simp only [hitAt] at heq
      bv_omega
  subst hs₁
  rw [Passes.eq_of_end hp (by dsimp only; omega), answer, if_neg Bool.noConfusion,
    min_eq_right (by dsimp only; omega)]

structure Beyond (j : Int) (k : Word) (s : Probe) : Prop where
  le_left : j ≤ s.left
  left_le : s.left ≤ s.l
  anyMatches : s.anyMatches = true
  addr : s.left = j → s.addr = k ∧ j ≤ s.r

theorem Beyond.step {k : Word} (h : Beyond j k s) (hj : (stabs j).value < k) (hl : s.l ≤ s.r)
    (hm : Moves stabs type s s') : Beyond j k s' := by
  obtain ⟨h1, h2⟩ := trueM_mem hl
  obtain ⟨hle, hle', hany, haddr⟩ := h
  cases hm with
  | none => exact ⟨hle, by dsimp only; omega, hany, haddr⟩
  | @below i ho hlt =>
    have := ho.le
    have := ho.le_last
    exact ⟨by dsimp only; omega, by dsimp only; omega, rfl, fun hi => haddr (by
      dsimp only at hi
      omega)⟩
  | @above i ho hlt =>
    have hi := ho.le
    refine ⟨hle, hle', rfl, fun hleft => ?_⟩
    obtain ⟨hk, -⟩ := haddr hleft
    have hne : i ≠ j := by
      rintro rfl
      bv_omega
    exact ⟨hk, by dsimp only at hleft ⊢; omega⟩
  | @hit i ho heq =>
    have hi := ho.le
    refine ⟨by dsimp only; omega, Int.le_refl _, rfl, fun hleft => ?_⟩
    dsimp only at hleft
    subst hleft
    obtain ⟨hk, -⟩ := haddr (by omega)
    bv_omega

theorem Beyond.passes {k : Word} (h : Beyond j k s) (hj : (stabs j).value < k)
    (hp : Passes stabs type s s') : Beyond j k s' := by
  induction hp with
  | refl => exact h
  | tail _ hstep ih => exact ih.step hj hstep.1 hstep.2

theorem Beyond.le_answer {k : Word} (h : Beyond j k s) (hb : Bracket stabs type L R s) :
    j ≤ (answer s).1 := by
  have hle := h.le_left
  have hle' := h.left_le
  have hr := hb.le
  rw [answer, if_neg (by simp [h.anyMatches])]
  refine le_min hle ?_
  by_cases hj : s.left = j
  · exact (h.addr hj).2
  · omega

variable (stabs type) in
/-- There is no entry of the type, or one with a value up to `addr`; and when one has the value
`addr`, an entry with the next value is out of the way before it is met. -/
def Findable (L R : Int) (addr : Word) : Prop :=
  (∀ j, L ≤ j → j ≤ R → ¬ HasType stabs type j) ∨
    (∃ i, L ≤ i ∧ i ≤ R ∧ HasType stabs type i ∧ (stabs i).value ≤ addr) ∧
      ∀ i, L ≤ i → i ≤ R → HasType stabs type i → (stabs i).value = addr →
        addr ≠ 0xFFFFFFFF ∧
          ∀ j, L ≤ j → j ≤ R → HasType stabs type j → (stabs j).value = addr + 1 →
            Meets stabs type i j L R → addr + 1 = 0xFFFFFFFF ∧ j = i + 1

variable {addr : Word}

theorem start_settled (h : L ≤ R + 1)
    (hne : ∀ j, L ≤ j → j ≤ R → HasType stabs type j → (stabs j).value ≠ addr) :
    Settled stabs type L R addr ⟨L, R, addr, L, R, false⟩ :=
  ⟨start_bracket h addr, rfl, hne, start_below addr, fun hlt => absurd hlt (Int.lt_irrefl _)⟩

theorem answers_of_ne (hinc : Increasing stabs type L R) (h : L ≤ R + 1)
    (hne : ∀ j, L ≤ j → j ≤ R → HasType stabs type j → (stabs j).value ≠ addr)
    (hp : Passes stabs type ⟨L, R, addr, L, R, false⟩ s) (hend : s.r < s.l) :
    Answers stabs type L R addr (answer s) ↔ Findable stabs type L R addr := by
  have hs := (start_settled h hne).passes hp
  have hle := hs.le
  by_cases hlow : ∃ i, L ≤ i ∧ i ≤ R ∧ HasType stabs type i ∧ (stabs i).value ≤ addr
  · obtain ⟨i, hi, hi', ti, hv⟩ := hlow
    have hlt := BitVec.lt_of_le_ne hv (hne i hi hi' ti)
    refine iff_of_true ?_ (.inr ⟨⟨i, hi, hi', ti, hv⟩, fun j h1 h2 tj hj => absurd hj (hne j h1 h2 tj)⟩)
    refine hs.answers hinc hend (fun j h1 h2 tj h3 => ?_) (fun hr => ?_) hi hi' ti hlt
    · exact BitVec.le_of_lt ((hs.le_iff hinc hend h1 h2 tj).1 h3)
    · obtain ⟨-, tr⟩ := hs.last.resolve_left (by omega)
      have := hs.le_l
      exact BitVec.lt_of_le_ne (hs.above hr) (hne _ (by omega) (by omega) tr).symm
  · have hall : ∀ j, L ≤ j → j ≤ R → HasType stabs type j → addr < (stabs j).value := by
      intro j h1 h2 tj
      by_contra hge
      exact hlow ⟨j, h1, h2, tj, BitVec.not_lt.1 hge⟩
    rcases hs.below with ⟨hleft, hnone⟩ | ⟨h1, h2, -, ht, hv, -⟩
    · cases hany : s.anyMatches with
      | false =>
        obtain ⟨-, hr, -⟩ := hs.noMatches hany
        have hno : ∀ j, L ≤ j → j ≤ R → ¬ HasType stabs type j :=
          fun j h1 h2 => hnone j h1 (by omega)
        refine iff_of_true ⟨fun i hi => absurd hi.hasType (hno i hi.le hi.le_last), fun _ => ?_⟩
          (.inl hno)
        rw [answer, if_pos hany]
        dsimp only
        omega
      | true =>
        obtain ⟨j, h1, h2, tj⟩ := hs.anyMatches hany
        refine iff_of_false (fun ha => ?_) ?_
        · have := ha.missing hall
          rw [answer, if_neg (by simp [hany])] at this
          dsimp only at this
          omega
        · rintro (hno | ⟨hex, -⟩)
          · exact hno j h1 h2 tj
          · exact hlow hex
    · have := hall _ h1 h2 ht
      bv_omega

theorem Increasing.inj (h : Increasing stabs type L R) (hi : L ≤ i) (hi' : i ≤ R) (hj : L ≤ j)
    (hj' : j ≤ R) (ti : HasType stabs type i) (tj : HasType stabs type j)
    (heq : (stabs i).value = (stabs j).value) : i = j := by
  rcases Int.lt_trichotomy i j with hlt | h' | hlt
  · have := h i j hi hlt hj' ti tj
    bv_omega
  · exact h'
  · have := h j i hj hlt hi' tj ti
    bv_omega

theorem settled_of_hit (hinc : Increasing stabs type L R) (hb : Bracket stabs type L R (hitAt addr i r))
    (ti : HasType stabs type i) (hir : i ≤ r) (hv : (stabs i).value = addr) (hmax : addr ≠ 0xFFFFFFFF)
    (hnone : ∀ j, i < j → j ≤ r → HasType stabs type j → (stabs j).value ≠ addr + 1) :
    Settled stabs type L R (addr + 1) (hitAt addr i r) := by
  have hL : L ≤ i := hb.le_l
  have hR : r ≤ R := hb.r_le
  refine ⟨hb, rfl, fun j h1 h2 tj => ?_, .inr ⟨hL, by simp only [hitAt]; omega, Int.le_refl _, ti, ?_,
    fun j h1 h2 => by simp only [hitAt] at h1 h2; omega⟩, fun hr => ?_⟩
  · simp only [hitAt] at h1 h2
    rcases Int.lt_or_eq_of_le h1 with hlt | rfl
    · exact hnone j hlt h2 tj
    · exact hv ▸ ne_add_one _
  · simp only [hitAt]
    bv_omega
  · simp only [hitAt] at hr ⊢
    have ht : HasType stabs type (r + 1) := (hb.last.resolve_left (by simp only [hitAt]; omega)).2
    have := hinc i (r + 1) hL (by omega) (by omega) ti ht
    bv_omega

theorem answers_of_hit (hinc : Increasing stabs type L R) (hi : L ≤ i) (hi' : i ≤ R)
    (ti : HasType stabs type i) (hv : (stabs i).value = addr)
    (hp : Passes stabs type ⟨L, R, addr, L, R, false⟩ s) (hend : s.r < s.l) :
    Answers stabs type L R addr (answer s) ↔ Findable stabs type L R addr := by
  have hlast : IsLast stabs type L R addr i := ⟨hi, hi', ti, hv ▸ BitVec.le_refl _,
    fun j h1 h2 tj => hv ▸ hinc i j hi h1 h2 ti tj⟩
  have hno : ¬ ∀ j, L ≤ j → j ≤ R → ¬ HasType stabs type j := fun h => h i hi hi' ti
  obtain ⟨r, hir, hrR, hmeets, hb, hp⟩ :=
    hp.finds hinc (start_bracket (by omega) addr) hend ti hi hi' hv
  dsimp only at hrR hmeets hb hp
  rw [hlast.answers]
  by_cases hmax : addr = 0xFFFFFFFF
  · have hans := answer_of_wrap hp hend (by rw [hmax]; rfl) hv ti hir fun j h1 h2 tj => by
      have := hinc i j hi h1 (by omega) ti tj
      bv_omega
    rw [hans]
    refine iff_of_false (fun h => by have := h.1; dsimp only at this; omega) ?_
    rintro (h | ⟨-, h⟩)
    · exact hno h
    · exact (h i hi hi' ti hv).1 hmax
  by_cases hex : ∃ j, i < j ∧ j ≤ r ∧ HasType stabs type j ∧ (stabs j).value = addr + 1
  · obtain ⟨j, hij, hjr, tj, hvj⟩ := hex
    have hfind : Findable stabs type L R addr ↔ addr + 1 = 0xFFFFFFFF ∧ j = i + 1 := by
      constructor
      · rintro (h | ⟨-, h⟩)
        · exact absurd h hno
        · exact (h i hi hi' ti hv).2 j (by omega) (by omega) tj hvj ((hmeets j).2 hjr)
      · refine fun h => .inr ⟨⟨i, hi, hi', ti, hlast.value_le⟩, fun i' h1 h2 ti' hv' => ⟨hmax, ?_⟩⟩
        rintro j' h3 h4 tj' hvj' -
        have e1 := hinc.inj h1 h2 hi hi' ti' ti (hv'.trans hv.symm)
        have e2 := hinc.inj h3 h4 (by omega) (by omega) tj' tj (hvj'.trans hvj.symm)
        exact ⟨h.1, by omega⟩
    obtain ⟨r', hjr', -, -, hb', hp'⟩ := hp.finds hinc hb hend tj hij.le hjr hvj
    rw [hfind]
    by_cases hmax' : addr + 1 = 0xFFFFFFFF
    · have hans := answer_of_wrap hp' hend (by simp only [hitAt, hmax']; rfl) hvj tj hjr' fun k h1 h2 tk => by
        have hR : r' ≤ R := hb'.r_le
        have := hinc j k (by omega) h1 (by omega) tj tk
        bv_omega
      rw [hans]
      constructor
      · exact fun h => ⟨hmax', by have := h.1; dsimp only at this; omega⟩
      · rintro ⟨-, hj⟩
        have e : j - 1 = i := by omega
        refine ⟨e, Int.le_of_eq e.symm, fun k h1 h2 => by dsimp only at h2; omega, .inr ⟨?_, ?_⟩⟩
        · dsimp only
          omega
        · dsimp only
          rwa [Int.sub_add_cancel]
    · refine iff_of_false (fun h => ?_) (fun h => hmax' h.1)
      have hbeyond : Beyond j (addr + 1 + 1) (hitAt (addr + 1) j r') :=
        ⟨Int.le_refl _, Int.le_refl _, rfl, fun _ => ⟨rfl, hjr'⟩⟩
      have := (hbeyond.passes (by bv_omega) hp').le_answer (hb'.passes hp')
      omega
  · have hs := settled_of_hit hinc hb ti hir hv hmax fun j h1 h2 tj hvj => hex ⟨j, h1, h2, tj, hvj⟩
    have hs' := hs.passes hp
    have hle := hs'.le_l
    have hle' := hs'.le
    have hlt : (stabs i).value < addr + 1 := by bv_omega
    rw [← hlast.answers]
    refine iff_of_true ?_ (.inr ⟨⟨i, hi, hi', ti, hlast.value_le⟩, fun i' h1 h2 ti' hv' => ⟨hmax, ?_⟩⟩)
    · refine hs'.answers hinc hend (fun j h1 h2 tj h3 => ?_) (fun hr => ?_) hi hi' ti hlt
      · have := (hs'.le_iff hinc hend h1 h2 tj).1 h3
        bv_omega
      · have := hs'.above hr
        bv_omega
    · intro j h3 h4 tj hvj hm
      obtain rfl := hinc.inj h1 h2 hi hi' ti' ti (hv'.trans hv.symm)
      refine absurd ⟨j, ?_, (hmeets j).1 hm, tj, hvj⟩ hex
      by_contra hge
      have := hinc.le_of_le h3 (by omega : j ≤ i') hi' tj ti
      bv_omega

/-- `stab_binsearch` comes to an end, with the right answer just in the case of `Findable`. -/
theorem binsearch_answers_iff {fuel : Nat} (hinc : Increasing stabs type L R)
    (hf : 2 * (R - L + 1).toNat + 1 ≤ fuel) :
    ∃ x, binsearch stabs type fuel L R addr = pure x ∧
      (Answers stabs type L R addr x ↔ Findable stabs type L R addr) := by
  by_cases hLR : L ≤ R + 1
  · obtain ⟨s, hp, hend, -, hs⟩ := @binsearch_eq stabs type L R fuel hLR addr hf
    refine ⟨_, hs, ?_⟩
    by_cases hex : ∃ i, L ≤ i ∧ i ≤ R ∧ HasType stabs type i ∧ (stabs i).value = addr
    · obtain ⟨i, hi, hi', ti, hv⟩ := hex
      exact answers_of_hit hinc hi hi' ti hv hp hend
    · exact answers_of_ne hinc hLR (fun j h1 h2 tj hv => hex ⟨j, h1, h2, tj, hv⟩) hp hend
  · refine ⟨(L, L - 1), ?_, iff_of_true ⟨fun i hi => ?_, fun _ => ?_⟩ (.inl fun j h1 h2 => ?_)⟩
    · obtain ⟨fuel, rfl⟩ := Nat.exists_eq_add_of_le' (Nat.le_trans (Nat.le_add_left 1 _) hf)
      rw [binsearch, stabBinsearch, search, if_neg (by dsimp only; omega), pure_bind, if_pos rfl]
    · have := hi.le
      have := hi.le_last
      omega
    · dsimp only
      omega
    · omega

end

def twoLines (d : Word) (i : Int) : Stab := ⟨0, 0x44, 0, if i = 0 then 10 else 10 + d⟩

theorem increasing_twoLines {d : Word} (h : 10 < 10 + d) : Increasing (twoLines d) 0x44 0 1 := by
  intro i j h1 h2 h3 _ _
  have hi : i = 0 := by omega
  have hj : j ≠ 0 := by omega
  rw [twoLines, twoLines, if_pos hi, if_neg hj]
  exact h

theorem binsearch_answers_twoLines : ∃ x,
    binsearch (twoLines 2) 0x44 5 0 1 10 = pure x ∧
      (Answers (twoLines 2) 0x44 0 1 10 x ↔ Findable (twoLines 2) 0x44 0 1 10) :=
  binsearch_answers_iff (increasing_twoLines (by decide)) (by decide)

/-- A line of one byte is taken for the next one; and an address before all lines is found. -/
theorem binsearch_next_line :
    Increasing (twoLines 1) 0x44 0 1 ∧
      (∀ fuel, 5 ≤ fuel → binsearch (twoLines 1) 0x44 fuel 0 1 10 = pure (1, 1)) ∧
      ¬ Answers (twoLines 1) 0x44 0 1 10 (1, 1) ∧
      (∀ fuel, 5 ≤ fuel → binsearch (twoLines 1) 0x44 fuel 0 1 5 = pure (-1, -1)) ∧
      ¬ Answers (twoLines 1) 0x44 0 1 5 (-1, -1) := by
  refine ⟨increasing_twoLines (by decide), fun fuel hf => ?_, fun ha => ?_, fun fuel hf => ?_,
    fun ha => ?_⟩
  · obtain ⟨n, rfl⟩ := Nat.exists_eq_add_of_le' hf
    rfl
  · have hlast : IsLast (twoLines 1) 0x44 0 1 10 0 :=
      ⟨by decide, by decide, rfl, by decide, fun j h1 h2 _ => by
        obtain rfl : j = 1 := by omega
        decide⟩
    exact absurd (ha.found 0 hlast).1 (by decide)
  · obtain ⟨n, rfl⟩ := Nat.exists_eq_add_of_le' hf
    rfl
  · refine absurd (ha.missing fun j h1 h2 _ => ?_) (by decide)
    rw [twoLines]
    split_ifs <;> decide

end Jos.Kern
