import Jos.Kern.State
import Mathlib.Logic.Relation

/-! `kern/kdebug.c`, `stab_binsearch`: a binary search over the entries of one type among
entries of other types. -/

namespace Jos.Kern

structure Stab where
  strx : Word
  type : Byte
  desc : BitVec 16
  value : Word

section Search

/-! The table is read through `typeAt` and `valueAt`: from an array, or from the memory of an
environment. -/

variable {m : Type → Type} [Monad m]
variable (typeAt : Int → OptionT m Byte) (valueAt : Int → OptionT m Word) (type : Word)

/-- The last of the `n` entries from `l` on that has the type, and `l - 1` if none has. -/
def scanLeft (l : Int) : Nat → OptionT m Int
  | 0 => pure (l - 1)
  | n + 1 => do
    if (← typeAt (l + n)).setWidth 32 ≠ type then scanLeft l n else pure (l + n)

/-- The variables of the loop; `left` and `right` are `*region_left` and `*region_right`. -/
structure Probe where
  l : Int
  r : Int
  addr : Word
  left : Int
  right : Int
  anyMatches : Bool

def trueM (l r : Int) : Int := (l + r).tdiv 2

def probe (s : Probe) : OptionT m Probe := do
  let i ← scanLeft typeAt type s.l (trueM s.l s.r - s.l + 1).toNat
  if i < s.l then pure { s with l := trueM s.l s.r + 1 }
  else do
    let v ← valueAt i
    if v < s.addr then pure { s with left := i, l := trueM s.l s.r + 1, anyMatches := true }
    else if s.addr < v then pure { s with right := i - 1, r := i - 1, anyMatches := true }
    else pure { s with left := i, l := i, addr := s.addr + 1, anyMatches := true }

def search : Nat → Probe → OptionT m Probe
  | 0, s => if s.l ≤ s.r then failure else pure s
  | fuel + 1, s => if s.l ≤ s.r then do search fuel (← probe typeAt valueAt type s) else pure s

def stabBinsearch (fuel : Nat) (left right : Int) (addr : Word) :
    OptionT m (Int × Int) := do
  let s ← search typeAt valueAt type fuel ⟨left, right, addr, left, right, false⟩
  if s.anyMatches = false then pure (s.left, s.left - 1)
  else if s.right ≤ s.left then pure (s.right, s.right)
  else do
    let l ← scanLeft typeAt type (s.left + 1) (s.right - s.left).toNat
    pure (l, s.right)

end Search

def arrayType (stabs : Int → Stab) (i : Int) : OptionT Id Byte := pure (stabs i).type

def arrayValue (stabs : Int → Stab) (i : Int) : OptionT Id Word := pure (stabs i).value

def binsearch (stabs : Int → Stab) (type : Word) (fuel : Nat) (left right : Int) (addr : Word) :
    OptionT Id (Int × Int) :=
  stabBinsearch (arrayType stabs) (arrayValue stabs) type fuel left right addr

section Array

variable (stabs : Int → Stab) (type : Word)

def HasType (i : Int) : Prop := (stabs i).type.setWidth 32 = type

structure Owns (l k i : Int) : Prop where
  le : l ≤ i
  le_last : i ≤ k
  hasType : HasType stabs type i
  last : ∀ j, i < j → j ≤ k → ¬ HasType stabs type j

inductive Moves (s : Probe) : Probe → Prop
  | none : (∀ j, s.l ≤ j → j ≤ trueM s.l s.r → ¬ HasType stabs type j) →
      Moves s { s with l := trueM s.l s.r + 1 }
  | below {i} : Owns stabs type s.l (trueM s.l s.r) i → (stabs i).value < s.addr →
      Moves s { s with left := i, l := trueM s.l s.r + 1, anyMatches := true }
  | above {i} : Owns stabs type s.l (trueM s.l s.r) i → s.addr < (stabs i).value →
      Moves s { s with right := i - 1, r := i - 1, anyMatches := true }
  | hit {i} : Owns stabs type s.l (trueM s.l s.r) i → (stabs i).value = s.addr →
      Moves s { s with left := i, l := i, addr := s.addr + 1, anyMatches := true }

def Passes : Probe → Probe → Prop :=
  Relation.ReflTransGen fun s s' => s.l ≤ s.r ∧ Moves stabs type s s'

variable {stabs type} {l : Int} {s s' : Probe}

theorem scanLeft_array (n : Nat) :
    ∃ i, scanLeft (arrayType stabs) type l n = pure i ∧
      (i = l - 1 ∧ (∀ j, l ≤ j → j < l + n → ¬ HasType stabs type j) ∨
        Owns stabs type l (l + n - 1) i) := by
  induction n with
  | zero => exact ⟨l - 1, rfl, .inl ⟨rfl, fun j h1 h2 => by omega⟩⟩
  | succ n ih =>
    by_cases ht : HasType stabs type (l + n)
    · refine ⟨l + n, ?_, .inr ⟨by omega, by omega, ht, fun j h1 h2 => by omega⟩⟩
      exact if_neg (not_not.2 ht)
    · obtain ⟨i, hi, hcase⟩ := ih
      refine ⟨i, Eq.trans (if_pos ht) hi, ?_⟩
      rcases hcase with ⟨rfl, hnone⟩ | ho
      · refine .inl ⟨rfl, fun j h1 h2 => ?_⟩
        rcases Int.lt_or_le j (l + n) with hj | hj
        · exact hnone j h1 hj
        · have : j = l + n := by omega
          exact this ▸ ht
      · refine .inr ⟨ho.le, by have := ho.le_last; omega, ho.hasType, fun j h1 h2 => ?_⟩
        rcases Int.lt_or_le j (l + n) with hj | hj
        · exact ho.last j h1 (by omega)
        · have : j = l + n := by omega
          exact this ▸ ht

theorem trueM_mem {r : Int} (h : l ≤ r) : l ≤ trueM l r ∧ trueM l r ≤ r := by
  rw [trueM, Int.tdiv_eq_ediv]
  have hsign : Int.sign 2 = 1 := rfl
  split_ifs <;> omega

theorem probe_array (h : s.l ≤ s.r) :
    ∃ s', probe (arrayType stabs) (arrayValue stabs) type s = pure s' ∧
      Moves stabs type s s' := by
  have hm := trueM_mem h
  have hlast : s.l + ((trueM s.l s.r - s.l + 1).toNat : Int) - 1 = trueM s.l s.r := by omega
  obtain ⟨i, hi, hcase⟩ := @scanLeft_array stabs type s.l
    (trueM s.l s.r - s.l + 1).toNat
  rw [hlast] at hcase
  rw [probe, hi]
  rcases hcase with ⟨rfl, hnone⟩ | ho
  · refine ⟨_, if_pos (by omega), .none fun j h1 h2 => hnone j h1 (by omega)⟩
  · have hle := ho.le
    rcases BitVec.lt_trichotomy (stabs i).value s.addr with hv | hv | hv
    · exact ⟨_, (if_neg (by omega)).trans (if_pos hv), .below ho hv⟩
    · refine ⟨_, (if_neg (by omega)).trans ((if_neg ?_).trans (if_neg ?_)), .hit ho hv⟩
      · exact hv ▸ BitVec.lt_irrefl _
      · exact hv ▸ BitVec.lt_irrefl _
    · exact ⟨_, (if_neg (by omega)).trans ((if_neg (BitVec.lt_asymm hv)).trans (if_pos hv)),
        .above ho hv⟩

/-- What is left of the search: two passes for each entry, and one more for an entry that is
the key. -/
def width (stabs : Int → Stab) (s : Probe) : Nat :=
  2 * (s.r - s.l + 1).toNat + if (stabs s.l).value = s.addr then 1 else 0

theorem width_lt_of_narrow {s s' : Probe} (hl : s.l ≤ s.r) (h : s'.r - s'.l < s.r - s.l) :
    width stabs s' < width stabs s := by
  rw [width, width]
  split_ifs <;> omega

theorem ne_add_one (a : Word) : a ≠ a + 1 := by bv_omega

theorem Moves.width_lt (h : Moves stabs type s s') (hl : s.l ≤ s.r) :
    width stabs s' < width stabs s := by
  have hm := trueM_mem hl
  cases h with
  | none => exact width_lt_of_narrow hl (by dsimp only; omega)
  | below ho => exact width_lt_of_narrow hl (by dsimp only; omega)
  | @above i ho =>
    have := ho.le_last
    exact width_lt_of_narrow hl (by dsimp only; omega)
  | @hit i ho hv =>
    rcases Int.lt_or_eq_of_le ho.le with hlt | heq
    · exact width_lt_of_narrow hl (by dsimp only; omega)
    · subst heq
      rw [width, width, if_neg (hv ▸ ne_add_one _), if_pos hv]
      dsimp only
      omega

theorem search_array {n : Nat} (hn : width stabs s ≤ n) :
    ∃ s', search (arrayType stabs) (arrayValue stabs) type n s = pure s' ∧
      Passes stabs type s s' ∧ s'.r < s'.l := by
  induction n generalizing s with
  | zero =>
    have hl : ¬ s.l ≤ s.r := by
      rw [width] at hn
      omega
    exact ⟨s, if_neg hl, .refl, by omega⟩
  | succ n ih =>
    by_cases hl : s.l ≤ s.r
    · obtain ⟨s₁, hp, hm⟩ := @probe_array stabs type s hl
      obtain ⟨s', hs, hpass, hend⟩ := ih (Nat.le_of_lt_succ ((hm.width_lt hl).trans_le hn))
      refine ⟨s', ?_, .head ⟨hl, hm⟩ hpass, hend⟩
      rw [search, if_pos hl, hp]
      exact hs
    · exact ⟨s, if_neg hl, .refl, by omega⟩

variable (stabs type) in
structure Bracket (L R : Int) (s : Probe) : Prop where
  le_l : L ≤ s.l
  r_le : s.r ≤ R
  le : s.l ≤ s.r + 1
  right : s.right = s.r
  last : s.r = R ∨ s.r < R ∧ HasType stabs type (s.r + 1)
  anyMatches : s.anyMatches = true → ∃ j, L ≤ j ∧ j ≤ R ∧ HasType stabs type j
  noMatches : s.anyMatches = false → s.left = L ∧ s.r = R ∧
    ∀ j, L ≤ j → j < s.l → ¬ HasType stabs type j

variable (stabs type) in
def Below (Q : Int → Prop) (L R : Int) (s : Probe) : Prop :=
  s.left = L ∧ (∀ j, L ≤ j → j < s.l → ¬ HasType stabs type j) ∨
    L ≤ s.left ∧ s.left ≤ R ∧ s.left ≤ s.l ∧ HasType stabs type s.left ∧ Q s.left ∧
      ∀ j, s.left < j → j < s.l → ¬ HasType stabs type j

section Passes

variable {L R : Int} {Q : Int → Prop}

theorem Bracket.step (h : Bracket stabs type L R s) (hl : s.l ≤ s.r) (hm : Moves stabs type s s') :
    Bracket stabs type L R s' := by
  obtain ⟨h1, h2⟩ := trueM_mem hl
  obtain ⟨hL, hR, -, hright, hlast, hany, hno⟩ := h
  cases hm with
  | none hn =>
    refine ⟨by dsimp only; omega, hR, by dsimp only; omega, hright, hlast, hany, fun ha => ?_⟩
    obtain ⟨hleft, hr, hj⟩ := hno ha
    refine ⟨hleft, hr, fun j h3 h4 => ?_⟩
    rcases Int.lt_or_le j s.l with h5 | h5
    · exact hj j h3 h5
    · exact hn j h5 (by dsimp only at h4; omega)
  | @below i ho hv =>
    have := ho.le
    have := ho.le_last
    exact ⟨by dsimp only; omega, hR, by dsimp only; omega, hright, hlast,
      fun _ => ⟨i, by omega, by omega, ho.hasType⟩, nofun⟩
  | @above i ho hv =>
    have := ho.le
    have := ho.le_last
    refine ⟨hL, by dsimp only; omega, by dsimp only; omega, rfl, .inr ⟨by dsimp only; omega, ?_⟩,
      fun _ => ⟨i, by omega, by omega, ho.hasType⟩, nofun⟩
    dsimp only
    rw [Int.sub_add_cancel]
    exact ho.hasType
  | @hit i ho hv =>
    have := ho.le
    have := ho.le_last
    exact ⟨by dsimp only; omega, hR, by dsimp only; omega, hright, hlast,
      fun _ => ⟨i, by omega, by omega, ho.hasType⟩, nofun⟩

theorem Below.step (h : Below stabs type Q L R s) (hL : L ≤ s.l) (hR : s.r ≤ R)
    (hl : s.l ≤ s.r) (hm : Moves stabs type s s')
    (hQ : ∀ i, Owns stabs type s.l (trueM s.l s.r) i → (stabs i).value ≤ s.addr → Q i) :
    Below stabs type Q L R s' := by
  obtain ⟨h1, h2⟩ := trueM_mem hl
  cases hm with
  | none hn =>
    have hskip : ∀ {k : Int}, (∀ j, k ≤ j → j < s.l → ¬ HasType stabs type j) →
        ∀ j, k ≤ j → j < trueM s.l s.r + 1 → ¬ HasType stabs type j := by
      intro k hk j h3 h4
      rcases Int.lt_or_le j s.l with h5 | h5
      · exact hk j h3 h5
      · exact hn j h5 (by omega)
    rcases h with ⟨hleft, hj⟩ | ⟨h3, h3', h4, ht, hq, hj⟩
    · exact .inl ⟨hleft, hskip hj⟩
    · exact .inr ⟨h3, h3', by dsimp only; omega, ht, hq, hskip (k := s.left + 1) hj⟩
  | @below i ho hv =>
    have := ho.le
    have := ho.le_last
    refine .inr ⟨by dsimp only; omega, by dsimp only; omega, by dsimp only; omega, ho.hasType,
      hQ i ho (BitVec.le_of_lt hv), fun j h3 h4 => ho.last j h3 (by dsimp only at h4; omega)⟩
  | above => exact h
  | @hit i ho hv =>
    have := ho.le
    have := ho.le_last
    exact .inr ⟨by dsimp only; omega, by dsimp only; omega, Int.le_refl _, ho.hasType,
      hQ i ho (hv ▸ BitVec.le_refl _), fun j h3 h4 => by dsimp only at h3 h4; omega⟩

theorem Bracket.passes (h : Bracket stabs type L R s) (hp : Passes stabs type s s') :
    Bracket stabs type L R s' := by
  induction hp with
  | refl => exact h
  | tail _ hstep ih => exact ih.step hstep.1 hstep.2

theorem Below.passes (hb : Bracket stabs type L R s) (h : Below stabs type (fun _ => True) L R s)
    (hp : Passes stabs type s s') : Below stabs type (fun _ => True) L R s' := by
  induction hp with
  | refl => exact h
  | tail hp hstep ih =>
    exact ih.step (hb.passes hp).le_l (hb.passes hp).r_le hstep.1 hstep.2 fun _ _ _ => trivial

def answer (s : Probe) : Int × Int :=
  if s.anyMatches = false then (s.left, s.left - 1) else (min s.left s.r, s.r)

theorem scanLeft_none {n : Nat} (h : ∀ j, l ≤ j → j < l + n → ¬ HasType stabs type j) :
    scanLeft (arrayType stabs) type l n = pure (l - 1) := by
  obtain ⟨i, hi, ⟨rfl, -⟩ | ho⟩ := @scanLeft_array stabs type l n
  · exact hi
  · exact absurd ho.hasType (h i ho.le (by have := ho.le_last; omega))

theorem start_bracket (h : L ≤ R + 1) (addr : Word) :
    Bracket stabs type L R ⟨L, R, addr, L, R, false⟩ :=
  ⟨Int.le_refl _, Int.le_refl _, h, rfl, .inl rfl, nofun, fun _ => ⟨rfl, rfl, fun j h1 h2 => by
    dsimp only at h2
    omega⟩⟩

theorem start_below (addr : Word) : Below stabs type Q L R ⟨L, R, addr, L, R, false⟩ :=
  .inl ⟨rfl, fun j h1 h2 => by
    dsimp only at h2
    omega⟩

theorem width_start {fuel : Nat} {addr : Word} (hf : 2 * (R - L + 1).toNat + 1 ≤ fuel) :
    width stabs ⟨L, R, addr, L, R, false⟩ ≤ fuel := by
  rw [width]
  dsimp only
  split_ifs <;> omega

theorem binsearch_eq {fuel : Nat} (h : L ≤ R + 1) (addr : Word)
    (hf : 2 * (R - L + 1).toNat + 1 ≤ fuel) : ∃ s,
    Passes stabs type ⟨L, R, addr, L, R, false⟩ s ∧ s.r < s.l ∧ Bracket stabs type L R s ∧
      binsearch stabs type fuel L R addr = pure (answer s) := by
  obtain ⟨s, hs, hp, hend⟩ := @search_array stabs type _ _ (width_start hf)
  have hb := (start_bracket h addr).passes hp
  have hbelow := (start_below addr).passes (start_bracket h addr) hp
  refine ⟨s, hp, hend, hb, ?_⟩
  rw [binsearch, stabBinsearch, hs, pure_bind, answer]
  by_cases ha : s.anyMatches = false
  · rw [if_pos ha, if_pos ha]
  · rw [if_neg ha, if_neg ha, hb.right]
    by_cases hle : s.r ≤ s.left
    · rw [if_pos hle, min_eq_right hle]
    · have hnone : ∀ j, s.left + 1 ≤ j → j < s.left + 1 + ((s.r - s.left).toNat : Int) →
          ¬ HasType stabs type j := by
        intro j h1 h2
        rcases hbelow with ⟨hleft, hj⟩ | ⟨-, -, -, -, -, hj⟩
        · exact hj j (by omega) (by omega)
        · exact hj j (by omega) (by omega)
      rw [if_neg hle, scanLeft_none hnone, pure_bind, min_eq_left (by omega), Int.add_sub_cancel]

def within {α : Type} (L R : Int) (read : Int → OptionT Id α) (i : Int) : OptionT Id α :=
  if L ≤ i ∧ i ≤ R then read i else failure

theorem scanLeft_within (hl : L ≤ l) (n : Nat) (hr : l + n ≤ R + 1) :
    scanLeft (within L R (arrayType stabs)) type l n = scanLeft (arrayType stabs) type l n := by
  induction n with
  | zero => rfl
  | succ n ih =>
    rw [scanLeft, scanLeft, within, if_pos (by omega), ih (by omega)]

theorem probe_within (hb : Bracket stabs type L R s) (hl : s.l ≤ s.r) :
    probe (within L R (arrayType stabs)) (within L R (arrayValue stabs)) type s =
      probe (arrayType stabs) (arrayValue stabs) type s := by
  obtain ⟨h1, h2⟩ := trueM_mem hl
  have hL := hb.le_l
  have hR := hb.r_le
  obtain ⟨i, hi, hcase⟩ := @scanLeft_array stabs type s.l (trueM s.l s.r - s.l + 1).toNat
  rw [probe, probe, scanLeft_within hL _ (by omega), hi, pure_bind, pure_bind]
  rcases hcase with ⟨rfl, -⟩ | ho
  · rw [if_pos (by omega), if_pos (by omega)]
  · have hle := ho.le
    have hle' := ho.le_last
    rw [show within L R (arrayValue stabs) i = arrayValue stabs i from if_pos (by omega)]

theorem search_within (hb : Bracket stabs type L R s) (n : Nat) :
    search (within L R (arrayType stabs)) (within L R (arrayValue stabs)) type n s =
      search (arrayType stabs) (arrayValue stabs) type n s := by
  induction n generalizing s with
  | zero => rfl
  | succ n ih =>
    rw [search, search]
    by_cases hl : s.l ≤ s.r
    · obtain ⟨s', hp, hm⟩ := @probe_array stabs type s hl
      rw [if_pos hl, if_pos hl, probe_within hb hl, hp, pure_bind, pure_bind, ih (hb.step hl hm)]
    · rw [if_neg hl, if_neg hl]

theorem Below.le_left (h : Below stabs type Q L R s) : L ≤ s.left := by
  rcases h with ⟨hleft, -⟩ | ⟨hle, -⟩
  · exact Int.le_of_eq hleft.symm
  · exact hle

theorem stabBinsearch_within {fuel : Nat} (h : L ≤ R + 1) (addr : Word)
    (hw : width stabs ⟨L, R, addr, L, R, false⟩ ≤ fuel) :
    stabBinsearch (within L R (arrayType stabs)) (within L R (arrayValue stabs)) type fuel L R addr =
      binsearch stabs type fuel L R addr := by
  obtain ⟨s, hs, hp, -⟩ := @search_array stabs type _ _ hw
  have hb := (start_bracket h addr).passes hp
  have hle := ((start_below addr).passes (start_bracket h addr) hp).le_left
  have hR := hb.r_le
  rw [binsearch, stabBinsearch, stabBinsearch, search_within (start_bracket h addr), hs, pure_bind,
    pure_bind, hb.right]
  by_cases hlt : s.r ≤ s.left
  · rw [if_pos hlt, if_pos hlt]
  · rw [if_neg hlt, if_neg hlt, scanLeft_within (by omega) _ (by omega)]

/-- On any table the search ends, reads entries of its region only, and answers in its range. -/
theorem binsearch_inRange (stabs : Int → Stab) (type addr : Word) (L R : Int) (h : L ≤ R + 1)
    (fuel : Nat) (hf : 2 * (R - L + 1).toNat + 1 ≤ fuel) :
    ∃ x, binsearch stabs type fuel L R addr = pure x ∧
      stabBinsearch (within L R (arrayType stabs)) (within L R (arrayValue stabs)) type fuel L R addr =
        pure x ∧ L - 1 ≤ x.1 ∧ x.1 ≤ x.2 + 1 ∧ x.2 ≤ R := by
  obtain ⟨s, hp, hend, hb, hs⟩ := @binsearch_eq stabs type L R fuel h addr hf
  have hle := ((start_below addr).passes (start_bracket h addr) hp).le_left
  refine ⟨answer s, hs, (stabBinsearch_within h addr (width_start hf)).trans hs, ?_⟩
  have hl := hb.le_l
  have hr := hb.r_le
  have hlr := hb.le
  rw [answer]
  split_ifs with ha
  · obtain ⟨hleft, hR, -⟩ := hb.noMatches ha
    dsimp only
    omega
  · dsimp only
    omega

theorem binsearch_inRange_one : ∃ x,
    binsearch (fun _ => ⟨0, 0x44, 0, 5⟩) 0x44 3 0 0 5 = pure x ∧
      stabBinsearch (within 0 0 (arrayType fun _ => ⟨0, 0x44, 0, 5⟩))
        (within 0 0 (arrayValue fun _ => ⟨0, 0x44, 0, 5⟩)) 0x44 3 0 0 5 = pure x ∧
      0 - 1 ≤ x.1 ∧ x.1 ≤ x.2 + 1 ∧ x.2 ≤ 0 :=
  binsearch_inRange (fun _ => ⟨0, 0x44, 0, 5⟩) 0x44 5 0 0 (by decide) 3 (by decide)

variable (stabs type) in
def Increasing (L R : Int) : Prop :=
  ∀ i j, L ≤ i → i < j → j ≤ R → HasType stabs type i → HasType stabs type j →
    (stabs i).value < (stabs j).value

theorem Increasing.le_of_le {i j : Int} (h : Increasing stabs type L R) (hi : L ≤ i) (hle : i ≤ j)
    (hj' : j ≤ R) (ti : HasType stabs type i) (tj : HasType stabs type j) :
    (stabs i).value ≤ (stabs j).value := by
  rcases Int.lt_or_eq_of_le hle with hlt | rfl
  · exact BitVec.le_of_lt (h i j hi hlt hj' ti tj)
  · exact BitVec.le_refl _

variable (stabs type) in
structure Settled (L R : Int) (k : Word) (s : Probe) : Prop extends Bracket stabs type L R s where
  addr : s.addr = k
  noHit : ∀ j, s.l ≤ j → j ≤ s.r → HasType stabs type j → (stabs j).value ≠ k
  below : Below stabs type (fun i => (stabs i).value < k) L R s
  above : s.r < R → k ≤ (stabs (s.r + 1)).value

theorem Settled.step {k : Word} (h : Settled stabs type L R k s) (hl : s.l ≤ s.r)
    (hm : Moves stabs type s s') : Settled stabs type L R k s' := by
  obtain ⟨h1, h2⟩ := trueM_mem hl
  have hlt : ∀ i, Owns stabs type s.l (trueM s.l s.r) i → (stabs i).value ≤ s.addr →
      (stabs i).value < k := by
    intro i ho hv
    have hne := h.noHit i ho.le (by have := ho.le_last; omega) ho.hasType
    rw [h.addr] at hv
    exact BitVec.lt_of_le_ne hv hne
  have hbelow := h.below.step h.le_l h.r_le hl hm hlt
  refine ⟨h.toBracket.step hl hm, ?_, ?_, hbelow, ?_⟩
  · cases hm with
    | hit ho hv =>
      have := hlt _ ho (hv ▸ BitVec.le_refl _)
      rw [hv, h.addr] at this
      exact absurd this (BitVec.lt_irrefl _)
    | _ => exact h.addr
  · cases hm with
    | above ho hv =>
      have := ho.le_last
      exact fun j h3 h4 => h.noHit j h3 (by dsimp only at h4; omega)
    | hit ho hv =>
      have := ho.le
      exact fun j h3 h4 => h.noHit j (by dsimp only at h3; omega) h4
    | _ => exact fun j h3 h4 => h.noHit j (by dsimp only at h3; omega) h4
  · cases hm with
    | above ho hv =>
      intro _
      dsimp only
      rw [Int.sub_add_cancel]
      exact BitVec.le_of_lt (h.addr ▸ hv)
    | _ => exact h.above

theorem Settled.passes {k : Word} (h : Settled stabs type L R k s) (hp : Passes stabs type s s') :
    Settled stabs type L R k s' := by
  induction hp with
  | refl => exact h
  | tail _ hstep ih => exact ih.step hstep.1 hstep.2

theorem Settled.left_le {k : Word} (h : Settled stabs type L R k s)
    (hv : (stabs s.left).value < k) (hle : s.left ≤ s.l)
    (hR : s.left ≤ R) : s.left ≤ s.r := by
  by_contra hlt
  have hle' := h.le
  have heq : s.left = s.r + 1 := by omega
  have hab := h.above (by omega)
  rw [← heq] at hab
  bv_omega

theorem Settled.le_iff {k : Word} {j : Int} (h : Settled stabs type L R k s)
    (hinc : Increasing stabs type L R) (hend : s.r < s.l) (hj : L ≤ j) (hj' : j ≤ R)
    (tj : HasType stabs type j) : j ≤ s.r ↔ (stabs j).value < k := by
  constructor
  · intro hle
    rcases h.below with ⟨-, hnone⟩ | ⟨h1, h2, h3, ht, hv, hnone⟩
    · exact absurd tj (hnone j hj (by omega))
    · have hjl : j ≤ s.left := by
        by_contra hlt
        exact hnone j (by omega) (by omega) tj
      have := hinc.le_of_le hj hjl h2 tj ht
      bv_omega
  · intro hv
    by_contra hlt
    have hr : s.r < R := by omega
    obtain ⟨-, ht⟩ := h.last.resolve_left (by omega)
    have hab := h.above hr
    have hle := hinc.le_of_le (i := s.r + 1) (by have := h.le_l; have := h.le; omega) (by omega)
      hj' ht tj
    bv_omega

variable (stabs type) in
structure IsLast (L R : Int) (addr : Word) (i : Int) : Prop where
  le : L ≤ i
  le_last : i ≤ R
  hasType : HasType stabs type i
  value_le : (stabs i).value ≤ addr
  next : ∀ j, i < j → j ≤ R → HasType stabs type j → addr < (stabs j).value

variable (stabs type) in
structure EndsAt (R i k : Int) : Prop where
  le : i ≤ k
  none : ∀ j, i < j → j ≤ k → ¬ HasType stabs type j
  last : k = R ∨ k < R ∧ HasType stabs type (k + 1)

variable (stabs type) in
structure Answers (L R : Int) (addr : Word) (x : Int × Int) : Prop where
  found : ∀ i, IsLast stabs type L R addr i → x.1 = i ∧ EndsAt stabs type R i x.2
  missing : (∀ j, L ≤ j → j ≤ R → HasType stabs type j → addr < (stabs j).value) → x.2 < x.1

theorem IsLast.unique {addr : Word} {i j : Int} (hi : IsLast stabs type L R addr i)
    (hj : IsLast stabs type L R addr j) : i = j := by
  rcases Int.lt_trichotomy i j with h | h | h
  · have := hi.next j h hj.le_last hj.hasType
    have := hj.value_le
    bv_omega
  · exact h
  · have := hj.next i h hi.le_last hi.hasType
    have := hi.value_le
    bv_omega

theorem IsLast.answers {addr : Word} {x : Int × Int} {i : Int} (h : IsLast stabs type L R addr i) :
    Answers stabs type L R addr x ↔ x.1 = i ∧ EndsAt stabs type R i x.2 := by
  constructor
  · exact fun ha => ha.found i h
  · intro hx
    refine ⟨fun j hj => h.unique hj ▸ hx, fun hall => ?_⟩
    have := hall i h.le h.le_last h.hasType
    have := h.value_le
    bv_omega

theorem Settled.answers {k addr : Word} {i : Int} (h : Settled stabs type L R k s)
    (hinc : Increasing stabs type L R) (hend : s.r < s.l)
    (hk : ∀ j, L ≤ j → j ≤ R → HasType stabs type j → j ≤ s.r → (stabs j).value ≤ addr)
    (hk' : s.r < R → addr < (stabs (s.r + 1)).value)
    (hi : L ≤ i) (hi' : i ≤ R) (ti : HasType stabs type i) (hv : (stabs i).value < k) :
    Answers stabs type L R addr (answer s) := by
  have hir : i ≤ s.r := (h.le_iff hinc hend hi hi' ti).2 hv
  have hle := h.le
  have hr := h.r_le
  have hany : s.anyMatches = true := by
    by_contra hno
    obtain ⟨-, -, hnone⟩ := h.noMatches (Bool.eq_false_iff.2 hno)
    exact hnone i hi (by omega) ti
  rcases h.below with ⟨-, hnone⟩ | ⟨h1, h2, h3, ht, hv', hnone⟩
  · exact absurd ti (hnone i hi (by omega))
  · have h4 := h.left_le hv' h3 h2
    have hlast : IsLast stabs type L R addr s.left := by
      refine ⟨h1, h2, ht, hk _ h1 h2 ht h4, fun j h5 h6 tj => ?_⟩
      have hjr : s.r < j := by
        by_contra hjr
        exact hnone j h5 (by omega) tj
      obtain ⟨-, htr⟩ := h.last.resolve_left (by omega)
      have := hinc.le_of_le (i := s.r + 1) (by omega) (by omega) h6 htr tj
      have := hk' (by omega)
      bv_omega
    rw [hlast.answers, answer, if_neg (by simp [hany])]
    exact ⟨min_eq_left h4, h4, fun j h5 h6 => hnone j h5 (by dsimp only at h6; omega), h.last⟩

end Passes

end Array

end Jos.Kern
