import Mathlib.Data.Set.Basic

/-! Who owns what: places that may each hold one item, where an item in use is held in one
place or kept apart. -/

universe u v

namespace Jos.Lib

variable {A : Type u} {B : Type v}

/-- The items that `val` gives for the places `P` are in use, not kept apart, and each of them
is held once; nothing else is in use but what is kept apart. -/
structure Tallied (P : Set A) (val : A → Option B) (used kept : Set B) : Prop where
  inUse : ∀ {a b}, a ∈ P → val a = some b → b ∈ used ∧ b ∉ kept
  once : ∀ {a a' b}, a ∈ P → a' ∈ P → val a = some b → val a' = some b → a = a'
  account : ∀ {b}, b ∈ used → b ∈ kept ∨ ∃ a ∈ P, val a = some b

namespace Tallied

variable {P P' : Set A} {val val' : A → Option B} {used used' kept : Set B} {a : A} {b : B}

theorem congr (h : Tallied P val used kept) (hP : ∀ x, x ∈ P' ↔ x ∈ P)
    (hval : ∀ x ∈ P, val' x = val x) (hused : ∀ y, y ∈ used' ↔ y ∈ used) :
    Tallied P' val' used' kept where
  inUse hx hb := by
    have hx := (hP _).1 hx
    rw [hval _ hx] at hb
    rw [hused]
    exact h.inUse hx hb
  once hx hx' hb hb' := by
    have hx := (hP _).1 hx
    have hx' := (hP _).1 hx'
    rw [hval _ hx] at hb
    rw [hval _ hx'] at hb'
    exact h.once hx hx' hb hb'
  account hy := by
    refine (h.account ((hused _).1 hy)).imp id fun ⟨x, hx, hb⟩ => ⟨x, (hP x).2 hx, ?_⟩
    rw [hval x hx, hb]

/-- An item that was not in use, put into an empty place.  There may be more places than
before, all of them empty. -/
theorem link (h : Tallied P val used kept) (ha : a ∈ P) (hnull : val a = none) (hb : b ∉ used)
    (hk : b ∉ kept) (hP : ∀ x ∈ P, x ∈ P') (hval : val' a = some b)
    (hold : ∀ x ∈ P, x ≠ a → val' x = val x) (hnew : ∀ x ∈ P', x ∉ P → val' x = none)
    (hused : ∀ y, y ∈ used' ↔ y = b ∨ y ∈ used) : Tallied P' val' used' kept := by
  have hcases : ∀ {x y}, x ∈ P' → val' x = some y → (x = a ∧ y = b) ∨ x ∈ P ∧ val x = some y := by
    intro x y hx hy
    by_cases hxP : x ∈ P
    · by_cases hxa : x = a
      · subst hxa
        rw [hval] at hy
        exact .inl ⟨rfl, (Option.some.inj hy).symm⟩
      · rw [hold x hxP hxa] at hy
        exact .inr ⟨hxP, hy⟩
    · rw [hnew x hx hxP] at hy
      cases hy
  refine ⟨fun hx hy => ?_, fun hx hx' hy hy' => ?_, fun {y} hy => ?_⟩
  · obtain ⟨-, rfl⟩ | ⟨hxP, hy⟩ := hcases hx hy
    · exact ⟨(hused _).2 (.inl rfl), hk⟩
    · exact ⟨(hused _).2 (.inr (h.inUse hxP hy).1), (h.inUse hxP hy).2⟩
  · obtain ⟨rfl, rfl⟩ | ⟨hxP, hy⟩ := hcases hx hy
    · obtain ⟨rfl, -⟩ | ⟨hxP', hy'⟩ := hcases hx' hy'
      · rfl
      · exact absurd (h.inUse hxP' hy').1 hb
    · obtain ⟨-, rfl⟩ | ⟨hxP', hy'⟩ := hcases hx' hy'
      · exact absurd (h.inUse hxP hy).1 hb
      · exact h.once hxP hxP' hy hy'
  · obtain rfl | hy := (hused y).1 hy
    · exact .inr ⟨a, hP a ha, hval⟩
    · refine (h.account hy).imp id fun ⟨x, hx, hxy⟩ => ⟨x, hP x hx, ?_⟩
      have hxa : x ≠ a := by
        rintro rfl
        rw [hnull] at hxy
        cases hxy
      rw [hold x hx hxa, hxy]

/-- The item of a place taken out and given back.  There may be fewer places than before, if
those that are gone held nothing. -/
theorem unlink (h : Tallied P val used kept) (ha : a ∈ P) (hb : val a = some b)
    (hP : ∀ x ∈ P', x ∈ P) (hval : val' a = none) (hold : ∀ x ∈ P', x ≠ a → val' x = val x)
    (hgone : ∀ x ∈ P, x ≠ a → x ∉ P' → val x = none)
    (hused : ∀ y, y ∈ used' ↔ y ≠ b ∧ y ∈ used) : Tallied P' val' used' kept := by
  have hcases : ∀ {x y}, x ∈ P' → val' x = some y → x ≠ a ∧ x ∈ P ∧ val x = some y := by
    intro x y hx hy
    have hxa : x ≠ a := by
      rintro rfl
      rw [hval] at hy
      cases hy
    rw [hold x hx hxa] at hy
    exact ⟨hxa, hP x hx, hy⟩
  refine ⟨fun hx hy => ?_, fun hx hx' hy hy' => ?_, fun {y} hy => ?_⟩
  · obtain ⟨hxa, hxP, hy⟩ := hcases hx hy
    refine ⟨(hused _).2 ⟨?_, (h.inUse hxP hy).1⟩, (h.inUse hxP hy).2⟩
    rintro rfl
    exact hxa (h.once hxP ha hy hb)
  · exact h.once (hcases hx hy).2.1 (hcases hx' hy').2.1 (hcases hx hy).2.2 (hcases hx' hy').2.2
  · obtain ⟨hyb, hy⟩ := (hused y).1 hy
    refine (h.account hy).imp id fun ⟨x, hx, hxy⟩ => ?_
    have hxa : x ≠ a := by
      rintro rfl
      rw [hb] at hxy
      exact hyb (Option.some.inj hxy).symm
    have hx' : x ∈ P' := by
      by_contra hx'
      rw [hgone x hx hxa hx'] at hxy
      cases hxy
    exact ⟨x, hx', (hold x hx' hxa).trans hxy⟩

end Tallied

end Jos.Lib
