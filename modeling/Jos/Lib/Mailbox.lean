import Mathlib.Data.List.Basic

/-! A mailbox with one slot, seen from its owner: the owner asks for a message, someone puts
one in, the owner looks.  A history lists what happened, the newest first. -/

universe u

namespace Jos.Lib

variable {α : Type u}

inductive Act (α : Type u)
  | ask
  | put (x : α)
  | look (x : α)
  | reset

inductive Phase (α : Type u)
  | idle
  | waiting
  | full (x : α)

namespace Phase

variable [DecidableEq α]

/-- What may happen next: no message is put in unasked or over another one, the owner does not
look while it waits, and then sees what was put in. -/
def next : Phase α → Act α → Option (Phase α)
  | _, .reset => some .idle
  | .idle, .ask => some .waiting
  | .idle, .look _ => some .idle
  | .waiting, .put x => some (.full x)
  | .full x, .look y => if y = x then some .idle else none
  | _, _ => none

inductive Step : Phase α → Act α → Phase α → Prop
  | reset {p} : Step p .reset .idle
  | ask : Step .idle .ask .waiting
  | look {x} : Step .idle (.look x) .idle
  | put {x} : Step .waiting (.put x) (.full x)
  | take {x} : Step (.full x) (.look x) .idle

theorem step_of_next {p q : Phase α} {a : Act α} (h : q.next a = some p) : Step q a p := by
  cases a with
  | reset =>
    cases h
    exact .reset
  | ask =>
    cases q with
    | idle =>
      cases h
      exact .ask
    | waiting => cases h
    | full x => cases h
  | put x =>
    cases q with
    | idle => cases h
    | waiting =>
      cases h
      exact .put
    | full y => cases h
  | look x =>
    cases q with
    | idle =>
      cases h
      exact .look
    | waiting => cases h
    | full y =>
      simp only [next] at h
      split at h
      · next hxy =>
        cases h
        cases hxy
        exact .take
      · cases h

def pending : Phase α → List α
  | .full x => [x]
  | _ => []

end Phase

/-- The phase a history leads to; `none` when something happened that may not. -/
def phase [DecidableEq α] : List (Act α) → Option (Phase α)
  | [] => some .idle
  | a :: l => (phase l).bind (·.next a)

def puts : List (Act α) → List α
  | [] => []
  | .put x :: l => x :: puts l
  | _ :: l => puts l

def asked : List (Act α) → Bool
  | [] => false
  | .ask :: _ => true
  | .put _ :: l => asked l
  | .look _ :: _ => false
  | .reset :: _ => false

def seen : List (Act α) → List α
  | [] => []
  | .look x :: l => if asked l then x :: seen l else seen l
  | _ :: l => seen l

section

variable [DecidableEq α] {l l' : List (Act α)} {p : Phase α}

def Lossless : List (Act α) → Prop
  | [] => True
  | .reset :: l => Lossless l ∧ ∀ x, phase l ≠ some (.full x)
  | _ :: l => Lossless l

theorem phase_cons {a : Act α} (h : phase (a :: l) = some p) :
    ∃ q, phase l = some q ∧ Phase.Step q a p := by
  obtain ⟨q, hq, h⟩ := Option.bind_eq_some_iff.1 h
  exact ⟨q, hq, Phase.step_of_next h⟩

theorem asked_iff (h : phase l = some p) : asked l = true ↔ p ≠ .idle := by
  induction l generalizing p with
  | nil =>
    cases h
    simp [asked]
  | cons a l ih =>
    obtain ⟨q, hq, hs⟩ := phase_cons h
    have ih := ih hq
    cases hs with
    | reset => simp [asked]
    | ask => simp [asked]
    | look => simp [asked]
    | put => simpa [asked] using ih
    | take => simp [asked]

theorem puts_eq (h : phase l = some p) (hl : Lossless l) : puts l = p.pending ++ seen l := by
  induction l generalizing p with
  | nil =>
    cases h
    rfl
  | cons a l ih =>
    obtain ⟨q, hq, hs⟩ := phase_cons h
    have hasked := asked_iff hq
    cases hs with
    | reset =>
      have ih := ih hq hl.1
      cases q with
      | idle => exact ih
      | waiting => exact ih
      | full x => exact absurd hq (hl.2 x)
    | ask =>
      have ih := ih hq hl
      simpa only [puts, seen, Phase.pending] using ih
    | look =>
      have ih := ih hq hl
      simp only [puts, seen, ih]
      rw [if_neg (by simp [hasked])]
    | put =>
      have ih := ih hq hl
      simp only [puts, seen, ih]
      rfl
    | take =>
      have ih := ih hq hl
      simp only [puts, seen, ih]
      rw [if_pos (by simp [hasked])]
      rfl

theorem phase_resets (h : ∀ a ∈ l, a = .reset) : phase l = some .idle ∧ Lossless l := by
  induction l with
  | nil => exact ⟨rfl, trivial⟩
  | cons a l ih =>
    obtain ⟨hp, hl⟩ := ih fun b hb => h b (List.mem_cons_of_mem a hb)
    obtain rfl := h a List.mem_cons_self
    refine ⟨by rw [phase, hp]; rfl, hl, fun x => ?_⟩
    rw [hp]
    simp

theorem phase_of_append (h : phase (l ++ l') = some p) : ∃ q, phase l' = some q := by
  induction l generalizing p with
  | nil => exact ⟨p, h⟩
  | cons a l ih =>
    obtain ⟨q, hq, -⟩ := phase_cons h
    exact ih hq

theorem after_ask (h : phase (l ++ .ask :: l') = some p) (hlook : ∀ x, .look x ∉ l)
    (hreset : .reset ∉ l) : (l = [] ∧ p = .waiting) ∨ ∃ x, l = [.put x] ∧ p = .full x := by
  induction l generalizing p with
  | nil =>
    obtain ⟨q, -, hs⟩ := phase_cons h
    cases hs
    exact .inl ⟨rfl, rfl⟩
  | cons a l ih =>
    obtain ⟨q, hq, hs⟩ := phase_cons h
    have ih := ih hq (fun x hx => hlook x (List.mem_cons_of_mem a hx))
      fun hr => hreset (List.mem_cons_of_mem a hr)
    cases hs with
    | reset => exact absurd List.mem_cons_self hreset
    | ask => rcases ih with ⟨-, hq⟩ | ⟨x, -, hq⟩ <;> cases hq
    | @look x => exact absurd List.mem_cons_self (hlook x)
    | @put x =>
      rcases ih with ⟨rfl, -⟩ | ⟨x, -, hq⟩
      · exact .inr ⟨x, rfl, rfl⟩
      · cases hq
    | @take x => exact absurd List.mem_cons_self (hlook x)

theorem after_put {x : α} (h : phase (l ++ .put x :: l') = some p) (hlook : .look x ∉ l)
    (hreset : .reset ∉ l) : l = [] ∧ p = .full x := by
  induction l generalizing p with
  | nil =>
    obtain ⟨q, -, hs⟩ := phase_cons h
    cases hs
    exact ⟨rfl, rfl⟩
  | cons a l ih =>
    obtain ⟨q, hq, hs⟩ := phase_cons h
    obtain ⟨-, rfl⟩ := ih hq (fun hx => hlook (List.mem_cons_of_mem a hx))
      fun hr => hreset (List.mem_cons_of_mem a hr)
    cases hs with
    | reset => exact absurd List.mem_cons_self hreset
    | take => exact absurd List.mem_cons_self hlook

theorem length_puts_le (h : phase (l ++ l') = some p) (hask : .ask ∉ l) :
    (puts l).length ≤ 1 ∧ (puts l ≠ [] → p ≠ .waiting) := by
  induction l generalizing p with
  | nil => simp [puts]
  | cons a l ih =>
    obtain ⟨q, hq, hs⟩ := phase_cons h
    obtain ⟨hlen, hwait⟩ := ih hq fun ha => hask (List.mem_cons_of_mem a ha)
    cases hs with
    | reset => exact ⟨hlen, fun _ => by simp⟩
    | ask => exact absurd List.mem_cons_self hask
    | look => exact ⟨hlen, fun _ => by simp⟩
    | put =>
      have hnil : puts l = [] := by
        by_contra hne
        exact hwait hne rfl
      simp [puts, hnil]
    | take => exact ⟨hlen, fun _ => by simp⟩

end

end Jos.Lib
