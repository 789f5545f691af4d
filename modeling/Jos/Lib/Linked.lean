import Mathlib.Data.List.Nodup
import Mathlib.Logic.Function.Basic

/-! Singly linked lists threaded through a map of links, as a free list threads
its cells through a field of the cells themselves. -/

universe u

namespace Jos.Lib

variable {α : Type u}

/-- `l` is the list of cells met from `head` by following `next` until the null link. -/
inductive Chain (next : α → Option α) : Option α → List α → Prop
  | nil : Chain next none []
  | cons {a l} : Chain next (next a) l → Chain next (some a) (a :: l)

namespace Chain

theorem unique {next : α → Option α} {h : Option α} {l l' : List α}
    (c : Chain next h l) (c' : Chain next h l') : l = l' := by
  induction c generalizing l' with
  | nil => cases c'; rfl
  | cons _ ih =>
    cases c' with
    | cons c' => rw [ih c']

theorem exists_of_mem {next : α → Option α} {h : Option α} {l : List α} {a : α}
    (c : Chain next h l) (ha : a ∈ l) :
    ∃ l', Chain next (some a) (a :: l') ∧ l'.length < l.length := by
  induction c with
  | nil => cases ha
  | @cons b l c ih =>
    cases ha with
    | head => exact ⟨l, .cons c, by simp⟩
    | tail _ ha =>
      obtain ⟨l', c', hlt⟩ := ih ha
      exact ⟨l', c', by simp only [List.length_cons]; omega⟩

theorem nodup {next : α → Option α} {h : Option α} {l : List α}
    (c : Chain next h l) : l.Nodup := by
  induction c with
  | nil => exact List.nodup_nil
  | @cons a l c ih =>
    refine List.nodup_cons.2 ⟨fun ha => ?_, ih⟩
    obtain ⟨l', c', hlt⟩ := c.exists_of_mem ha
    have := unique c' (.cons c)
    simp only [List.cons.injEq, true_and] at this
    rw [this] at hlt
    exact Nat.lt_irrefl _ hlt

theorem head_eq {next : α → Option α} {h : Option α} {l : List α} (c : Chain next h l) :
    h = l.head? := by
  cases c <;> rfl

variable [DecidableEq α]

theorem update_of_notMem {next : α → Option α} {h : Option α} {l : List α}
    (c : Chain next h l) {a : α} (ha : a ∉ l) (v : Option α) :
    Chain (Function.update next a v) h l := by
  induction c with
  | nil => exact .nil
  | @cons b l c ih =>
    obtain ⟨hb, hl⟩ := not_or.1 (fun h => ha (List.mem_cons.2 h))
    refine .cons ?_
    rw [Function.update_of_ne (Ne.symm hb)]
    exact ih hl

theorem push {next : α → Option α} {h : Option α} {l : List α}
    (c : Chain next h l) {a : α} (ha : a ∉ l) :
    Chain (Function.update next a h) (some a) (a :: l) := by
  refine .cons ?_
  rw [Function.update_self]
  exact c.update_of_notMem ha h

theorem pop {next : α → Option α} {a : α} {l : List α}
    (c : Chain next (some a) (a :: l)) :
    Chain (Function.update next a none) (next a) l := by
  have hnd := List.nodup_cons.1 c.nodup
  cases c with
  | cons c => exact c.update_of_notMem hnd.1 none

end Chain

end Jos.Lib
