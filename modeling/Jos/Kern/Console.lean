import Jos.Kern.State
import Jos.Lib.Ring
import Jos.Lib.Run

/-! `cons_intr` and `cons_getc` of `kern/console.c`: a ring of characters that is never tested
for being full. -/

namespace Jos.Kern

open Lib

def consbufsize : Nat := 512

structure Cons where
  buf : Nat → Byte
  rpos : Nat
  wpos : Nat

def Cons.put (s : Cons) (c : Byte) : Cons :=
  { s with
    buf := Function.update s.buf s.wpos c
    wpos := if s.wpos + 1 = consbufsize then 0 else s.wpos + 1 }

/-- `cons_intr`, with what `proc` returns before it returns -1. -/
def consIntr : List Byte → Cons → Cons
  | [], s => s
  | c :: cs, s => consIntr cs (if c = 0 then s else s.put c)

def consTake (s : Cons) : Byte × Cons :=
  if s.rpos ≠ s.wpos then
    (s.buf s.rpos, { s with rpos := if s.rpos + 1 = consbufsize then 0 else s.rpos + 1 })
  else (0, s)

/-- `cons_getc`, with what `serial_intr` and `kbd_intr` find; nothing comes from a serial port
that does not exist. -/
def consGetc (serial kbd : List Byte) (s : Cons) : Byte × Cons :=
  consTake (consIntr kbd (consIntr serial s))

inductive ConsEvent
  | intr (cs : List Byte)
  | getc (serial kbd : List Byte)

def ConsEvent.chars : ConsEvent → List Byte
  | intr cs => cs
  | getc serial kbd => serial ++ kbd

/-- The console, the characters delivered and those returned, without the 0s. -/
structure Console where
  cons : Cons
  delivered : List Byte
  returned : List Byte

namespace Console

def start : Console := ⟨⟨fun _ => 0, 0, 0⟩, [], []⟩

def polled (t : Console) (e : ConsEvent) : Console :=
  { t with
    cons := consIntr e.chars t.cons
    delivered := t.delivered ++ e.chars.filter (· ≠ 0) }

def step (t : Console) : ConsEvent → Option Console
  | .intr cs => some (t.polled (.intr cs))
  | .getc serial kbd =>
    let (c, s) := consGetc serial kbd t.cons
    let t := t.polled (.getc serial kbd)
    some { t with cons := s, returned := if c = 0 then t.returned else t.returned ++ [c] }

def pending (t : Console) : Nat := t.delivered.length - t.returned.length

def Fits (t : Console) (e : ConsEvent) : Prop := (t.polled e).pending ≤ consbufsize - 1

/-- `cons_getc` will read the character at `k`; the ones in between are in the ring. -/
structure Queued (k : Nat) (t : Console) : Prop where
  ring : Holds consbufsize t.cons.buf t.delivered k
  room : t.delivered.length < k + consbufsize
  rpos : t.cons.rpos = k % consbufsize
  wpos : t.cons.wpos = t.delivered.length % consbufsize
  nonzero : 0 ∉ t.delivered

variable {t u : Console} {k : Nat} {c : Byte} {cs : List Byte} {e : ConsEvent}

theorem succ_mod (n : Nat) : (n + 1) % consbufsize =
    if n % consbufsize + 1 = consbufsize then 0 else n % consbufsize + 1 := by
  rw [consbufsize]
  split <;> omega

def put (t : Console) (c : Byte) : Console :=
  { t with cons := t.cons.put c, delivered := t.delivered ++ [c] }

/-- The reader is lapped if the ring was one short of full. -/
theorem Queued.put (h : Queued k t) (hc : c ≠ 0) :
    Queued (if t.delivered.length + 1 = k + consbufsize then t.delivered.length + 1 else k)
      (t.put c) := by
  have hroom := h.room
  have hlen : (t.delivered ++ [c]).length = t.delivered.length + 1 := List.length_append
  have hring : Holds consbufsize (t.put c).cons.buf (t.delivered ++ [c]) k := by
    have hbuf : (t.put c).cons.buf =
        Function.update t.cons.buf (t.delivered.length % consbufsize) c := by
      rw [← h.wpos]
      rfl
    rw [hbuf]
    exact (h.ring.store hroom).push hroom (Function.update_self _ _ _)
  have hwpos : (t.put c).cons.wpos = (t.delivered.length + 1) % consbufsize := by
    rw [succ_mod, ← h.wpos]
    rfl
  have hzero : 0 ∉ t.delivered ++ [c] := by
    rw [List.mem_append, List.mem_singleton]
    exact not_or.2 ⟨h.nonzero, hc.symm⟩
  split
  · next hfull =>
    refine ⟨⟨hlen.ge, by rw [← hlen]; exact Nat.le_add_right _ _, fun j hj => .inl ?_⟩,
      by rw [← hlen]; exact Nat.lt_add_of_pos_right (by decide), ?_, hwpos.trans (by rw [← hlen]; rfl),
      hzero⟩
    · exact List.getElem?_eq_none (hlen.trans_le hj)
    · rw [hfull, Nat.add_mod_right]
      exact h.rpos
  · next hfull =>
    exact ⟨hring, hlen.trans_lt (by omega), h.rpos, hwpos.trans (by rw [← hlen]; rfl), hzero⟩

def deliver (t : Console) (cs : List Byte) : Console :=
  { t with cons := consIntr cs t.cons, delivered := t.delivered ++ cs.filter (· ≠ 0) }

theorem Queued.deliver (h : Queued k t) (cs : List Byte) : ∃ k', k ≤ k' ∧ Queued k' (t.deliver cs) ∧
    ((t.deliver cs).delivered.length < k + consbufsize → k' = k) := by
  induction cs generalizing t k with
  | nil =>
    refine ⟨k, Nat.le_refl k, ?_, fun _ => rfl⟩
    rw [Console.deliver, List.filter_nil, List.append_nil]
    exact h
  | cons c cs ih =>
    by_cases hc : c = 0
    · have hsame : t.deliver (c :: cs) = t.deliver cs := by simp [Console.deliver, consIntr, hc]
      rw [hsame]
      exact ih h
    · have hput : t.deliver (c :: cs) = (t.put c).deliver cs := by
        have hfilter : (c :: cs).filter (· ≠ 0) = c :: cs.filter (· ≠ 0) :=
          List.filter_cons_of_pos (by simpa using hc)
        rw [Console.deliver, consIntr, if_neg hc, hfilter]
        simp [Console.deliver, Console.put]
      have hroom := h.room
      obtain ⟨k', hle, hq, heq⟩ := ih (h.put hc)
      rw [hput]
      refine ⟨k', le_trans ?_ hle, hq, fun hfew => ?_⟩
      · split <;> omega
      · have hgrow : t.delivered.length + 1 ≤ ((t.put c).deliver cs).delivered.length := by
          simp only [Console.deliver, Console.put, List.length_append, List.length_singleton]
          omega
        rw [if_neg (by omega)] at heq
        exact heq hfew

theorem Queued.take_eq (h : Queued k t) : (k = t.delivered.length ∧ consTake t.cons = (0, t.cons)) ∨
    ∃ c s, t.delivered[k]? = some c ∧ c ≠ 0 ∧ consTake t.cons = (c, s) ∧
      ∀ r, Queued (k + 1) { t with cons := s, returned := r } := by
  obtain heq | hlt := Nat.eq_or_lt_of_le h.ring.le
  · refine .inl ⟨heq, if_neg (not_not.2 ?_)⟩
    rw [h.rpos, h.wpos, heq]
  · have hne : t.cons.rpos ≠ t.cons.wpos := by
      rw [h.rpos, h.wpos]
      exact Holds.mod_ne hlt h.room
    have hget := h.ring.get hlt
    rw [← h.rpos] at hget
    refine .inr ⟨_, _, hget, fun h0 => ?_, if_pos hne, fun r => ⟨h.ring.drop hlt, ?_, ?_, h.wpos,
      h.nonzero⟩⟩
    · rw [h0] at hget
      exact h.nonzero (List.mem_of_getElem? hget)
    · exact Nat.lt_succ_of_lt h.room
    · rw [succ_mod, ← h.rpos]

theorem consIntr_append {cs' : List Byte} {s : Cons} :
    consIntr (cs ++ cs') s = consIntr cs' (consIntr cs s) := by
  induction cs generalizing s with
  | nil => rfl
  | cons c cs ih => exact ih

theorem step_getc {serial kbd : List Byte} {r : Byte} {s : Cons}
    (h : consTake (t.polled (.getc serial kbd)).cons = (r, s)) :
    t.step (.getc serial kbd) = some { t.polled (.getc serial kbd) with
      cons := s, returned := if r = 0 then t.returned else t.returned ++ [r] } ∧
    (consGetc serial kbd t.cons).1 = r := by
  have hget : consGetc serial kbd t.cons = (r, s) := by
    rw [← h, consGetc, ← consIntr_append]
    rfl
  rw [step, hget]
  exact ⟨rfl, rfl⟩

theorem Fits.lt (h : Fits t e) :
    (t.deliver e.chars).delivered.length < t.returned.length + consbufsize := by
  have h : (t.deliver e.chars).delivered.length - t.returned.length ≤ consbufsize - 1 := h
  have : 0 < consbufsize := by decide
  omega

theorem Queued.step (h : Queued k t) (hs : t.step e = some u) : ∃ k', k ≤ k' ∧
    (Fits t e → t.returned.length = k → k' = k) ∧ u.delivered = (t.polled e).delivered ∧
    ((Queued k' u ∧ u.returned = t.returned) ∨
      ∃ c, u.delivered[k']? = some c ∧ Queued (k' + 1) u ∧ u.returned = t.returned ++ [c]) := by
  obtain ⟨k', hle, hq, heq⟩ := h.deliver e.chars
  refine ⟨k', hle, fun hf hk => heq (hk ▸ hf.lt), ?_⟩
  cases e with
  | intr cs =>
    cases hs
    exact ⟨rfl, .inl ⟨hq, rfl⟩⟩
  | getc serial kbd =>
    obtain ⟨-, ht⟩ | ⟨c, s, hget, hne, ht, hnext⟩ := hq.take_eq
    · rw [(step_getc ht).1] at hs
      cases hs
      exact ⟨rfl, .inl ⟨hq, rfl⟩⟩
    · rw [(step_getc ht).1, if_neg hne] at hs
      cases hs
      exact ⟨rfl, .inr ⟨c, hget, hnext _, rfl⟩⟩

/-- The characters returned are delivered before the one that is next. -/
def Ordered (t : Console) : Prop := ∃ k, Queued k t ∧ t.returned.Sublist (t.delivered.take k)

theorem Ordered.step (h : Ordered t) (hs : t.step e = some u) : Ordered u := by
  obtain ⟨k, hq, hk⟩ := h
  obtain ⟨k', hle, -, hu, hcase⟩ := hq.step hs
  have hsub : t.returned.Sublist (u.delivered.take k') := by
    have hgrow : t.delivered <+: u.delivered := hu ▸ List.prefix_append _ _
    exact hk.trans ((hgrow.take k).sublist.trans (List.take_sublist_take_left hle))
  obtain ⟨hq', hr⟩ | ⟨c, hc, hq', hr⟩ := hcase
  · exact ⟨k', hq', hr ▸ hsub⟩
  · refine ⟨k' + 1, hq', ?_⟩
    rw [hr, List.take_add_one, hc]
    exact hsub.append (List.Sublist.refl _)

def Prompt (t : Console) : Prop := Queued t.returned.length t ∧ t.returned <+: t.delivered

theorem Prompt.step (h : Prompt t) (hf : Fits t e) (hs : t.step e = some u) : Prompt u := by
  obtain ⟨hq, hk⟩ := h
  obtain ⟨k', -, heq, hu, hcase⟩ := hq.step hs
  obtain rfl := heq hf rfl
  have hpre : t.returned <+: u.delivered := hu ▸ hk.trans (List.prefix_append _ _)
  obtain ⟨hq', hr⟩ | ⟨c, hc, hq', hr⟩ := hcase
  · exact ⟨hr ▸ hq', hr ▸ hpre⟩
  · have htake : u.delivered.take (t.returned.length + 1) = t.returned ++ [c] := by
      rw [List.take_add_one, hc, ← List.prefix_iff_eq_take.1 hpre]
      rfl
    rw [Prompt, hr, List.length_append]
    exact ⟨hq', htake ▸ List.take_prefix _ _⟩

theorem Prompt.getc_zero {serial kbd : List Byte} (h : Prompt t) (hf : Fits t (.getc serial kbd))
    (h0 : (consGetc serial kbd t.cons).1 = 0) : (t.polled (.getc serial kbd)).pending = 0 := by
  obtain ⟨k', -, hq, heq⟩ := h.1.deliver (serial ++ kbd)
  obtain ⟨hlen, -⟩ | ⟨c, s, -, hne, ht, -⟩ := hq.take_eq
  · obtain rfl := heq hf.lt
    exact Nat.sub_eq_zero_of_le hlen.ge
  · exact absurd ((step_getc ht).2.symm.trans h0) hne

/-- The characters that `cons_getc` returns are some of those delivered, in order; while the
ring has room for all that are pending they are the first ones, and 0 is returned only if
none is pending. -/
theorem console_in_order {es : List ConsEvent} :
    (Run step (fun _ _ => True) start es t → t.returned.Sublist t.delivered) ∧
    (Run step Fits start es t → t.returned <+: t.delivered ∧
      ∀ serial kbd, Fits t (.getc serial kbd) → (consGetc serial kbd t.cons).1 = 0 →
        (t.polled (.getc serial kbd)).pending = 0) := by
  have hstart : Queued 0 start :=
    ⟨⟨Nat.le_refl 0, Nat.zero_le _, fun _ _ => .inl rfl⟩, by decide, rfl, rfl, List.not_mem_nil⟩
  refine ⟨fun hrun => ?_, fun hrun => ?_⟩
  · obtain ⟨k, -, hk⟩ := hrun.invariant Ordered (fun h _ hs => h.step hs)
      ⟨0, hstart, List.Sublist.refl _⟩
    exact hk.trans (List.take_sublist k _)
  · have h := hrun.invariant Prompt (fun h hf hs => h.step hf hs) ⟨hstart, List.prefix_rfl⟩
    exact ⟨h.2, fun serial kbd hf h0 => h.getc_zero hf h0⟩

end Console

end Jos.Kern
