import Jos.User.Printfmt
import Mathlib.Logic.Function.Basic
import Mathlib.Data.List.TakeWhile

/-! `_gettoken` and `gettoken` of `user/sh.c`, which cut a string into words one token ahead of
the caller. -/

namespace Jos.User

open Kern

def whitespace : List Byte := [chr ' ', chr '\t', chr '\r', chr '\n']
def symbols : List Byte := [chr '<', chr '|', chr '>', chr '&', chr ';', chr '(', chr ')']

/-- Whether `strchr` finds the character; the 0 at the end of a string is not found. -/
def strchr (s : List Byte) (c : Byte) : Bool := decide (c ∈ s)

/-- `while (strchr(WHITESPACE, *s)) *s++ = 0;` -/
def skipWhitespace : Nat → Nat → (Nat → Byte) → Option (Nat × (Nat → Byte))
  | 0, _, _ => none
  | fuel + 1, s, m =>
    if strchr whitespace (m s) then skipWhitespace fuel (s + 1) (Function.update m s 0)
    else some (s, m)

/-- `while (*s && !strchr(WHITESPACE SYMBOLS, *s)) s++;` -/
def skipWord (m : Nat → Byte) : Nat → Nat → Option Nat
  | 0, _ => none
  | fuel + 1, s =>
    if m s ≠ 0 ∧ strchr (whitespace ++ symbols) (m s) = false then skipWord m fuel (s + 1)
    else some s

/-- The statics of `gettoken`, and the memory; 0 is the null pointer. -/
structure Tok where
  nc : Byte
  np1 : Nat
  np2 : Nat
  mem : Nat → Byte

/-- `nc = _gettoken(s, &np1, &np2)`, with what the loops may look at as `fuel`. -/
def gettokenAt (fuel : Nat) (s : Nat) (st : Tok) : Option Tok :=
  if s = 0 then some { st with nc := 0 }
  else do
    let (s, m) ← skipWhitespace fuel s st.mem
    if m s = 0 then some ⟨0, 0, 0, m⟩
    else if strchr symbols (m s) then some ⟨m s, s, s + 1, Function.update m s 0⟩
    else do
      let s' ← skipWord m fuel s
      some ⟨chr 'w', s, s', m⟩

def gettoken (fuel : Nat) (st : Tok) : Option ((Byte × Nat) × Tok) := do
  let st' ← gettokenAt fuel st.np2 st
  some ((st.nc, st.np1), st')

def gettokens (fuel : Nat) : Nat → Tok → Option (List (Byte × Nat) × Tok)
  | 0, st => some ([], st)
  | n + 1, st => do
    let (rs, st) ← gettokens fuel n st
    let (r, st) ← gettoken fuel st
    some (rs ++ [r], st)

inductive Token
  | word (w : List Byte)
  | symbol (c : Byte)
  deriving DecidableEq

def ordinary (c : Byte) : Bool := !strchr (whitespace ++ symbols) c

def tokens : List Byte → List Token
  | [] => []
  | c :: cs =>
    if strchr whitespace c then tokens cs
    else if strchr symbols c then .symbol c :: tokens cs
    else .word (c :: cs.takeWhile ordinary) :: tokens (cs.dropWhile ordinary)
termination_by cs => cs.length
decreasing_by
  all_goals
    have := List.length_dropWhile_le ordinary cs
    simp only [List.length_cons]
    omega

structure Rest (m : Nat → Byte) (p : Nat) (cs : List Byte) (e : Nat) : Prop where
  stop : p + cs.length = e
  chars : ∀ i, i < cs.length → cs[i]? = some (m (p + i))
  nul : m e = 0
  nonzero : 0 ∉ cs

def CString (m : Nat → Byte) (p : Nat) (cs : List Byte) : Prop := Rest m p cs (p + cs.length)

variable {fuel p e : Nat} {m : Nat → Byte} {cs : List Byte} {c : Byte}

theorem Rest.head (h : Rest m p (c :: cs) e) : m p = c ∧ c ≠ 0 := by
  have hp := h.chars 0 (Nat.succ_pos _)
  rw [List.getElem?_cons_zero] at hp
  exact ⟨(Option.some.inj hp).symm, fun h0 => h.nonzero (h0 ▸ List.mem_cons_self)⟩

theorem Rest.congr {m' : Nat → Byte} (h : Rest m p cs e) (hm : ∀ a, p ≤ a → a ≤ e → m' a = m a) :
    Rest m' p cs e := by
  have hstop := h.stop
  refine ⟨hstop, fun i hi => ?_, (hm e (by omega) (Nat.le_refl e)).trans h.nul, h.nonzero⟩
  rw [hm _ (by omega) (by omega)]
  exact h.chars i hi

theorem Rest.tail (h : Rest m p (c :: cs) e) : Rest m (p + 1) cs e := by
  refine ⟨by have := h.stop; rw [List.length_cons] at this; omega, fun i hi => ?_, h.nul,
    fun h0 => h.nonzero (List.mem_cons_of_mem _ h0)⟩
  rw [Nat.add_assoc, Nat.add_comm 1, ← h.chars (i + 1) (Nat.succ_lt_succ hi), List.getElem?_cons_succ]

theorem Rest.lt (h : Rest m p (c :: cs) e) : p < e := by
  have := h.stop
  rw [List.length_cons] at this
  omega

structure Cleared (p e : Nat) (m m' : Nat → Byte) : Prop where
  low : ∀ a, a < p → m' a = m a
  high : ∀ a, e ≤ a → m' a = m a
  zero : ∀ a, m' a = m a ∨ m' a = 0

theorem Cleared.refl : Cleared p e m m := ⟨fun _ _ => rfl, fun _ _ => rfl, fun _ => .inl rfl⟩

theorem Cleared.trans {p' : Nat} {m' m'' : Nat → Byte} (h : Cleared p e m m')
    (h' : Cleared p' e m' m'') (hle : p ≤ p') : Cleared p e m m'' :=
  ⟨fun a ha => (h'.low a (by omega)).trans (h.low a ha), fun a ha => (h'.high a ha).trans (h.high a ha),
    fun a => (h'.zero a).elim (fun h1 => (h.zero a).elim (fun h2 => .inl (h1.trans h2)) fun h2 =>
      .inr (h1.trans h2)) .inr⟩

theorem Cleared.single (hp : p < e) : Cleared p e m (Function.update m p 0) := by
  refine ⟨fun a ha => Function.update_of_ne (by omega) _ _, fun a ha =>
    Function.update_of_ne (by omega) _ _, fun a => ?_⟩
  rw [Function.update_apply]
  split
  · exact .inr rfl
  · exact .inl rfl

theorem Rest.update (h : Rest m p (c :: cs) e) : Rest (Function.update m p 0) (p + 1) cs e :=
  h.tail.congr fun a ha _ => Function.update_of_ne (by omega) _ _

inductive Ahead (e : Nat) (st : Tok) : List Token → Prop
  | done (hc : st.nc = 0) (h1 : st.np1 = 0) (h2 : st.np2 = 0) : Ahead e st []
  | symbol (c : Byte) (cs : List Byte) (hc : st.nc = c) (h2 : st.np2 ≠ 0)
    (hr : Rest st.mem st.np2 cs e) : Ahead e st (.symbol c :: tokens cs)
  | word (w cs : List Byte) (hc : st.nc = chr 'w') (h2 : st.np2 ≠ 0)
    (hw : Rest st.mem st.np1 (w ++ cs) e) (h12 : st.np1 + w.length = st.np2)
    (hcs : ∀ c ∈ cs.head?, ordinary c = false) : Ahead e st (.word w :: tokens cs)

def Tok.Settled (st : Tok) (a : Nat) : Prop := st.np2 = 0 ∨ a < st.np2

structure Tok.Looks (e : Nat) (st st' : Tok) : Prop where
  settled : ∀ a, st.Settled a → st'.Settled a
  next : st.np2 ≠ 0 → st'.Settled st.np2
  kept : ∀ a, st.Settled a → st'.mem a = st.mem a
  high : ∀ a, e ≤ a → st'.mem a = st.mem a

theorem skipWhitespace_spec (h : Rest m p cs e) (hf : cs.length < fuel) :
    ∃ q m' cs', skipWhitespace fuel p m = some (q, m') ∧ Rest m' q cs' e ∧ tokens cs' = tokens cs ∧
      Cleared p e m m' ∧ p ≤ q ∧ cs'.length ≤ cs.length ∧
      (∀ c ∈ cs'.head?, strchr whitespace c = false) ∧
      (m' p = 0 ∨ q = p ∧ cs.head? = some (m' p) ∧ strchr whitespace (m' p) = false) := by
  induction cs generalizing fuel p m with
  | nil =>
    obtain ⟨fuel, rfl⟩ := Nat.exists_eq_succ_of_ne_zero (Nat.ne_of_gt hf)
    have hp : m p = 0 := by rw [← h.nul, ← h.stop]; rfl
    have hno : strchr whitespace (m p) = false := by rw [hp]; decide
    exact ⟨p, m, [], by rw [skipWhitespace, hno]; rfl, h, rfl, .refl, Nat.le_refl p, Nat.le_refl _,
      by rintro c ⟨⟩, .inl hp⟩
  | cons c cs ih =>
    obtain ⟨fuel, rfl⟩ := Nat.exists_eq_succ_of_ne_zero (Nat.ne_zero_of_lt hf)
    rw [skipWhitespace, h.head.1]
    by_cases hc : strchr whitespace c = true
    · obtain ⟨q, m', cs', hq, hr, ht, hcl, hle, hlen, hhead, -⟩ :=
        ih h.update (Nat.succ_lt_succ_iff.mp hf)
      refine ⟨q, m', cs', by rw [if_pos hc]; exact hq, hr, ?_, (Cleared.single h.lt).trans hcl (by omega),
        by omega, by rw [List.length_cons]; omega, hhead, .inl ?_⟩
      · rw [ht, tokens, if_pos hc]
      · rw [hcl.low p (by omega), Function.update_self]
    · have hf' := Bool.eq_false_iff.mpr hc
      exact ⟨p, m, c :: cs, by rw [if_neg hc], h, rfl, .refl, Nat.le_refl p, Nat.le_refl _,
        fun x hx => by cases hx; exact hf', .inr ⟨rfl, by rw [h.head.1]; rfl, by rw [h.head.1]; exact hf'⟩⟩

theorem skipWord_spec (h : Rest m p cs e) (hf : cs.length < fuel) :
    skipWord m fuel p = some (p + (cs.takeWhile ordinary).length) := by
  induction cs generalizing fuel p with
  | nil =>
    obtain ⟨fuel, rfl⟩ := Nat.exists_eq_succ_of_ne_zero (Nat.ne_of_gt hf)
    have hp : m p = 0 := by rw [← h.nul, ← h.stop]; rfl
    rw [skipWord, if_neg (fun hn => hn.1 hp)]
    rfl
  | cons c cs ih =>
    obtain ⟨fuel, rfl⟩ := Nat.exists_eq_succ_of_ne_zero (Nat.ne_zero_of_lt hf)
    rw [skipWord, h.head.1]
    by_cases hc : strchr (whitespace ++ symbols) c = true
    · rw [if_neg (fun hn => by rw [hc] at hn; exact Bool.noConfusion hn.2),
        List.takeWhile_cons_of_neg (by rw [ordinary, hc]; decide)]
      rfl
    · have hf' := Bool.eq_false_iff.mpr hc
      rw [if_pos ⟨h.head.2, hf'⟩, ih h.tail (Nat.succ_lt_succ_iff.mp hf),
        List.takeWhile_cons_of_pos (by rw [ordinary, hf']; rfl), List.length_cons, Nat.add_assoc,
        Nat.add_comm 1]

theorem Rest.drop {ws : List Byte} (h : Rest m p (ws ++ cs) e) : Rest m (p + ws.length) cs e := by
  induction ws generalizing p with
  | nil => exact h
  | cons w ws ih =>
    have := ih h.tail
    rwa [Nat.add_assoc, Nat.add_comm 1] at this

theorem ordinary_iff : ordinary c = false ↔ strchr whitespace c = true ∨ strchr symbols c = true := by
  rw [ordinary, Bool.not_eq_false', strchr, strchr, strchr, decide_eq_true_iff, decide_eq_true_iff,
    decide_eq_true_iff, List.mem_append]

theorem dropWhile_head (cs : List Byte) : ∀ c ∈ (cs.dropWhile ordinary).head?, ordinary c = false := by
  intro c hc
  have hn := List.head?_dropWhile_not ordinary cs
  rw [hc] at hn
  simpa using hn

theorem gettokenAt_spec (st : Tok) (h0 : p ≠ 0) (h : Rest st.mem p cs e) (hf : cs.length < fuel) :
    ∃ st', gettokenAt fuel p st = some st' ∧ Ahead e st' (tokens cs) ∧
      Cleared p e st.mem st'.mem ∧ (st'.np2 = 0 ∨ p < st'.np2) ∧
      ((∀ c ∈ cs.head?, ordinary c = false) → st'.mem p = 0) := by
  obtain ⟨q, m', cs', hq, hr, ht, hcl, hle, hlen, hhead, hstop⟩ := skipWhitespace_spec h hf
  rw [gettokenAt, if_neg h0, hq, Option.bind_eq_bind, Option.bind_some]
  dsimp only
  rw [← ht]
  -- a separator where the last word stopped is overwritten, a blank at once and a symbol below
  have hzero : ∀ m'', Cleared q e m' m'' → (strchr symbols (m' q) = true → m'' q = 0) →
      (∀ c ∈ cs.head?, ordinary c = false) → m'' p = 0 := by
    intro m'' hcl' hsym hord
    rcases hstop with hp | ⟨rfl, hhd, hblank⟩
    · exact (hcl'.zero p).elim (fun h1 => h1.trans hp) id
    · exact hsym ((ordinary_iff.mp (hord _ hhd)).resolve_left (by rw [hblank]; decide))
  cases cs' with
  | nil =>
    have hq0 : m' q = 0 := by rw [← hr.nul, ← hr.stop]; rfl
    rw [if_pos hq0, tokens]
    exact ⟨_, rfl, .done rfl rfl rfl, hcl, .inl rfl, hzero m' .refl fun _ => hq0⟩
  | cons c cs' =>
    obtain ⟨hc, hc0⟩ := hr.head
    have hblank : ¬ strchr whitespace c = true := Bool.eq_false_iff.mp (hhead c rfl)
    rw [hc] at hzero
    rw [hc, if_neg hc0, tokens, if_neg hblank]
    by_cases hs : strchr symbols c = true
    · rw [if_pos hs, if_pos hs]
      exact ⟨_, rfl, .symbol c cs' rfl (Nat.succ_ne_zero q) hr.update,
        hcl.trans (.single hr.lt) hle, .inr (Nat.lt_succ_of_le hle),
        hzero _ (.single hr.lt) fun _ => Function.update_self ..⟩
    · have hord : ordinary c = true := by
        rw [← Bool.not_eq_false, ordinary_iff]
        exact fun hn => hn.elim hblank hs
      rw [if_neg hs, if_neg hs, skipWord_spec hr (Nat.lt_of_le_of_lt hlen hf),
        List.takeWhile_cons_of_pos hord, Option.bind_eq_bind, Option.bind_some]
      refine ⟨_, rfl, .word _ _ rfl ?_ ?_ rfl (dropWhile_head cs'), hcl, .inr ?_,
        hzero m' .refl fun h1 => absurd h1 hs⟩
      · dsimp only [List.length_cons]
        omega
      · rw [List.cons_append, List.takeWhile_append_dropWhile]
        exact hr
      · dsimp only [List.length_cons]
        omega

def Denotes (m : Nat → Byte) : Option Token → Byte × Nat → Prop
  | none, r => r.1 = 0
  | some (.symbol c), r => r.1 = c
  | some (.word w), r => r.1 = chr 'w' ∧ CString m r.2 w

def Tok.Told (st : Tok) : Option Token → Byte × Nat → Prop
  | some (.word w), r => Denotes st.mem (some (.word w)) r ∧ ∀ a, a ≤ r.2 + w.length → st.Settled a
  | t, r => Denotes st.mem t r

theorem Tok.Told.denotes {st : Tok} {t : Option Token} {r : Byte × Nat} (h : st.Told t r) :
    Denotes st.mem t r := by
  rcases t with _ | _ | _
  · exact h
  · exact h.1
  · exact h

theorem Tok.Looks.told {st st' : Tok} {t : Option Token} {r : Byte × Nat} (hl : st.Looks e st')
    (h : st.Told t r) : st'.Told t r := by
  rcases t with _ | w | _
  · exact h
  · obtain ⟨⟨hw, hs⟩, hset⟩ := h
    exact ⟨⟨hw, hs.congr fun a _ ha => hl.kept a (hset a ha)⟩, fun a ha => hl.settled a (hset a ha)⟩
  · exact h

theorem gettoken_spec {st : Tok} {ts : List Token} (h : Ahead e st ts) (he : e < fuel) :
    ∃ st', gettoken fuel st = some ((st.nc, st.np1), st') ∧ Ahead e st' ts.tail ∧ st.Looks e st' ∧
      st'.Told ts.head? (st.nc, st.np1) := by
  rw [gettoken]
  -- after a token the look-ahead goes on behind it
  have hlook : ∀ cs, Rest st.mem st.np2 cs e → st.np2 ≠ 0 → ∃ st', gettokenAt fuel st.np2 st = some st' ∧
      Ahead e st' (tokens cs) ∧ st.Looks e st' ∧
      ((∀ c ∈ cs.head?, ordinary c = false) → st'.mem st.np2 = 0) := by
    intro cs hr h2
    have hf : cs.length < fuel := by have := hr.stop; omega
    obtain ⟨st', hst, ha, hcl, hnp, hz⟩ := gettokenAt_spec st h2 hr hf
    refine ⟨st', hst, ha, ⟨fun a hs => ?_, fun _ => hnp, fun a hs => ?_, hcl.high⟩, hz⟩
    · have := hs.resolve_left h2
      exact hnp.imp_right (by omega)
    · exact hcl.low a (hs.resolve_left h2)
  cases h with
  | done hc h1 h2 =>
    exact ⟨{ st with nc := 0 }, by rw [gettokenAt, if_pos h2]; rfl, .done rfl h1 h2,
      ⟨fun a ha => ha, fun hn => absurd h2 hn, fun _ _ => rfl, fun _ _ => rfl⟩, hc⟩
  | symbol c cs hc h2 hr =>
    obtain ⟨st', hst, ha, hl, -⟩ := hlook cs hr h2
    exact ⟨st', by rw [hst]; rfl, ha, hl, hc⟩
  | word w cs hc h2 hw h12 hcs =>
    obtain ⟨st', hst, ha, hl, hz⟩ := hlook cs (h12 ▸ hw.drop) h2
    have hset : ∀ a, a ≤ st.np1 + w.length → st'.Settled a := by
      intro a hle
      rcases Nat.lt_or_eq_of_le (h12 ▸ hle) with hlt | rfl
      · exact hl.settled a (.inr hlt)
      · exact hl.next h2
    refine ⟨st', by rw [hst]; rfl, ha, hl, ⟨hc, rfl, fun i hi => ?_, ?_, ?_⟩, hset⟩
    · have := hw.chars i (by rw [List.length_append]; omega)
      rw [List.getElem?_append_left hi] at this
      rw [this, hl.kept _ (.inr (by omega))]
    · rw [h12]
      exact hz hcs
    · exact fun h0 => hw.nonzero (List.mem_append_left cs h0)

theorem gettokens_spec {st : Tok} {ts : List Token} (h : Ahead e st ts) (he : e < fuel) (n : Nat) :
    ∃ rs st', gettokens fuel n st = some (rs, st') ∧ rs.length = n ∧ Ahead e st' (ts.drop n) ∧
      (∀ a, st.Settled a → st'.mem a = st.mem a ∧ st'.Settled a) ∧
      (∀ a, e ≤ a → st'.mem a = st.mem a) ∧
      ∀ (i : Nat) r, rs[i]? = some r → st'.Told ts[i]? r := by
  induction n with
  | zero => exact ⟨[], st, rfl, rfl, h, fun a ha => ⟨rfl, ha⟩, fun _ _ => rfl, by rintro i r ⟨⟩⟩
  | succ n ih =>
    obtain ⟨rs, st1, hrs, hlen, ha, hkept, hhigh, htold⟩ := ih
    obtain ⟨st2, hst2, ha2, hl, ht⟩ := gettoken_spec ha he
    rw [List.tail_drop] at ha2
    rw [List.head?_drop] at ht
    refine ⟨rs ++ [(st1.nc, st1.np1)], st2, ?_, by rw [List.length_append, hlen]; rfl, ha2,
      fun a hs => ?_, fun a hle => (hl.high a hle).trans (hhigh a hle), fun i r hi => ?_⟩
    · rw [gettokens, hrs, Option.bind_eq_bind, Option.bind_some]
      dsimp only
      rw [hst2]
      rfl
    · obtain ⟨hm, hs1⟩ := hkept a hs
      exact ⟨(hl.kept a hs1).trans hm, hl.settled a hs1⟩
    · rcases Nat.lt_or_ge i rs.length with hlt | hge
      · rw [List.getElem?_append_left hlt] at hi
        exact hl.told (htold i r hi)
      · rw [List.getElem?_append_right hge, List.getElem?_singleton] at hi
        split at hi
        · cases hi
          rwa [show i = n by omega]
        · cases hi

/-- After `gettoken(s, 0)` any number of calls return the reference's tokens, then 0 for ever;
every word returned so far still stands where the call said, and nothing outside the string
has been written. -/
theorem gettoken_reference (fuel s : Nat) (cs : List Byte) (st : Tok) (n : Nat) (hs : s ≠ 0)
    (h : CString st.mem s cs) (hf : s + cs.length < fuel) :
    ∃ st0 rs st', gettokenAt fuel s st = some st0 ∧ gettokens fuel n st0 = some (rs, st') ∧
      rs.length = n ∧ (∀ (i : Nat) r, rs[i]? = some r → Denotes st'.mem (tokens cs)[i]? r) ∧
      ∀ a, a < s ∨ s + cs.length ≤ a → st'.mem a = st.mem a := by
  obtain ⟨st0, hst, ha, hcl, hnp, -⟩ := gettokenAt_spec st hs h (Nat.lt_of_le_of_lt (Nat.le_add_left _ s) hf)
  obtain ⟨rs, st', hrs, hlen, -, hkept, hhigh, htold⟩ := gettokens_spec ha hf n
  refine ⟨st0, rs, st', hst, hrs, hlen, fun i r hi => (htold i r hi).denotes, fun a ha => ?_⟩
  rcases ha with hlt | hge
  · exact (hkept a (hnp.imp_right hlt.trans)).1.trans (hcl.low a hlt)
  · exact (hhigh a hge).trans (hcl.high a hge)

theorem gettoken_ls_pipe :
    ∃ st0 rs st', gettokenAt 6 1 ⟨0, 0, 0, fun a => [0, chr 'l', chr 's', chr '|'].getD a 0⟩ = some st0 ∧
      gettokens 6 3 st0 = some (rs, st') ∧ rs.length = 3 ∧
      (∀ (i : Nat) r, rs[i]? = some r → Denotes st'.mem (tokens [chr 'l', chr 's', chr '|'])[i]? r) ∧
      ∀ a, a < 1 ∨ 1 + 3 ≤ a → st'.mem a = [0, chr 'l', chr 's', chr '|'].getD a 0 :=
  gettoken_reference 6 1 [chr 'l', chr 's', chr '|'] ⟨0, 0, 0, _⟩ 3 (by decide)
    ⟨rfl, by decide, rfl, by decide⟩ (by decide)

end Jos.User
