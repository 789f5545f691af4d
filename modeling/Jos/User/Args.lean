import Jos.User.Printfmt

/-! `lib/args.c`. The array of arguments is shifted down while the cursor stays in an argument
that has left it. -/

namespace Jos.User

open Kern

/-- `argv` holds strings and null pointers; `curarg` is what is left of the current argument. -/
structure Args where
  argc : Nat
  argv : Nat → Option (List Byte)
  curarg : Option (List Byte)
  argvalue : Option (List Byte)

def argstart (argc : Nat) (argv : Nat → Option (List Byte)) : Args :=
  ⟨argc, argv, if 1 < argc then some [] else none, none⟩

/-- `memmove` of `argc - 1` pointers from `argv + 2` to `argv + 1`, and one argument less. -/
def Args.shift (s : Args) : Args :=
  { s with
    argv := fun i => if 1 ≤ i ∧ i < s.argc then s.argv (i + 1) else s.argv i
    argc := s.argc - 1 }

/-- The character, or nothing for -1. The call fails at a null pointer. -/
def argnext (s : Args) : Option (Option Byte × Args) :=
  match s.curarg with
  | none => some (none, { s with argvalue := none })
  | some (c :: cs) => some (some c, { s with argvalue := none, curarg := some cs })
  | some [] =>
    if s.argc = 1 then some (none, { s with argvalue := none, curarg := none })
    else do
      let a ← s.argv 1
      if a.headD 0 ≠ chr '-' ∨ a.tail.headD 0 = 0 then
        some (none, { s with argvalue := none, curarg := none })
      else if a.tail.headD 0 = chr '-' ∧ a.tail.tail.headD 0 = 0 then
        some (none, { s.shift with argvalue := none, curarg := none })
      else some (some (a.tail.headD 0), { s.shift with argvalue := none, curarg := some a.tail.tail })

def argnextvalue (s : Args) : Option (List Byte) × Args :=
  match s.curarg with
  | none => (none, s)
  | some (c :: cs) => (some (c :: cs), { s with argvalue := some (c :: cs), curarg := some [] })
  | some [] =>
    if 1 < s.argc then (s.argv 1, { s.shift with argvalue := s.argv 1 })
    else (none, { s with argvalue := none, curarg := none })

def argvalue (s : Args) : Option (List Byte) × Args :=
  match s.argvalue with
  | some v => (some v, s)
  | none => argnextvalue s

def argnexts : Nat → Args → Option (List Byte × Args)
  | 0, _ => none
  | n + 1, s => do
    match ← argnext s with
    | (none, s) => some ([], s)
    | (some c, s) =>
      let (cs, s) ← argnexts n s
      some (c :: cs, s)

/-- The reference: the flags among the arguments behind the first one, and the rest. -/
def options : List (List Byte) → List Byte × List (List Byte)
  | [] => ([], [])
  | a :: as =>
    if a.headD 0 ≠ chr '-' ∨ a.length = 1 then ([], a :: as)
    else if a = [chr '-', chr '-'] then ([], as)
    else (a.tail ++ (options as).1, (options as).2)

inductive ArgCall
  | next
  | value
  | nextvalue

/-- What a call takes of the arguments: the next character of the current one, the `-` and the
first character of the next one, the rest of the current one, the next one as a whole, a `--`,
or nothing. -/
inductive Took
  | char (c : Byte)
  | first (c : Byte)
  | rest (v : List Byte)
  | whole (v : List Byte)
  | dashes
  | nothing

def Took.add : Took → List (List Byte) → List (List Byte)
  | char c, x :: xs => (x ++ [c]) :: xs
  | rest v, x :: xs => (x ++ v) :: xs
  | first c, xs => [chr '-', c] :: xs
  | whole v, xs => v :: xs
  | dashes, xs => [chr '-', chr '-'] :: xs
  | _, xs => xs

inductive ArgResult
  | flag (c : Option Byte)
  | str (v : Option (List Byte))

def ArgCall.run (s : Args) : ArgCall → Option (ArgResult × Args)
  | next => (argnext s).map fun x => (.flag x.1, x.2)
  | value => some (.str (argvalue s).1, (argvalue s).2)
  | nextvalue => some (.str (argnextvalue s).1, (argnextvalue s).2)

/-- The result is what was taken. Only `argvalue` may return a string that it does not take: the
value it returned before. -/
inductive Returns (s : Args) : ArgCall → Took → ArgResult → Prop
  | char (c) : Returns s .next (.char c) (.flag (some c))
  | first (c) : Returns s .next (.first c) (.flag (some c))
  | dashes : Returns s .next .dashes (.flag none)
  | stop : Returns s .next .nothing (.flag none)
  | again (v) : s.argvalue = some v → Returns s .value .nothing (.str (some v))
  | rest (k v) : k = .value ∧ s.argvalue = none ∨ k = .nextvalue → Returns s k (.rest v) (.str (some v))
  | whole (k v) : k = .value ∧ s.argvalue = none ∨ k = .nextvalue → Returns s k (.whole v) (.str (some v))
  | null (k) : k = .value ∧ s.argvalue = none ∨ k = .nextvalue → Returns s k .nothing (.str none)

inductive ArgTrace (s : Args) : List (ArgCall × Took × ArgResult) → Args → Prop
  | nil : ArgTrace s [] s
  | snoc {es t k r took t'} : ArgTrace s es t → ArgCall.run t k = some (r, t') → Returns t k took r →
    ArgTrace s (es ++ [(k, took, r)]) t'

def Args.Array (all : List (List Byte)) (s : Args) : Prop :=
  s.argc = all.length ∧ ∀ i, i ≤ all.length → s.argv i = all[i]?

def Args.Accounts (args taken as : List (List Byte)) (s : Args) : Prop :=
  match s.curarg with
  | some (c :: cs) => ∃ x xs, taken = x :: xs ∧ args = ((x ++ c :: cs) :: xs).reverse ++ as
  | _ => args = taken.reverse ++ as

structure Args.Holds (pre as : List (List Byte)) (s : Args) : Prop where
  array : s.Array (pre ++ as)
  pre : s.curarg ≠ none → pre.length = 1
  nul : ∀ a ∈ as, 0 ∉ a
  cur : ∀ cs, s.curarg = some cs → 0 ∉ cs

variable {s : Args} {pre as taken args : List (List Byte)} {a : List Byte} {c : Byte}

theorem Args.Holds.second (h : s.Holds pre (a :: as)) (hp : pre.length = 1) :
    s.argc = as.length + 2 ∧ s.argv 1 = some a := by
  obtain ⟨hc, hv⟩ := h.array
  rw [List.length_append, List.length_cons, hp] at hc
  refine ⟨by omega, ?_⟩
  rw [hv 1 (by rw [List.length_append]; omega), List.getElem?_append_right (Nat.le_of_eq hp), hp]
  rfl

theorem Args.Holds.shift (h : s.Holds pre (a :: as)) (hp : pre.length = 1) (v : Option (List Byte))
    {cur : Option (List Byte)} (hcur : ∀ cs, cur = some cs → 0 ∉ cs) :
    Args.Holds pre as { s.shift with argvalue := v, curarg := cur } := by
  obtain ⟨hc, -⟩ := h.second hp
  have hv := h.array.2
  rw [List.length_append, List.length_cons, hp] at hv
  refine ⟨⟨?_, fun i hi => ?_⟩, fun _ => hp, fun x hx => h.nul x (List.mem_cons_of_mem a hx), hcur⟩
  · rw [Args.shift, List.length_append, hp]
    dsimp only
    omega
  · rw [List.length_append, hp] at hi
    rw [Args.shift]
    dsimp only
    cases i with
    | zero =>
      rw [if_neg (by omega), hv 0 (Nat.zero_le _), List.getElem?_append_left (by omega),
        List.getElem?_append_left (by omega)]
    | succ i =>
      rw [if_pos (by omega), hv (i + 1 + 1) (by omega), List.getElem?_append_right (by omega),
        List.getElem?_append_right (by omega), hp]
      rfl

theorem Args.Holds.set (h : s.Holds pre as) (v : Option (List Byte)) {cur : Option (List Byte)}
    (hp : cur ≠ none → s.curarg ≠ none) (hcur : ∀ cs, cur = some cs → 0 ∉ cs) :
    Args.Holds pre as { s with argvalue := v, curarg := cur } :=
  ⟨h.array, fun hc => h.pre (hp hc), h.nul, hcur⟩

theorem Args.accounts_some {x cs : List Byte} {xs : List (List Byte)} (hs : s.curarg = some cs)
    (h : args = ((x ++ cs) :: xs).reverse ++ as) : s.Accounts args (x :: xs) as := by
  cases cs with
  | nil =>
    rw [List.append_nil] at h
    rw [Args.Accounts, hs]
    exact h
  | cons c cs =>
    rw [Args.Accounts, hs]
    exact ⟨x, xs, rfl, h⟩

theorem flag_cons (hn : 0 ∉ a) (h : ¬ (a.headD 0 ≠ chr '-' ∨ a.tail.headD 0 = 0)) :
    ∃ c cs, a = chr '-' :: c :: cs ∧ 0 ∉ cs ∧ (cs.headD 0 = 0 ↔ cs = []) := by
  obtain ⟨h1, h2⟩ := not_or.mp h
  rcases a with _ | ⟨d, _ | ⟨c, cs⟩⟩
  · exact absurd (show (0 : Byte) ≠ chr '-' by decide) h1
  · exact absurd rfl h2
  · have hd : d = chr '-' := not_not.mp h1
    have h0 : 0 ∉ cs := fun hm => hn (List.mem_cons_of_mem _ (List.mem_cons_of_mem _ hm))
    refine ⟨c, cs, by rw [hd], h0, fun he => ?_, fun he => by rw [he]; rfl⟩
    cases cs with
    | nil => rfl
    | cons e cs => exact absurd (show e = 0 from he) fun he => h0 (he ▸ List.mem_cons_self)

theorem other_iff (hn : 0 ∉ a) :
    a.headD 0 ≠ chr '-' ∨ a.length = 1 ↔ a.headD 0 ≠ chr '-' ∨ a.tail.headD 0 = 0 := by
  rcases a with _ | ⟨d, _ | ⟨c, cs⟩⟩
  · exact iff_of_true (.inl (by decide)) (.inl (by decide))
  · exact iff_of_true (.inr rfl) (.inr rfl)
  · have hc : c ≠ 0 := fun hc => hn (List.mem_cons_of_mem d (hc ▸ List.mem_cons_self))
    exact or_congr_right (iff_of_false (by simp) hc)

theorem argnext_spec (h : s.Holds pre as) (ha : s.Accounts args taken as) :
    ∃ took r s' as', argnext s = some (r, s') ∧ Returns s .next took (.flag r) ∧ s'.Holds pre as' ∧
      s'.Accounts args (took.add taken) as' := by
  rw [argnext]
  rw [Args.Accounts] at ha
  cases hcur : s.curarg with
  | none =>
    rw [hcur] at ha
    exact ⟨.nothing, none, _, as, rfl, .stop, h.set none (fun hn => absurd rfl hn) (by rintro _ ⟨⟩), ha⟩
  | some cs =>
    rw [hcur] at ha
    have hp := h.pre (by rw [hcur]; exact Option.some_ne_none cs)
    cases cs with
    | cons c cs =>
      obtain ⟨x, xs, rfl, ha⟩ := ha
      have hc0 : 0 ∉ cs := fun hm => h.cur _ hcur (List.mem_cons_of_mem c hm)
      refine ⟨.char c, some c, _, as, rfl, .char c, h.set none (fun _ => by rw [hcur]; simp) ?_,
        Args.accounts_some rfl ?_⟩
      · rintro _ ⟨⟩
        exact hc0
      · rw [List.append_assoc]
        exact ha
    | nil =>
      have hstop : Args.Holds pre as { s with argvalue := none, curarg := none } :=
        h.set none (fun hn => absurd rfl hn) (by rintro _ ⟨⟩)
      dsimp only
      cases as with
      | nil =>
        have hc := h.array.1
        rw [List.append_nil, hp] at hc
        exact ⟨.nothing, none, _, [], if_pos hc, .stop, hstop, ha⟩
      | cons a as =>
        obtain ⟨hc, hv⟩ := h.second hp
        rw [if_neg (by omega), hv, Option.bind_eq_bind, Option.bind_some]
        by_cases hother : a.headD 0 ≠ chr '-' ∨ a.tail.headD 0 = 0
        · rw [if_pos hother]
          exact ⟨.nothing, none, _, a :: as, rfl, .stop, hstop, ha⟩
        · obtain ⟨c, cs, rfl, h0, hnil⟩ := flag_cons (h.nul a List.mem_cons_self) hother
          rw [if_neg hother]
          by_cases hd : (chr '-' :: c :: cs).tail.headD 0 = chr '-' ∧
              (chr '-' :: c :: cs).tail.tail.headD 0 = 0
          · rw [if_pos hd]
            obtain rfl : c = chr '-' := hd.1
            obtain rfl := hnil.mp hd.2
            refine ⟨.dashes, none, _, as, rfl, .dashes, h.shift hp none (by rintro _ ⟨⟩), ?_⟩
            rw [Args.Accounts]
            dsimp only
            rw [Took.add, List.reverse_cons, List.append_assoc]
            exact ha
          · rw [if_neg hd]
            refine ⟨.first c, some c, _, as, rfl, .first c, h.shift hp none ?_,
              Args.accounts_some rfl ?_⟩
            · rintro _ ⟨⟩
              exact h0
            · rw [List.reverse_cons, List.append_assoc]
              exact ha

theorem argnextvalue_spec (h : s.Holds pre as) (ha : s.Accounts args taken as) {k : ArgCall}
    (hk : k = .value ∧ s.argvalue = none ∨ k = .nextvalue) :
    ∃ took as', Returns s k took (.str (argnextvalue s).1) ∧ (argnextvalue s).2.Holds pre as' ∧
      (argnextvalue s).2.Accounts args (took.add taken) as' := by
  rw [argnextvalue]
  cases hcur : s.curarg with
  | none => exact ⟨.nothing, as, .null k hk, h, ha⟩
  | some cs =>
    have hp := h.pre (by rw [hcur]; exact Option.some_ne_none cs)
    rw [Args.Accounts, hcur] at ha
    cases cs with
    | cons c cs =>
      obtain ⟨x, xs, rfl, ha⟩ := ha
      refine ⟨.rest (c :: cs), as, .rest k _ hk, h.set _ (fun _ => by rw [hcur]; simp) ?_, ha⟩
      rintro _ ⟨⟩
      exact List.not_mem_nil
    | nil =>
      dsimp only
      cases as with
      | nil =>
        have hc := h.array.1
        rw [List.append_nil, hp] at hc
        rw [if_neg (by omega)]
        exact ⟨.nothing, [], .null k hk, h.set none (fun hn => absurd rfl hn) (by rintro _ ⟨⟩), ha⟩
      | cons a as =>
        obtain ⟨hc, hv⟩ := h.second hp
        rw [if_pos (by omega), hv]
        refine ⟨.whole a, as, .whole k a hk, h.shift hp (some a) h.cur, ?_⟩
        rw [Args.Accounts, Args.shift]
        dsimp only
        rw [hcur, Took.add, List.reverse_cons, List.append_assoc]
        exact ha

theorem ArgCall.run_spec (h : s.Holds pre as) (ha : s.Accounts args taken as) (k : ArgCall) :
    ∃ took r s' as', ArgCall.run s k = some (r, s') ∧ Returns s k took r ∧ s'.Holds pre as' ∧
      s'.Accounts args (took.add taken) as' := by
  cases k with
  | next =>
    obtain ⟨took, r, s', as', hr, hret, h', ha'⟩ := argnext_spec h ha
    exact ⟨took, .flag r, s', as', by rw [ArgCall.run, hr]; rfl, hret, h', ha'⟩
  | value =>
    cases hv : s.argvalue with
    | some v =>
      refine ⟨.nothing, .str (some v), s, as, ?_, .again v hv, h, ha⟩
      rw [ArgCall.run, argvalue, hv]
    | none =>
      obtain ⟨took, as', hret, h', ha'⟩ := argnextvalue_spec h ha (.inl ⟨rfl, hv⟩)
      refine ⟨took, _, _, as', ?_, hret, h', ha'⟩
      rw [ArgCall.run, argvalue, hv]
  | nextvalue =>
    obtain ⟨took, as', hret, h', ha'⟩ := argnextvalue_spec h ha (.inr rfl)
    exact ⟨took, _, _, as', rfl, hret, h', ha'⟩

theorem argnexts_rest {P : Args → Prop} {flags cs : List Byte} {n : Nat}
    (hrest : ∀ t : Args, t.Holds pre as → t.curarg = some [] →
      ∃ s', argnexts n t = some (flags, s') ∧ P s')
    (h : s.Holds pre as) (hcur : s.curarg = some cs) :
    ∃ s', argnexts (cs.length + n) s = some (cs ++ flags, s') ∧ P s' := by
  induction cs generalizing s with
  | nil =>
    rw [List.length_nil, Nat.zero_add]
    exact hrest s h hcur
  | cons c cs ih =>
    have hc0 : 0 ∉ cs := fun hm => h.cur _ hcur (List.mem_cons_of_mem c hm)
    have h' : Args.Holds pre as { s with argvalue := none, curarg := some cs } :=
      h.set none (fun _ => by rw [hcur]; simp) (by rintro _ ⟨⟩; exact hc0)
    obtain ⟨s', hs, hP⟩ := ih h' rfl
    refine ⟨s', ?_, hP⟩
    rw [List.length_cons, Nat.add_right_comm, argnexts, argnext, hcur, Option.bind_eq_bind,
      Option.bind_some]
    dsimp only
    rw [hs]
    rfl

theorem argnexts_spec {n : Nat} (h : s.Holds pre as) (hcur : s.curarg = some [])
    (hn : (options as).1.length < n) : ∃ s', argnexts n s = some ((options as).1, s') ∧
      s'.Array (pre ++ (options as).2) ∧ argnext s' = some (none, s') := by
  induction as generalizing s n with
  | nil =>
    obtain ⟨n, rfl⟩ := Nat.exists_eq_succ_of_ne_zero (Nat.ne_zero_of_lt hn)
    have hp := h.pre (by rw [hcur]; exact Option.some_ne_none _)
    have hc := h.array.1
    rw [List.append_nil, hp] at hc
    refine ⟨{ s with argvalue := none, curarg := none }, ?_, h.array, rfl⟩
    rw [argnexts, argnext, hcur]
    dsimp only
    rw [if_pos hc]
    rfl
  | cons a as ih =>
    obtain ⟨n, rfl⟩ := Nat.exists_eq_succ_of_ne_zero (Nat.ne_zero_of_lt hn)
    have hp := h.pre (by rw [hcur]; exact Option.some_ne_none _)
    obtain ⟨hc, hv⟩ := h.second hp
    rw [argnexts, argnext, hcur]
    dsimp only
    rw [if_neg (by omega), hv, Option.bind_eq_bind, Option.bind_eq_bind, Option.bind_some]
    rw [options] at hn ⊢
    have hlen := other_iff (h.nul a List.mem_cons_self)
    by_cases hother : a.headD 0 ≠ chr '-' ∨ a.tail.headD 0 = 0
    · rw [if_pos hother, if_pos (hlen.mpr hother)]
      exact ⟨_, rfl, h.array, rfl⟩
    · obtain ⟨c, cs, rfl, h0, hnil⟩ := flag_cons (h.nul a List.mem_cons_self) hother
      rw [if_neg (mt hlen.mp hother)] at hn
      rw [if_neg hother, if_neg (mt hlen.mp hother)]
      by_cases hd : (chr '-' :: c :: cs).tail.headD 0 = chr '-' ∧
          (chr '-' :: c :: cs).tail.tail.headD 0 = 0
      · obtain rfl : c = chr '-' := hd.1
        obtain rfl := hnil.mp hd.2
        rw [if_pos hd, if_pos rfl]
        exact ⟨_, rfl, (h.shift hp none (by rintro _ ⟨⟩)).array, rfl⟩
      · have hne : chr '-' :: c :: cs ≠ [chr '-', chr '-'] := fun he => hd (by
          injection he with _ he
          injection he with hc' he
          rw [hc', he]
          exact ⟨rfl, rfl⟩)
        rw [if_neg hne] at hn
        rw [if_neg hd, if_neg hne]
        have h' : Args.Holds pre as { s.shift with argvalue := none, curarg := some cs } :=
          h.shift hp none (by rintro _ ⟨⟩; exact h0)
        rw [List.tail_cons, List.length_append, List.length_cons] at hn
        obtain ⟨m, hm⟩ := Nat.exists_eq_add_of_le (show cs.length ≤ n by omega)
        obtain ⟨s', hs, hP⟩ := argnexts_rest (fun t ht hct => ih ht hct (n := m) (by omega)) h' rfl
        refine ⟨s', ?_, hP⟩
        rw [← hm] at hs
        dsimp only [List.tail_cons, List.headD_cons, Option.bind_some]
        rw [hs]
        rfl

def demoArgs : List (List Byte) := [bytes "sh", bytes "-dx", bytes "--", bytes "f"]

end Jos.User
