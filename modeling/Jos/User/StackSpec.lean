import Jos.User.Spawn

/-! `init_stack`: what the child finds on its stack. -/

namespace Jos.User

open Kern Lib

def leBytes (w : Word) : List Byte :=
  [w.extractLsb' 0 8, w.extractLsb' 8 8, w.extractLsb' 16 8, w.extractLsb' 24 8]

def Vm.Reads (s : Vm) (e : EnvIx) (va : Word) (bs : List Byte) : Prop :=
  ∀ i (h : i < bs.length), s.read e (va + BitVec.ofNat 32 i) = some bs[i]

def OffUtemp (va : Word) (n : Nat) : Prop := ∀ i < n, pgnum (va + BitVec.ofNat 32 i) ≠ pgnum utemp

/-- At `argv` is an array of pointers to the strings `strs`, ended by a null pointer. -/
def IsArgv (s : Vm) (e : EnvIx) : Word → List (List Byte) → Prop
  | argv, [] => s.Reads e argv (leBytes 0) ∧ OffUtemp argv 4
  | argv, str :: strs => ∃ p : Word, p ≠ 0 ∧ (s.Reads e argv (leBytes p) ∧ OffUtemp argv 4) ∧
    (0 ∉ str ∧ s.Reads e p (str ++ [0]) ∧ OffUtemp p (str.length + 1)) ∧ IsArgv s e (argv + 4) strs

def argSize (strs : List (List Byte)) : Nat := (strs.map fun str => str.length + 1).sum

def InStack (va : Word) (n : Nat) : Prop :=
  (ustacktop - pgsize).toNat ≤ va.toNat ∧ va.toNat + n ≤ ustacktop.toNat

def Decodes (s : Vm) (c : EnvIx) (esp : Word) (strs : List (List Byte)) : Prop :=
  ∃ (argv : Word) (ptrs : List Word),
    s.Reads c esp (leBytes (BitVec.ofNat 32 strs.length) ++ leBytes argv) ∧ InStack esp 8 ∧
    s.Reads c argv (ptrs.flatMap leBytes ++ leBytes 0) ∧ InStack argv (4 * (strs.length + 1)) ∧
    List.Forall₂ (fun p str => s.Reads c p (str ++ [0]) ∧ InStack p (str.length + 1)) ptrs strs

def Holds (m : Nat → Byte) (off : Nat) (bs : List Byte) : Prop :=
  ∀ i (h : i < bs.length), m (off + i) = bs[i]

section bytes

variable {s : Vm} {e : EnvIx} {x : Machine} {va w : Word} {D : Prop} {m m' : Nat → Byte}
  {off : Nat} {bs bs' : List Byte}

theorem holds_append : Holds m off (bs ++ bs') ↔ Holds m off bs ∧ Holds m (off + bs.length) bs' := by
  constructor
  · intro h
    refine ⟨fun i hi => ?_, fun i hi => ?_⟩
    · rw [h i (by rw [List.length_append]; omega), List.getElem_append_left hi]
    · rw [Nat.add_assoc, h (bs.length + i) (by rw [List.length_append]; omega),
        List.getElem_append_right (by omega)]
      simp only [Nat.add_sub_cancel_left]
  · rintro ⟨h, h'⟩ i hi
    rw [List.length_append] at hi
    by_cases hlt : i < bs.length
    · rw [h i hlt, List.getElem_append_left hlt]
    · rw [List.getElem_append_right (by omega), ← h' (i - bs.length) (by omega)]
      congr 1
      omega

theorem Holds.congr (h : Holds m off bs)
    (heq : ∀ i, off ≤ i → i < off + bs.length → m' i = m i) : Holds m' off bs := by
  intro i hi
  rw [heq _ (by omega) (by omega), h i hi]

theorem holds_cons {b : Byte} : Holds m off (b :: bs) ↔ m off = b ∧ Holds m (off + 1) bs := by
  rw [← List.singleton_append, holds_append]
  refine and_congr_left fun _ => ⟨fun h => h 0 (by simp), fun h i hi => ?_⟩
  obtain rfl : i = 0 := by simpa using hi
  exact h

theorem Vm.Reads.tail {b : Byte} (h : s.Reads e va (b :: bs)) : s.Reads e (va + 1) bs := by
  intro i hi
  have := h (i + 1) (by rw [List.length_cons]; omega)
  rw [List.getElem_cons_succ] at this
  rw [← this, BitVec.add_assoc, BitVec.add_comm 1, BitVec.ofNat_add]
  rfl

theorem Vm.Reads.head {b : Byte} (h : s.Reads e va (b :: bs)) : s.read e va = some b := by
  have := h 0 (by rw [List.length_cons]; omega)
  rwa [BitVec.add_zero, List.getElem_cons_zero] at this

theorem OffUtemp.tail {n : Nat} (h : OffUtemp va (n + 1)) : OffUtemp (va + 1) n := by
  intro i hi
  have := h (i + 1) (by omega)
  rwa [BitVec.ofNat_add, BitVec.add_comm (BitVec.ofNat 32 i), ← BitVec.add_assoc] at this

namespace Act

theorem wp_read {b : Byte} {Q : Byte → Machine → Prop} (h : x.vm.read e va = some b)
    (hQ : Q b x) : Wp D (loadByte e va) x Q := by
  refine .bind (.get ?_)
  rw [h]
  exact hQ

theorem wp_loadWord_reads {Q : Word → Machine → Prop} (h : x.vm.Reads e va (leBytes w))
    (hQ : Q w x) : Wp D (loadWord e va) x Q := by
  refine .bind (wp_read h.head ?_)
  refine .bind (wp_read h.tail.head ?_)
  refine .bind (wp_read (h 2 (show 2 < 4 by decide)) ?_)
  refine .bind (wp_read (h 3 (show 3 < 4 by decide)) (.pure ?_))
  have hw := join_bytes w
  rw [← hw] at hQ
  exact hQ

end Act

end bytes

def argPtrs : Nat → List (List Byte) → List Word
  | _, [] => []
  | so, str :: strs =>
    utemp2ustack (utemp + BitVec.ofNat 32 so) :: argPtrs (so + (str.length + 1)) strs

theorem argSize_cons (str : List Byte) (strs : List (List Byte)) :
    argSize (str :: strs) = str.length + 1 + argSize strs := by
  simp [argSize]

theorem argPtrs_length (so : Nat) (strs : List (List Byte)) :
    (argPtrs so strs).length = strs.length := by
  induction strs generalizing so with
  | nil => rfl
  | cons str strs ih => rw [argPtrs, List.length_cons, ih, List.length_cons]

theorem flatMap_leBytes_length (ws : List Word) : (ws.flatMap leBytes).length = 4 * ws.length := by
  induction ws with
  | nil => rfl
  | cons w ws ih =>
    rw [List.flatMap_cons, List.length_append, ih, List.length_cons, show (leBytes w).length = 4 from rfl]
    omega

structure Wrote (p : Nat) (K : Nat → Prop) (y z : Machine) : Prop where
  pte : z.vm.pte = y.vm.pte
  life : z.vm.life = y.vm.life
  mem_ne : ∀ q, q ≠ p → z.vm.mem q = y.vm.mem q
  mem : ∀ i, ¬ K i → z.vm.mem p i = y.vm.mem p i
  supply : z.supply = y.supply
  replies : z.replies = y.replies

structure Scratch (e : EnvIx) (s : Vm) (p : Nat) (s' : Vm) : Prop where
  free : s.Unmapped p
  here : s'.pte e (pgnum utemp) = some (p, stackPerm)
  pte : ∀ pn, pn ≠ pgnum utemp → s'.pte e pn = s.pte e pn
  mem : ∀ q, q ≠ p → s'.mem q = s.mem q

section scratch

variable {e : EnvIx} {s s' : Vm} {x y z : Machine} {p off : Nat} {K K' : Nat → Prop} {va w : Word}
  {bs : List Byte} {D : Prop}

theorem Wrote.refl : Wrote p K y y := ⟨rfl, rfl, fun _ _ => rfl, fun _ _ => rfl, rfl, rfl⟩

theorem Wrote.trans (h : Wrote p K x y) (h' : Wrote p K' y z) :
    Wrote p (fun i => K i ∨ K' i) x z where
  pte := h'.pte.trans h.pte
  life := h'.life.trans h.life
  mem_ne q hq := (h'.mem_ne q hq).trans (h.mem_ne q hq)
  mem i hi := (h'.mem i fun hk => hi (.inr hk)).trans (h.mem i fun hk => hi (.inl hk))
  supply := h'.supply.trans h.supply
  replies := h'.replies.trans h.replies

theorem Wrote.mono (h : Wrote p K y z) (hK : ∀ i, K i → K' i) : Wrote p K' y z :=
  { h with mem := fun i hi => h.mem i fun hk => hi (hK i hk) }

theorem Wrote.holds (h : Wrote p K y z) (hh : Holds (y.vm.mem p) off bs)
    (hK : ∀ i, off ≤ i → i < off + bs.length → ¬ K i) : Holds (z.vm.mem p) off bs :=
  hh.congr fun i hi hi' => h.mem i (hK i hi hi')

theorem Scratch.wrote (h : Scratch e s p y.vm) (hw : Wrote p K y z) : Scratch e s p z.vm where
  free := h.free
  here := by rw [hw.pte, h.here]
  pte pn hpn := by rw [hw.pte, h.pte pn hpn]
  mem q hq := (hw.mem_ne q hq).trans (h.mem q hq)

theorem Scratch.read (h : Scratch e s p s') (hva : pgnum va ≠ pgnum utemp) {b : Byte}
    (hr : s.read e va = some b) : s'.read e va = some b := by
  rw [Vm.read, Option.map_eq_some_iff] at hr
  obtain ⟨⟨q, f⟩, hq, hb⟩ := hr
  have hne : q ≠ p := h.free.ne hq
  rw [Vm.read_of ((h.pte _ hva).trans hq), h.mem q hne]
  exact congrArg some hb

theorem Scratch.reads (h : Scratch e s p s') (hr : s.Reads e va bs)
    (hva : OffUtemp va bs.length) : s'.Reads e va bs :=
  fun i hi => h.read (hva i hi) (hr i hi)

theorem utemp_place (h : off < 4096) : pgnum (utemp + BitVec.ofNat 32 off) = pgnum utemp ∧
    pgoff (utemp + BitVec.ofNat 32 off) = off := by
  have h0 : pgoff utemp = 0 := by decide
  obtain ⟨h1, h2⟩ := @pgnum_add_of_lt utemp off (by omega)
  exact ⟨h1, by omega⟩

theorem lt_addresses {n : Nat} (h : n < 2 ^ 23) : n < addresses :=
  h.trans_le (Nat.pow_le_pow_right (by decide) (by decide))

theorem slot_zero (a : Word) : a + 4 * 0 = a := by bv_omega

theorem slot_succ (a i : Word) : a + 4 * (i + 1) = a + 4 * i + 4 := by bv_omega

theorem utemp_sub {k : Nat} (h : k ≤ off) :
    utemp + BitVec.ofNat 32 off - BitVec.ofNat 32 k = utemp + BitVec.ofNat 32 (off - k) := by
  obtain ⟨n, rfl⟩ := Nat.exists_eq_add_of_le h
  rw [Nat.add_sub_cancel_left, Nat.add_comm k n, BitVec.ofNat_add,
    ← BitVec.add_assoc, BitVec.add_sub_cancel]

theorem store_mem {b : Byte} {i : Nat} :
    (s.store p off b).mem p i = if i = off then b else s.mem p i := by
  rw [Vm.store, Vm.fill_self, Function.update_apply]

namespace Act

theorem wp_storeByte_scratch {b : Byte} {Q : PUnit → Machine → Prop} (h : Scratch e s p y.vm)
    (hoff : off < 4096)
    (hQ : ∀ z, Wrote p (· = off) y z → z.vm.mem p off = b → Q ⟨⟩ z) :
    Wp D (storeByte e (utemp + BitVec.ofNat 32 off) b) y Q := by
  obtain ⟨hpg, hof⟩ := utemp_place hoff
  refine wp_storeByte (hpg ▸ h.here) (by decide) (hQ _ ?_ ?_)
  · refine ⟨rfl, rfl, fun q hq => Vm.fill_of_ne hq, fun i hi => ?_, rfl, rfl⟩
    rw [hof, store_mem, if_neg hi]
  · rw [hof, store_mem, if_pos rfl]

theorem wp_storeWord_scratch {Q : PUnit → Machine → Prop} (h : Scratch e s p y.vm)
    (hoff : off + 4 ≤ 4096)
    (hQ : ∀ z, Wrote p (fun i => off ≤ i ∧ i < off + 4) y z → Holds (z.vm.mem p) off (leBytes w) →
      Q ⟨⟩ z) :
    Wp D (storeWord e (utemp + BitVec.ofNat 32 off) w) y Q := by
  obtain ⟨hpg, hof⟩ := @utemp_place off (by omega)
  refine wp_storeWord (hpg ▸ h.here) (by decide) (by omega) (hQ _ ?_ ?_)
  · refine ⟨rfl, rfl, fun q hq => mem_setWord_of_ne hq, fun i hi => ?_, rfl, rfl⟩
    rw [hof, mem_setWord_of_lt (by omega)]
  · rw [hof]
    simp only [leBytes, holds_cons, Vm.setWord, store_mem]
    simp [Holds]

theorem wp_strlen {str : List Byte} {fuel : Nat} {Q : Word → Machine → Prop} (h0 : 0 ∉ str)
    (hr : x.vm.Reads e va (str ++ [0])) (hfuel : str.length < fuel)
    (hQ : Q (BitVec.ofNat 32 str.length) x) : Wp D (strlen e fuel va) x Q := by
  induction str generalizing va fuel Q with
  | nil =>
    obtain ⟨n, rfl⟩ := Nat.exists_eq_add_one_of_ne_zero (Nat.ne_zero_of_lt hfuel)
    refine .bind (wp_read hr.head ?_)
    rw [if_pos rfl]
    exact hQ
  | cons b str ih =>
    obtain ⟨n, rfl⟩ := Nat.exists_eq_add_one_of_ne_zero (Nat.ne_zero_of_lt hfuel)
    rw [List.mem_cons, not_or] at h0
    refine .bind (wp_read hr.head ?_)
    rw [if_neg (Ne.symm h0.1)]
    refine .bind (ih h0.2 hr.tail (by simpa using hfuel) (.pure ?_))
    rwa [List.length_cons, BitVec.ofNat_add] at hQ

theorem wp_strcpy {str : List Byte} {fuel : Nat} {src : Word} {Q : PUnit → Machine → Prop}
    (h : Scratch e s p y.vm) (h0 : 0 ∉ str) (hr : s.Reads e src (str ++ [0]))
    (hsrc : OffUtemp src (str.length + 1)) (hfuel : str.length < fuel)
    (hoff : off + str.length + 1 ≤ 4096)
    (hQ : ∀ z, Wrote p (fun i => off ≤ i ∧ i < off + str.length + 1) y z →
      Holds (z.vm.mem p) off (str ++ [0]) → Q ⟨⟩ z) :
    Wp D (strcpy e fuel (utemp + BitVec.ofNat 32 off) src) y Q := by
  induction str generalizing src off fuel y Q with
  | nil =>
    obtain ⟨n, rfl⟩ := Nat.exists_eq_add_one_of_ne_zero (Nat.ne_zero_of_lt hfuel)
    refine .bind (wp_read (h.read ?_ hr.head) ?_)
    · have := hsrc 0 (by decide)
      rwa [BitVec.add_zero] at this
    refine .bind (wp_storeByte_scratch h (by omega) fun z hz hb => ?_)
    rw [if_pos rfl]
    refine .pure (hQ z (hz.mono fun i hi => ?_) (holds_cons.2 ⟨hb, fun i hi => ?_⟩))
    · simp only [List.length_nil]
      omega
    · exact absurd hi (Nat.not_lt_zero i)
  | cons b str ih =>
    obtain ⟨n, rfl⟩ := Nat.exists_eq_add_one_of_ne_zero (Nat.ne_zero_of_lt hfuel)
    rw [List.mem_cons, not_or] at h0
    rw [List.length_cons] at hsrc hfuel hoff hQ
    refine .bind (wp_read (h.read ?_ hr.head) ?_)
    · have := hsrc 0 (by omega)
      rwa [BitVec.add_zero] at this
    refine .bind (wp_storeByte_scratch h (by omega) fun z hz hb => ?_)
    rw [if_neg (Ne.symm h0.1), BitVec.add_assoc,
      show BitVec.ofNat 32 off + 1 = BitVec.ofNat 32 (off + 1) by rw [BitVec.ofNat_add]; rfl]
    refine ih (h.wrote hz) h0.2 hr.tail hsrc.tail (by omega) (by omega) fun t ht hh => ?_
    refine hQ t ((hz.trans ht).mono fun i hi => by omega) (holds_cons.2 ⟨?_, hh⟩)
    rw [ht.mem off (by omega), hb]

theorem wp_countArgs {argv argc size : Word} {strs : List (List Byte)} {fuel : Nat}
    {Q : Word × Word → Machine → Prop} (ha : IsArgv x.vm e (argv + 4 * argc) strs)
    (hsize : argSize strs < addresses) (hfuel : strs.length < fuel)
    (hQ : Q (argc + BitVec.ofNat 32 strs.length, size + BitVec.ofNat 32 (argSize strs)) x) :
    Wp D (countArgs e argv fuel argc size) x Q := by
  induction strs generalizing argc size fuel with
  | nil =>
    obtain ⟨n, rfl⟩ := Nat.exists_eq_add_one_of_ne_zero (Nat.ne_zero_of_lt hfuel)
    refine .bind (wp_loadWord_reads ha.1 ?_)
    rw [if_pos rfl]
    rw [show argSize [] = 0 from rfl, List.length_nil, BitVec.add_zero, BitVec.add_zero] at hQ
    exact hQ
  | cons str strs ih =>
    obtain ⟨n, rfl⟩ := Nat.exists_eq_add_one_of_ne_zero (Nat.ne_zero_of_lt hfuel)
    obtain ⟨p, hp, ⟨hw, -⟩, ⟨h0, hstr, -⟩, hrest⟩ := ha
    have hsum := argSize_cons str strs
    refine .bind (wp_loadWord_reads hw ?_)
    rw [if_neg hp]
    refine .bind (wp_strlen h0 hstr (by omega) ?_)
    refine ih ?_ (by omega) (by simpa using hfuel) ?_
    · rwa [slot_succ]
    · rw [List.length_cons, BitVec.ofNat_add, hsum, BitVec.ofNat_add, BitVec.ofNat_add] at hQ
      rw [show argc + 1 + BitVec.ofNat 32 strs.length = argc + (BitVec.ofNat 32 strs.length + 1) by ac_rfl,
        show size + (BitVec.ofNat 32 str.length + 1) + BitVec.ofNat 32 (argSize strs) =
          size + (BitVec.ofNat 32 str.length + 1 + BitVec.ofNat 32 (argSize strs)) by ac_rfl]
      exact hQ

theorem wp_storeArgs {argv argvStore i : Word} {strs : List (List Byte)} {a so : Nat}
    {Q : Word → Machine → Prop} (h : Scratch e s p y.vm) (ha : IsArgv s e (argv + 4 * i) strs)
    (hstore : argvStore + 4 * i = utemp + BitVec.ofNat 32 a) (hso : so + argSize strs = 4096)
    (hle : a + 4 * strs.length ≤ so)
    (hQ : ∀ z, Wrote p (fun j => (a ≤ j ∧ j < a + 4 * strs.length) ∨ so ≤ j) y z →
      Holds (z.vm.mem p) a ((argPtrs so strs).flatMap leBytes) →
      Holds (z.vm.mem p) so (strs.flatMap fun str => str ++ [0]) →
      Q (utemp + BitVec.ofNat 32 4096) z) :
    Wp D (storeArgs e argv argvStore strs.length i (utemp + BitVec.ofNat 32 so)) y Q := by
  induction strs generalizing i a so y Q with
  | nil =>
    obtain rfl : so = 4096 := hso
    refine .pure (hQ y .refl ?_ ?_) <;> exact fun j hj => absurd hj (Nat.not_lt_zero j)
  | cons str strs ih =>
    obtain ⟨src, -, ⟨hw, hoff⟩, ⟨h0, hstr, hsrc⟩, hrest⟩ := ha
    rw [argSize_cons] at hso
    rw [List.length_cons] at hle hQ ⊢
    rw [storeArgs, hstore]
    refine .bind (wp_storeWord_scratch h (by omega) fun y₁ hy₁ hptr => ?_)
    have h₁ := h.wrote hy₁
    refine .bind (wp_loadWord_reads (h₁.reads hw hoff) ?_)
    refine .bind (wp_strcpy h₁ h0 hstr hsrc (lt_addresses (by omega)) (by omega) fun y₂ hy₂ hcopy => ?_)
    have h₂ := h₁.wrote hy₂
    refine .bind (wp_loadWord_reads (h₂.reads hw hoff) ?_)
    have hlen : OffUtemp src (str ++ [0]).length := by
      rwa [List.length_append, List.length_singleton]
    refine .bind (wp_strlen h0 (h₂.reads hstr hlen) (lt_addresses (by omega)) ?_)
    have hnext : utemp + BitVec.ofNat 32 so + (BitVec.ofNat 32 str.length + 1) =
        utemp + BitVec.ofNat 32 (so + (str.length + 1)) := by
      rw [BitVec.ofNat_add, BitVec.ofNat_add, BitVec.add_assoc]
      rfl
    rw [hnext]
    refine ih (a := a + 4) h₂ ?_ ?_ (by omega) (by omega) fun z hz hptrs hstrs => ?_
    · rwa [slot_succ]
    · rw [slot_succ, hstore, BitVec.ofNat_add, BitVec.add_assoc]
      rfl
    · refine hQ z (((hy₁.trans hy₂).trans hz).mono fun j hj => by omega) ?_ ?_
      · rw [argPtrs, List.flatMap_cons, holds_append]
        refine ⟨(hy₂.trans hz).holds hptr fun j hj hj' => ?_, hptrs⟩
        rw [show (leBytes _).length = 4 from rfl] at hj'
        omega
      · rw [List.flatMap_cons, holds_append]
        refine ⟨hz.holds hcopy fun j hj hj' => ?_, ?_⟩
        · rw [List.length_append, List.length_singleton] at hj'
          omega
        · rwa [List.length_append, List.length_singleton]

theorem wp_fillStack {argv : Word} {strs : List (List Byte)} {ao so : Nat}
    {Q : PUnit → Machine → Prop} (h : Scratch e s p y.vm) (ha : IsArgv s e argv strs)
    (hso : so + argSize strs = 4096) (hle : ao + 4 * (strs.length + 1) ≤ so) (hao : 8 ≤ ao)
    (hQ : ∀ z, Wrote p (fun _ => True) y z →
      Holds (z.vm.mem p) (ao - 8) (leBytes (BitVec.ofNat 32 strs.length) ++
        leBytes (utemp2ustack (utemp + BitVec.ofNat 32 ao))) →
      Holds (z.vm.mem p) ao ((argPtrs so strs).flatMap leBytes ++ leBytes 0) →
      Holds (z.vm.mem p) so (strs.flatMap fun str => str ++ [0]) → Q ⟨⟩ z) :
    Wp D (fillStack e argv (BitVec.ofNat 32 strs.length) (utemp + BitVec.ofNat 32 ao)
      (utemp + BitVec.ofNat 32 so)) y Q := by
  have hargc : (BitVec.ofNat 32 strs.length).toNat = strs.length := by
    rw [BitVec.toNat_ofNat]
    omega
  have hnull : utemp + BitVec.ofNat 32 ao + 4 * BitVec.ofNat 32 strs.length =
      utemp + BitVec.ofNat 32 (ao + 4 * strs.length) := by
    rw [BitVec.ofNat_add, BitVec.ofNat_mul, BitVec.add_assoc]
    rfl
  have hfour : utemp + BitVec.ofNat 32 ao - 4 = utemp + BitVec.ofNat 32 (ao - 4) :=
    utemp_sub (k := 4) (by omega)
  have height : utemp + BitVec.ofNat 32 ao - 8 = utemp + BitVec.ofNat 32 (ao - 8) :=
    utemp_sub (k := 8) hao
  refine .bind ?_
  rw [hargc]
  refine wp_storeArgs h (by rwa [slot_zero]) (slot_zero _) hso (by omega) fun y₁ hy₁ hptrs hstrs => ?_
  have h₁ := h.wrote hy₁
  rw [hnull, hfour, height]
  refine .bind (wp_storeWord_scratch h₁ (by omega) fun y₂ hy₂ hzero => ?_)
  refine .bind (.require (fun _ => ?_) fun hc => absurd (by decide) hc)
  have h₂ := h₁.wrote hy₂
  refine .bind (wp_storeWord_scratch h₂ (by omega) fun y₃ hy₃ hargv => ?_)
  have h₃ := h₂.wrote hy₃
  refine wp_storeWord_scratch h₃ (by omega) fun z hz' hcount => ?_
  have hlen : ((argPtrs so strs).flatMap leBytes).length = 4 * strs.length := by
    rw [flatMap_leBytes_length, argPtrs_length]
  have h4 : ∀ w, (leBytes w).length = 4 := fun _ => rfl
  refine hQ z (((hy₁.trans hy₂).trans (hy₃.trans hz')).mono fun _ _ => trivial) ?_ ?_ ?_
  · rw [holds_append, h4]
    refine ⟨hcount, ?_⟩
    rw [show ao - 8 + 4 = ao - 4 by omega]
    refine hz'.holds hargv fun j hj hj' => ?_
    omega
  · rw [holds_append, hlen]
    constructor
    · refine (hy₂.trans (hy₃.trans hz')).holds hptrs fun j hj hj' => ?_
      rw [hlen] at hj'
      omega
    · refine (hy₃.trans hz').holds hzero fun j hj hj' => ?_
      omega
  · refine (hy₂.trans (hy₃.trans hz')).holds hstrs fun j hj hj' => ?_
    omega

end Act

end scratch

section decode

variable {e c : EnvIx} {s : Vm} {x : Machine} {p off ao so : Nat} {f : Word} {bs : List Byte}
  {strs : List (List Byte)} {argv child : Word}

theorem toNat_stackPage (h : off ≤ 4096) :
    (ustacktop - pgsize + BitVec.ofNat 32 off).toNat = 0xEEBFD000 + off := by
  rw [BitVec.toNat_add, BitVec.toNat_ofNat, show (ustacktop - pgsize).toNat = 0xEEBFD000 by decide]
  omega

theorem utemp2ustack_add (off : Nat) :
    utemp2ustack (utemp + BitVec.ofNat 32 off) = ustacktop - pgsize + BitVec.ofNat 32 off := by
  rw [utemp2ustack]
  bv_omega

theorem inStack_of_le {n : Nat} (h : off + n ≤ 4096) :
    InStack (ustacktop - pgsize + BitVec.ofNat 32 off) n := by
  rw [InStack, toNat_stackPage (by omega), show (ustacktop - pgsize).toNat = 0xEEBFD000 by decide,
    show ustacktop.toNat = 0xEEBFE000 by decide]
  omega

theorem Holds.reads (h : Holds (s.mem p) off bs)
    (hp : s.pte c (pgnum (ustacktop - pgsize)) = some (p, f)) (hle : off + bs.length ≤ 4096) :
    s.Reads c (ustacktop - pgsize + BitVec.ofNat 32 off) bs := by
  intro i hi
  have h0 : pgoff (ustacktop - pgsize) = 0 := by decide
  obtain ⟨h1, h2⟩ := pgnum_add_of_lt (k := off + i)
    (show pgoff (ustacktop - pgsize) + (off + i) < 4096 by omega)
  rw [BitVec.add_assoc, ← BitVec.ofNat_add, Vm.read_of (h1 ▸ hp), h2, h0, Nat.zero_add, h i hi]

theorem argPtrs_decode (hp : s.pte c (pgnum (ustacktop - pgsize)) = some (p, f))
    (h : Holds (s.mem p) so (strs.flatMap fun str => str ++ [0])) (hso : so + argSize strs = 4096) :
    List.Forall₂ (fun q str => s.Reads c q (str ++ [0]) ∧ InStack q (str.length + 1))
      (argPtrs so strs) strs := by
  induction strs generalizing so with
  | nil => exact .nil
  | cons str strs ih =>
    rw [argSize_cons] at hso
    rw [List.flatMap_cons, holds_append, List.length_append, List.length_singleton] at h
    rw [argPtrs, utemp2ustack_add]
    refine .cons ⟨h.1.reads hp ?_, inStack_of_le (by omega)⟩ (ih h.2 (by omega))
    rw [List.length_append, List.length_singleton]
    omega

theorem decodes (hp : s.pte c (pgnum (ustacktop - pgsize)) = some (p, f))
    (htop : Holds (s.mem p) (ao - 8) (leBytes (BitVec.ofNat 32 strs.length) ++
      leBytes (utemp2ustack (utemp + BitVec.ofNat 32 ao))))
    (hptrs : Holds (s.mem p) ao ((argPtrs so strs).flatMap leBytes ++ leBytes 0))
    (hstrs : Holds (s.mem p) so (strs.flatMap fun str => str ++ [0]))
    (hso : so + argSize strs = 4096) (hle : ao + 4 * (strs.length + 1) ≤ so) (hao : 8 ≤ ao) :
    Decodes s c (utemp2ustack (utemp + BitVec.ofNat 32 ao - 8)) strs := by
  have hesp : utemp + BitVec.ofNat 32 ao - 8 = utemp + BitVec.ofNat 32 (ao - 8) :=
    utemp_sub (k := 8) hao
  have h4 : ∀ w, (leBytes w).length = 4 := fun _ => rfl
  rw [hesp, utemp2ustack_add]
  rw [utemp2ustack_add] at htop
  refine ⟨ustacktop - pgsize + BitVec.ofNat 32 ao, argPtrs so strs, htop.reads hp ?_,
    inStack_of_le (by omega), hptrs.reads hp ?_, inStack_of_le (by omega),
    argPtrs_decode hp hstrs hso⟩
  · rw [List.length_append, h4, h4]
    omega
  · rw [List.length_append, flatMap_leBytes_length, argPtrs_length, h4]
    omega

def FitsPage (strs : List (List Byte)) : Prop := argSize strs + 4 * (strs.length + 1) + 8 ≤ 4096

instance (strs : List (List Byte)) : Decidable (FitsPage strs) :=
  inferInstanceAs (Decidable (_ ≤ _))

theorem toNat_argvStore (htotal : argSize strs + 4 * (strs.length + 1) < utemp.toNat) :
    (roundDown (utemp + pgsize - BitVec.ofNat 32 (argSize strs)) 4 -
      4 * (BitVec.ofNat 32 strs.length + 1)).toNat =
        (0x401000 - argSize strs) / 4 * 4 - 4 * (strs.length + 1) := by
  have hutemp : utemp.toNat = 0x400000 := by decide
  rw [hutemp] at htotal
  have h1 : (utemp + pgsize - BitVec.ofNat 32 (argSize strs)).toNat = 0x401000 - argSize strs := by
    rw [BitVec.toNat_sub_of_le, BitVec.toNat_ofNat, show (utemp + pgsize).toNat = 0x401000 by decide]
    · omega
    · rw [BitVec.le_def, BitVec.toNat_ofNat, show (utemp + pgsize).toNat = 0x401000 by decide]
      omega
  have h2 : (4 * (BitVec.ofNat 32 strs.length + 1) : Word).toNat = 4 * (strs.length + 1) := by
    rw [BitVec.toNat_mul, BitVec.toNat_add, BitVec.toNat_ofNat]
    change 4 * ((strs.length % 2 ^ 32 + 1) % 2 ^ 32) % 2 ^ 32 = _
    omega
  have h3 : (roundDown (utemp + pgsize - BitVec.ofNat 32 (argSize strs)) 4).toNat =
      (0x401000 - argSize strs) / 4 * 4 := by
    rw [roundDown, BitVec.toNat_sub_of_le, BitVec.toNat_umod, h1]
    · change _ - _ % 4 = _
      omega
    · rw [BitVec.le_def, BitVec.toNat_umod]
      exact Nat.mod_le _ _
  rw [BitVec.toNat_sub_of_le, h3, h2]
  rw [BitVec.le_def, h3, h2]
  omega

theorem stack_layout (hfit : FitsPage strs) :
    utemp + pgsize - BitVec.ofNat 32 (argSize strs) =
        utemp + BitVec.ofNat 32 (4096 - argSize strs) ∧
      roundDown (utemp + pgsize - BitVec.ofNat 32 (argSize strs)) 4 -
          4 * (BitVec.ofNat 32 strs.length + 1) =
        utemp + BitVec.ofNat 32 ((4096 - argSize strs) / 4 * 4 - 4 * (strs.length + 1)) := by
  rw [FitsPage] at hfit
  have hutemp : utemp.toNat = 0x400000 := by decide
  have hstore := @toNat_argvStore strs (by omega)
  constructor
  · rw [show utemp + pgsize = utemp + BitVec.ofNat 32 4096 from rfl]
    exact utemp_sub (by omega)
  · apply BitVec.eq_of_toNat_eq
    rw [hstore, BitVec.toNat_add, BitVec.toNat_ofNat, hutemp]
    omega

theorem argvStore_lt_iff (htotal : argSize strs + 4 * (strs.length + 1) < utemp.toNat) :
    roundDown (utemp + pgsize - BitVec.ofNat 32 (argSize strs)) 4 -
      4 * (BitVec.ofNat 32 strs.length + 1) - 8 < utemp ↔ ¬ FitsPage strs := by
  have hutemp : utemp.toNat = 0x400000 := by decide
  have hstore := toNat_argvStore htotal
  rw [hutemp] at htotal
  have h8 : (roundDown (utemp + pgsize - BitVec.ofNat 32 (argSize strs)) 4 -
      4 * (BitVec.ofNat 32 strs.length + 1) - 8 : Word).toNat =
        (0x401000 - argSize strs) / 4 * 4 - 4 * (strs.length + 1) - 8 := by
    rw [BitVec.toNat_sub_of_le, hstore]
    · rfl
    · rw [BitVec.le_def, hstore]
      change 8 ≤ _
      omega
  rw [BitVec.lt_def, h8, hutemp, FitsPage]
  omega

theorem stackPerm_ok : permOk stackPerm := ⟨by decide, by decide, by decide⟩

theorem Scratch.alloc (hp : x.vm.Unmapped p) :
    Scratch e x.vm p ((x.vm.fill p fun _ => 0).mapAt e (pgnum utemp) (some (p, stackPerm))) where
  free := hp
  here := Vm.mapAt_self
  pte _ hpn := Vm.mapAt_ne (.inr hpn)
  mem _ hq := Vm.fill_of_ne hq

namespace Act

theorem wp_giveStack {esp : Word} {y : Machine} {q : Nat} {more : List (Option Nat)}
    {Q : Except Word Word → Machine → Prop} (h : Scratch e s p y.vm)
    (hsup : y.supply = some q :: more)
    (hQ : ∀ z, z.vm.pte (envx child) (pgnum (ustacktop - pgsize)) = some (p, stackPerm) →
      z.vm.mem = y.vm.mem → Q (.ok esp) z) :
    Wp False (giveStack e child esp) y Q := by
  refine .bind (wp_sysPageMap (by decide) (by decide) h.here stackPerm_ok (fun h => h)
    (fun hc => ?_) fun _ => ?_)
  · rw [hsup] at hc
    exact absurd rfl (hc q)
  · rw [if_neg (by decide)]
    refine .bind (wp_sysPageUnmap (by decide) ?_)
    rw [if_neg (by decide)]
    refine .pure (hQ _ ?_ rfl)
    dsimp only
    rw [Vm.mapAt_ne (.inr (by decide)), Vm.mapAt_self]

end Act

/-- The arguments are refused if they do not fit in a page, and otherwise the child finds
them. -/
theorem initStack_decodes {q : Nat} {more : List (Option Nat)} (hx : x.Fresh)
    (hsup : x.supply = some p :: some q :: more) (ha : IsArgv x.vm e argv strs)
    (htotal : argSize strs + 4 * (strs.length + 1) < utemp.toNat) :
    ∃ r y, (Act.initStack e child argv).run x = some (r, y) ∧
      (r = .error (-eNoMem) ↔ ¬ FitsPage strs) ∧
      (FitsPage strs → ∃ esp, r = .ok esp ∧ Decodes y.vm (envx child) esp strs) := by
  have hbound := htotal
  rw [show utemp.toNat = 0x400000 by decide] at hbound
  refine Wp.exists_run ?_
  refine .bind (@Act.wp_countArgs e x _ argv _ _ strs _ _ (by rwa [slot_zero]) (lt_addresses (by omega))
    (lt_addresses (by omega)) ?_)
  dsimp only
  rw [show ∀ a : Word, 0 + a = a from BitVec.zero_add, show ∀ a : Word, 0 + a = a from BitVec.zero_add]
  have hcase : FitsPage strs ∨ ¬ FitsPage strs := Decidable.em _
  cases hcase with
  | inl hfit =>
    rw [if_neg fun hc => (argvStore_lt_iff htotal).1 hc hfit]
    obtain ⟨hso, hao⟩ := stack_layout hfit
    have hle := hfit
    rw [FitsPage] at hle
    rw [hao, hso]
    refine .bind (Act.wp_sysPageAlloc (by decide) stackPerm_ok (fun hc => ?_) fun p' hp' => ?_)
    · rw [hsup] at hc
      exact absurd rfl (hc p)
    have hun : x.vm.Unmapped p' := hx.unmapped p' (List.mem_of_head? hp')
    rw [if_neg (by decide)]
    refine .bind (Act.wp_fillStack (Scratch.alloc hun) ha (by omega) (by omega) (by omega)
      fun z hz htop hptrs hstrs => ?_)
    refine @Act.wp_giveStack e _ _ _ _ _ q more _ ((Scratch.alloc hun).wrote hz) ?_
      fun t ht hmem => ?_
    · rw [hz.supply, hsup]
      rfl
    · rw [← hmem] at htop hptrs hstrs
      refine ⟨⟨nofun, fun hc => absurd hfit hc⟩, fun _ => ⟨_, rfl, ?_⟩⟩
      exact decodes ht htop hptrs hstrs (by omega) (by omega) (by omega)
  | inr hfit =>
    rw [if_pos ((argvStore_lt_iff htotal).2 hfit)]
    exact .pure ⟨⟨fun _ => hfit, fun _ => rfl⟩, fun hc => absurd hc hfit⟩

end decode

instance (s : Vm) (e : EnvIx) (va : Word) (bs : List Byte) : Decidable (s.Reads e va bs) :=
  inferInstanceAs (Decidable (∀ i (h : i < bs.length), _ = some bs[i]))

instance (va : Word) (n : Nat) : Decidable (OffUtemp va n) :=
  inferInstanceAs (Decidable (∀ i < n, _ ≠ _))

def oneArg : Vm where
  life _ := .live
  pte e pn := if e = envx 0 ∧ pn = 0x800 then some (5, stackPerm) else none
  mem p i := if p = 5 then [8, 0, 0x80, 0, 0, 0, 0, 0, 0x68, 0x69, 0].getD i 0 else 0

theorem initStack_oneArg : ∃ r y,
    (Act.initStack (envx 0) 0x1001 0x800000).run ⟨oneArg, [some 1, some 2], []⟩ = some (r, y) ∧
      (r = .error (-eNoMem) ↔ ¬ FitsPage [[0x68, 0x69]]) ∧
      (FitsPage [[0x68, 0x69]] →
        ∃ esp, r = .ok esp ∧ Decodes y.vm (envx 0x1001) esp [[0x68, 0x69]]) := by
  have hun : ∀ p, p ≠ 5 → oneArg.Unmapped p := by
    intro p hp e pn ⟨f, hf⟩
    change (if _ then _ else _) = _ at hf
    split at hf
    · cases hf
      exact hp rfl
    · cases hf
  refine initStack_decodes ⟨fun p hp => hun p ?_, by decide⟩ rfl
    ⟨0x800008, by decide, ⟨by decide, by decide⟩, ⟨by decide, by decide, by decide⟩, by decide,
      by decide⟩ (by decide)
  rintro rfl
  exact absurd hp (by decide)

end Jos.User
