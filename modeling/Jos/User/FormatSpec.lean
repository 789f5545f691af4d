import Jos.User.Printfmt

/-! `vprintfmt` for every format: it comes to an end within the format, and escapes it does not
know are printed as they stand. -/

namespace Jos.User

open Kern

inductive Demand
  | int
  | error
  | string
  | number (lflag : Nat)
  | pointer

def Demand.Fits : Demand → Arg → Prop
  | .int, .int _ => True
  | .error, .int v => v ≠ 0x80000000
  | .string, .str _ => True
  | .number n, .int _ => n = 0
  | .number n, .long _ => n = 1
  | .number n, .longLong _ => 2 ≤ n
  | .pointer, .ptr _ => True
  | _, _ => False

def Conv.demands (lflag : Nat) : Conv → List Demand
  | char => [.int]
  | error => [.error]
  | string => [.string]
  | signed | unsigned | octal | hex => [.number lflag]
  | pointer => [.pointer]
  | percent => []

def demands : Option Nat → List Byte → List Demand
  | _, [] => []
  | none, c :: s => if c = chr '%' then demands (some 0) s else demands none s
  | some n, c :: s =>
    match caseOf c with
    | .minus | .zero | .digit | .dot | .hash => demands (some n) s
    | .long => demands (some (n + 1)) s
    | .star => .int :: demands (some n) s
    | .conv k => k.demands n ++ demands none s
    | .other => demands none s

def Matches : List Demand → List Arg → Prop
  | [], _ => True
  | _ :: _, [] => False
  | d :: ds, a :: ap => d.Fits a ∧ Matches ds ap

def IsFlag (c : Byte) : Prop :=
  match caseOf c with
  | .minus | .zero | .digit | .dot | .hash | .long => True
  | _ => False

/-- Every `%` starts a sequence of flags that ends with the format or with a character that is
no conversion. -/
def Literal (fmt : List Byte) : Prop :=
  ∀ front back, fmt = front ++ chr '%' :: back → ∃ flags rest, back = flags ++ rest ∧
    (∀ c ∈ flags, IsFlag c) ∧ ∀ c ∈ rest.head?, caseOf c = .other

def skips (c : Byte) : Bool :=
  match caseOf c with
  | .conv _ | .other => false
  | _ => true

section

variable {p s : List Byte} {c : Byte} {n : Nat}

theorem fmtAt_append (p s : List Byte) : fmtAt (p ++ s) p.length = some (s.headD 0) := by
  cases s <;> simp [fmtAt]

theorem append_cons (p s : List Byte) (c : Byte) : p ++ c :: s = (p ++ [c]) ++ s := by simp

theorem length_snoc (p : List Byte) (c : Byte) : p.length + 1 = (p ++ [c]).length := by simp

theorem putText_nil : putText p (n + 1) p.length = some ([], none) := by
  have h := fmtAt_append p []
  rw [List.append_nil] at h
  rw [putText, h]
  rfl

theorem putText_percent :
    putText (p ++ chr '%' :: s) (n + 1) p.length = some ([], some (p.length + 1)) := by
  rw [putText, fmtAt_append]
  rfl

theorem putText_cons {out : List Word} {q : Option Nat} (hc : c ≠ 0)
    (hp : c ≠ chr '%') (h : putText (p ++ c :: s) n (p.length + 1) = some (out, q)) :
    putText (p ++ c :: s) (n + 1) p.length = some (ucharInt c :: out, q) := by
  rw [putText, fmtAt_append, Option.bind_eq_bind, Option.bind_some, List.headD_cons, if_neg hp,
    if_neg hc, h]
  rfl

theorem putText_rest (hs : ∀ c ∈ s, c ≠ 0) (hp : chr '%' ∉ s)
    (hf : s.length < n) : putText (p ++ s) n p.length = some (s.map ucharInt, none) := by
  induction s generalizing p n with
  | nil =>
    obtain ⟨m, rfl⟩ := Nat.exists_eq_add_of_le' hf
    rw [List.append_nil]
    exact putText_nil
  | cons c s ih =>
    obtain ⟨m, rfl⟩ := Nat.exists_eq_add_of_le' hf
    obtain ⟨hcp, hp⟩ := not_or.1 (fun h => hp (List.mem_cons.2 h))
    have h := ih (p := p ++ [c]) (n := m + s.length + 1)
      (fun d hd => hs d (List.mem_cons_of_mem c hd)) hp (by omega)
    rw [← append_cons, ← length_snoc] at h
    exact putText_cons (hs c List.mem_cons_self) (Ne.symm hcp) h

theorem putText_escape {b : List Byte} (hs : ∀ c ∈ s, c ≠ 0) (hp : chr '%' ∉ s)
    (hf : s.length < n) : putText (p ++ (s ++ chr '%' :: b)) n p.length =
      some (s.map ucharInt, some (p.length + s.length + 1)) := by
  induction s generalizing p n with
  | nil =>
    obtain ⟨m, rfl⟩ := Nat.exists_eq_add_of_le' hf
    exact putText_percent
  | cons c s ih =>
    obtain ⟨m, rfl⟩ := Nat.exists_eq_add_of_le' hf
    obtain ⟨hcp, hp⟩ := not_or.1 (fun h => hp (List.mem_cons.2 h))
    have h := ih (p := p ++ [c]) (n := m + s.length + 1)
      (fun d hd => hs d (List.mem_cons_of_mem c hd)) hp (by omega)
    rw [← append_cons, ← length_snoc] at h
    refine (putText_cons (hs c List.mem_cons_self) (Ne.symm hcp) h).trans ?_
    rw [List.length_cons, List.map_cons, Nat.add_right_comm p.length 1, Nat.add_assoc p.length]

theorem backUp_append {f t : List Byte} (hp : chr '%' ∉ f) :
    backUp (p ++ chr '%' :: (f ++ t)) (p.length + 1 + f.length) = some (p.length + 1) := by
  induction f using List.reverseRecOn generalizing t with
  | nil =>
    rw [List.length_nil, Nat.add_zero, backUp, fmtAt_append]
    rfl
  | append_singleton f c ih =>
    rw [List.mem_append, not_or, List.mem_singleton] at hp
    have hlen : p.length + 1 + f.length = (p ++ chr '%' :: f).length := by simp; omega
    have hat : fmtAt (p ++ chr '%' :: (f ++ [c] ++ t)) (p.length + 1 + f.length) = some c := by
      rw [hlen, show p ++ chr '%' :: (f ++ [c] ++ t) = (p ++ chr '%' :: f) ++ c :: t by simp,
        fmtAt_append]
      rfl
    rw [List.length_append, List.length_singleton, ← Nat.add_assoc, backUp, hat,
      Option.bind_eq_bind, Option.bind_some, if_neg (Ne.symm hp.2), List.append_assoc]
    exact ih hp.1

def IsDigit (c : Byte) : Prop :=
  ¬ ((charInt c).slt (charInt (chr '0')) ∨ (charInt (chr '9')).slt (charInt c))

instance : DecidablePred IsDigit := fun _ => inferInstanceAs (Decidable (¬ _))

theorem widthField_append (ch v : Word) : ∃ w f t, s = f ++ t ∧ (∀ c ∈ f, IsDigit c) ∧
    ∀ n, s.length < n → widthField (p ++ s) n ch v p.length = some (w, p.length + f.length) := by
  induction s generalizing p ch v with
  | nil =>
    refine ⟨v * 10 + ch - ucharInt (chr '0'), [], [], rfl, List.forall_mem_nil _, fun n hn => ?_⟩
    obtain ⟨m, rfl⟩ := Nat.exists_eq_add_one_of_ne_zero (Nat.ne_zero_of_lt hn)
    rw [widthField, fmtAt_append]
    rfl
  | cons c s ih =>
    by_cases hc : IsDigit c
    · obtain ⟨w, f, t, rfl, hf, h⟩ := ih (p := p ++ [c]) (charInt c)
        (v * 10 + ch - ucharInt (chr '0'))
      refine ⟨w, c :: f, t, rfl, ?_, fun n hn => ?_⟩
      · intro d hd
        rcases List.mem_cons.1 hd with rfl | hd
        · exact hc
        · exact hf d hd
      · obtain ⟨m, rfl⟩ := Nat.exists_eq_add_one_of_ne_zero (Nat.ne_zero_of_lt hn)
        have h := h m (by rw [List.length_cons] at hn; omega)
        rw [← append_cons, ← length_snoc] at h
        rw [widthField, fmtAt_append]
        refine (if_neg hc).trans (h.trans ?_)
        rw [List.length_cons, Nat.add_assoc, Nat.add_comm 1]
    · refine ⟨v * 10 + ch - ucharInt (chr '0'), [], c :: s, rfl, List.forall_mem_nil _, fun n hn => ?_⟩
      obtain ⟨m, rfl⟩ := Nat.exists_eq_add_one_of_ne_zero (Nat.ne_zero_of_lt hn)
      rw [widthField, fmtAt_append]
      exact if_pos (not_not.1 hc)

def Switched (p s : List Byte) (e : Escape) (ap : List Arg) : Prop :=
  ∃ f t e' ap', s = f ++ t ∧ (∀ c ∈ f, skips c = true) ∧ skips (t.headD 0) = false ∧
    Matches (demands (some e'.lflag) t) ap' ∧
    ∀ n, s.length < n →
      reswitch (p ++ s) n e ap p.length = some (t.headD 0, e', ap', p.length + f.length + 1)

variable {e e₁ : Escape} {ap ap₁ : List Arg}

theorem Switched.append {f t : List Byte} (h : Switched (p ++ f) t e₁ ap₁)
    (hf : ∀ c ∈ f, skips c = true) (hne : f ≠ [])
    (hstep : ∀ n, (f ++ t).length ≤ n → reswitch (p ++ (f ++ t)) (n + 1) e ap p.length =
      reswitch (p ++ (f ++ t)) n e₁ ap₁ (p.length + f.length)) : Switched p (f ++ t) e ap := by
  obtain ⟨g, t, e', ap', rfl, hg, ht, hm, heq⟩ := h
  refine ⟨f ++ g, t, e', ap', by simp, ?_, ht, hm, fun n hn => ?_⟩
  · intro c hc
    rcases List.mem_append.1 hc with hc | hc
    · exact hf c hc
    · exact hg c hc
  · have hpos := List.length_pos_iff.2 hne
    obtain ⟨m, rfl⟩ := Nat.exists_eq_add_one_of_ne_zero (Nat.ne_zero_of_lt hn)
    have h := heq m (by rw [List.length_append] at hn; omega)
    rw [List.append_assoc, List.length_append] at h
    rw [hstep m (by omega), h, List.length_append, Nat.add_assoc p.length]

theorem Switched.stop (h : skips (s.headD 0) = false)
    (hm : Matches (demands (some e.lflag) s) ap) : Switched p s e ap := by
  refine ⟨[], s, e, ap, rfl, List.forall_mem_nil _, h, hm, fun n hn => ?_⟩
  obtain ⟨m, rfl⟩ := Nat.exists_eq_add_one_of_ne_zero (Nat.ne_zero_of_lt hn)
  rw [reswitch, fmtAt_append, Option.bind_eq_bind, Option.bind_some]
  rw [skips] at h
  split at h
  · next hk => simp only [hk]; rfl
  · next hk => simp only [hk]; rfl
  · cases h

theorem skips_of_isDigit : ∀ c : Byte, IsDigit c → caseOf c = .zero ∨ caseOf c = .digit := by
  decide +kernel

theorem Switched.cons (h : Switched (p ++ [c]) s e₁ ap₁) (hc : skips c = true)
    (hstep : ∀ n, reswitch (p ++ c :: s) (n + 1) e ap p.length =
      reswitch (p ++ c :: s) n e₁ ap₁ (p.length + 1)) : Switched p (c :: s) e ap :=
  Switched.append (f := [c]) h (by simpa using hc) (by simp) fun n _ => hstep n

theorem demands_digits {f t : List Byte} (h : ∀ c ∈ f, IsDigit c) (k : Nat) :
    demands (some k) (f ++ t) = demands (some k) t := by
  induction f with
  | nil => rfl
  | cons c f ih =>
    rw [List.cons_append, demands]
    rcases skips_of_isDigit c (h c List.mem_cons_self) with hc | hc <;>
      simp only [hc, ih fun d hd => h d (List.mem_cons_of_mem c hd)]

theorem lflag_number (e : Escape) (v : Word) : (e.number v).lflag = e.lflag := by
  rw [Escape.number]
  split_ifs <;> rfl

theorem switched (p s : List Byte) (e : Escape) (ap : List Arg)
    (hm : Matches (demands (some e.lflag) s) ap) : Switched p s e ap := by
  induction hlen : s.length using Nat.strong_induction_on generalizing p s e ap with
  | h k ih =>
    cases s with
    | nil => exact .stop rfl hm
    | cons c s =>
      have hlt : s.length < k := by rw [← hlen, List.length_cons]; omega
      have hat : fmtAt (p ++ c :: s) p.length = some c := fmtAt_append p (c :: s)
      have hsw : ∀ n, reswitch (p ++ c :: s) (n + 1) e ap p.length = _ := fun n => by
        rw [reswitch, hat, Option.bind_eq_bind, Option.bind_some]
      rw [demands] at hm
      have hsk : skips c = _ := skips.eq_1 c
      cases hc : caseOf c with
      | minus =>
        simp only [hc] at hm hsw hsk
        refine .cons (ih _ hlt _ _ _ _ ?_ rfl) hsk hsw
        exact hm
      | zero =>
        simp only [hc] at hm hsw hsk
        refine .cons (ih _ hlt _ _ _ _ ?_ rfl) hsk hsw
        exact hm
      | dot =>
        simp only [hc] at hm hsw hsk
        refine .cons (ih _ hlt _ _ _ _ ?_ rfl) hsk hsw
        exact hm
      | hash =>
        simp only [hc] at hm hsw hsk
        refine .cons (ih _ hlt _ _ _ _ ?_ rfl) hsk hsw
        exact hm
      | long =>
        simp only [hc] at hm hsw hsk
        refine .cons (ih _ hlt _ _ _ _ ?_ rfl) hsk hsw
        exact hm
      | star =>
        simp only [hc] at hm hsw hsk
        match ap, hm with
        | .int v :: ap, hm =>
          refine .cons (ih _ hlt _ _ _ _ ?_ rfl) hsk hsw
          rw [lflag_number]
          exact hm.2
      | digit =>
        simp only [hc] at hm hsw hsk
        obtain ⟨w, f, t, rfl, hf, hw⟩ :=
          widthField_append (p := p ++ [c]) (s := s) (ucharInt c) 0
        have hlt' : t.length < k := by rw [List.length_append] at hlt; omega
        rw [demands_digits hf] at hm
        have hrest : Switched (p ++ c :: f) t (e.number w) ap :=
          ih _ hlt' _ _ _ _ (by rwa [lflag_number]) rfl
        refine hrest.append ?_ (by simp) fun n hn => ?_
        · intro d hd
          rcases List.mem_cons.1 hd with rfl | hd
          · exact hsk
          · rcases skips_of_isDigit d (hf d hd) with h | h <;> rw [skips, h]
        · have hw := hw n (by rw [List.cons_append, List.length_cons] at hn; omega)
          rw [← append_cons, ← length_snoc] at hw
          rw [List.cons_append, hsw, hw, List.length_cons, Nat.add_comm f.length, ← Nat.add_assoc]
          rfl
      | conv k => exact .stop (by rw [List.headD_cons, hsk, hc]) (by rwa [demands])
      | other => exact .stop (by rw [List.headD_cons, hsk, hc]) (by rwa [demands])

theorem one_lt_ten : 1 < 10 := by decide

structure Prints (number : Word → List Word) (string : List Byte → List Word)
    (print : List Byte → List Arg → Option (List Word)) : Prop where
  number : ∀ v, print (bytes "error %d") [.int v] = some (number v)
  string : ∀ s, print (bytes "%s") [.str (some s)] = some (string s)

variable {number : Word → List Word} {string : List Byte → List Word}

theorem putError_prints {v : Word} (hv : v ≠ 0x80000000) :
    ∃ out, ∀ print, Prints number string print → putError print v = some out := by
  have hpos : 0 ≤ (if v.slt 0 then -v else v).toInt := by
    rw [BitVec.slt_eq_decide]
    have := BitVec.toInt_eq_toNat_cond v
    have := v.isLt
    have hne : v.toNat ≠ 0x80000000 := fun h => hv (BitVec.eq_of_toNat_eq h)
    have h0 : (0 : Word).toInt = 0 := rfl
    split_ifs with h
    · rw [BitVec.toInt_neg]
      simp only [decide_eq_true_eq] at h
      rw [Int.bmod_eq_of_le] <;> omega
    · simp only [decide_eq_true_eq] at h
      omega
  generalize hw : (if v.slt 0 then -v else v) = w at hpos
  by_cases hmax : maxerror.sle w = true
  · refine ⟨number w, fun print hp => ?_⟩
    simp only [putError, hw, hmax, if_true, hp.number]
  · have hlt : w.toNat < errorStrings.length := by
      rw [BitVec.sle_eq_decide, decide_eq_true_eq, show maxerror.toInt = 16 from rfl] at hmax
      have := BitVec.toInt_eq_toNat_cond w
      have hlen : errorStrings.length = 16 := rfl
      omega
    cases hs : errorStrings[w.toNat] with
    | none =>
      refine ⟨number w, fun print hp => ?_⟩
      simp only [putError, hw, hmax, if_false, List.getElem?_eq_getElem hlt, hs,
        Option.bind_eq_bind, Option.bind_some, hp.number, Bool.false_eq_true]
    | some text =>
      refine ⟨string (bytes text), fun print hp => ?_⟩
      simp only [putError, hw, hmax, if_false, List.getElem?_eq_getElem hlt, hs,
        Option.bind_eq_bind, Option.bind_some, hp.string, Bool.false_eq_true]

theorem matches_cons {d : Demand} {ds : List Demand} (h : Matches (d :: ds) ap) :
    ∃ a ap', ap = a :: ap' ∧ d.Fits a ∧ Matches ds ap' := by
  cases ap with
  | nil => exact h.elim
  | cons a ap' => exact ⟨a, ap', rfl, h.1, h.2⟩

theorem getuint_fits {k : Nat} {a : Arg} (h : (Demand.number k).Fits a) (ap : List Arg) :
    ∃ v, getuint k (a :: ap) = some (v, ap) := by
  cases a with
  | int v => exact ⟨_, if_pos h⟩
  | long v => exact ⟨_, if_pos h⟩
  | longLong v => exact ⟨_, if_pos h⟩
  | ptr | str => exact h.elim

theorem getint_fits {k : Nat} {a : Arg} (h : (Demand.number k).Fits a) (ap : List Arg) :
    ∃ v, getint k (a :: ap) = some (v, ap) := by
  cases a with
  | int v => exact ⟨_, if_pos h⟩
  | long v => exact ⟨_, if_pos h⟩
  | longLong v => exact ⟨_, if_pos h⟩
  | ptr | str => exact h.elim

theorem convert_prints {k : Conv} {ds : List Demand} (hm : Matches (k.demands e.lflag ++ ds) ap) :
    ∃ new ap', Matches ds ap' ∧
      ∀ print, Prints number string print → convert print e ap k = some (new, ap') := by
  cases k with
  | percent => exact ⟨_, ap, hm, fun _ _ => rfl⟩
  | char =>
    obtain ⟨a, ap', rfl, hfit, hds⟩ := matches_cons hm
    cases a with
    | int v => exact ⟨_, ap', hds, fun _ _ => rfl⟩
    | _ => exact hfit.elim
  | error =>
    obtain ⟨a, ap', rfl, hfit, hds⟩ := matches_cons hm
    cases a with
    | int v =>
      obtain ⟨out, hout⟩ := @putError_prints number string v hfit
      refine ⟨out, ap', hds, fun print hp => ?_⟩
      simp only [convert, vaInt, Option.bind_eq_bind, Option.bind_some, hout print hp]
    | _ => exact hfit.elim
  | string =>
    obtain ⟨a, ap', rfl, hfit, hds⟩ := matches_cons hm
    cases a with
    | str v => exact ⟨_, ap', hds, fun _ _ => rfl⟩
    | _ => exact hfit.elim
  | pointer =>
    obtain ⟨a, ap', rfl, hfit, hds⟩ := matches_cons hm
    cases a with
    | ptr v => exact ⟨_, ap', hds, fun _ _ => rfl⟩
    | _ => exact hfit.elim
  | signed =>
    obtain ⟨a, ap', rfl, hfit, hds⟩ := matches_cons hm
    obtain ⟨v, hv⟩ := getint_fits hfit ap'
    cases hneg : v.slt 0 with
    | true =>
      refine ⟨charInt (chr '-') :: putNumber e 10 (by decide) (-v), ap', hds, fun _ _ => ?_⟩
      simp only [convert, hv, Option.bind_eq_bind, Option.bind_some, hneg, if_true]
    | false =>
      refine ⟨putNumber e 10 (by decide) v, ap', hds, fun _ _ => ?_⟩
      simp only [convert, hv, Option.bind_eq_bind, Option.bind_some, hneg, if_false,
        Bool.false_eq_true]
  | unsigned =>
    obtain ⟨a, ap', rfl, hfit, hds⟩ := matches_cons hm
    obtain ⟨v, hv⟩ := getuint_fits hfit ap'
    refine ⟨putNumber e 10 (by decide) v, ap', hds, fun _ _ => ?_⟩
    simp only [convert, hv, Option.bind_eq_bind, Option.bind_some]
  | octal =>
    obtain ⟨a, ap', rfl, hfit, hds⟩ := matches_cons hm
    obtain ⟨v, hv⟩ := getuint_fits hfit ap'
    refine ⟨putNumber e 8 (by decide) v, ap', hds, fun _ _ => ?_⟩
    simp only [convert, hv, Option.bind_eq_bind, Option.bind_some]
  | hex =>
    obtain ⟨a, ap', rfl, hfit, hds⟩ := matches_cons hm
    obtain ⟨v, hv⟩ := getuint_fits hfit ap'
    refine ⟨putNumber e 16 (by decide) v, ap', hds, fun _ _ => ?_⟩
    simp only [convert, hv, Option.bind_eq_bind, Option.bind_some]

def signedText (v : Word) : List Word :=
  let num := v.signExtend 64
  if num.slt 0 then charInt (chr '-') :: putNumber .start 10 one_lt_ten (-num)
  else putNumber .start 10 one_lt_ten num

theorem convert_signed (print : List Byte → List Arg → Option (List Word)) (v : Word) :
    convert print .start [.int v] .signed = some (signedText v, []) := by
  have hget : getint Escape.start.lflag [.int v] = some (v.signExtend 64, []) := rfl
  simp only [convert, hget, Option.bind_eq_bind, Option.bind_some, signedText]
  split_ifs <;> rfl

theorem prints_vprintfmt (h : 12 ≤ n) :
    Prints (fun v => (bytes "error ").map ucharInt ++ signedText v ++ [])
      (fun s => [] ++ putString .start (some s) ++ []) fun fmt ap => vprintfmt n fmt ap 0 := by
  obtain ⟨m, rfl⟩ := Nat.exists_eq_add_of_le' h
  constructor
  · intro v
    have htext : putText (bytes "error %d") (m + 11) 0 =
        some ((bytes "error ").map ucharInt, some 7) := rfl
    have hrest : vprintfmt (m + 11) (bytes "error %d") [] 8 = some [] := rfl
    exact vprintfmt_conv (k := .signed) htext rfl rfl (convert_signed _ v) hrest
  · intro s
    have htext : putText (bytes "%s") (m + 11) 0 = some ([], some 1) := rfl
    have hrest : vprintfmt (m + 11) (bytes "%s") [] 2 = some [] := rfl
    exact vprintfmt_conv (k := .string) htext rfl rfl rfl hrest

theorem dropWhile_skips {f t : List Byte} (hf : ∀ c ∈ f, skips c = true)
    (ht : skips (t.headD 0) = false) : (f ++ t).dropWhile skips = t := by
  rw [List.dropWhile_append_of_pos hf]
  cases t with
  | nil => rfl
  | cons c t => exact List.dropWhile_cons_of_neg (by simpa using ht)

theorem Literal.other {a f t : List Byte} (h : Literal (a ++ chr '%' :: (f ++ t)))
    (hf : ∀ c ∈ f, skips c = true) (ht : skips (t.headD 0) = false) :
    caseOf (t.headD 0) = .other := by
  obtain ⟨g, r, heq, hg, hr⟩ := h a (f ++ t) rfl
  have hg' : ∀ c ∈ g, skips c = true := by
    intro c hc
    have := hg c hc
    rw [IsFlag] at this
    rw [skips]
    split at this <;> simp_all
  have hr' : caseOf (r.headD 0) = .other := by
    cases r with
    | nil => rfl
    | cons c r => exact hr c rfl
  have h1 := dropWhile_skips hf ht
  rw [heq, dropWhile_skips hg' (by rw [skips, hr'])] at h1
  exact h1 ▸ hr'

theorem Literal.tail {a b : List Byte} (h : Literal (a ++ chr '%' :: b)) : Literal b := by
  intro front back hb
  exact h (a ++ chr '%' :: front) back (by rw [hb]; simp)

theorem demands_text {f t : List Byte} (h : chr '%' ∉ f) :
    demands none (f ++ t) = demands none t := by
  induction f with
  | nil => rfl
  | cons c f ih =>
    obtain ⟨hc, hf⟩ := not_or.1 (fun h' => h (List.mem_cons.2 h'))
    rw [List.cons_append, demands, if_neg (Ne.symm hc), ih hf]

theorem demands_other {k : Nat} {t : List Byte} (h : caseOf (t.headD 0) = .other) :
    demands (some k) t = demands none t := by
  cases t with
  | nil => rfl
  | cons c t =>
    rw [List.headD_cons] at h
    have hc : c ≠ chr '%' := by
      rintro rfl
      exact absurd h (by decide)
    rw [demands, demands, if_neg hc, h]

theorem vprintfmt_from (p s : List Byte) (ap : List Arg) (hs : ∀ c ∈ s, c ≠ 0)
    (hm : Matches (demands none s) ap) : ∃ out, (Literal s → out = s.map ucharInt) ∧
      ∀ n, s.length + 13 ≤ n → vprintfmt n (p ++ s) ap p.length = some out := by
  induction hlen : s.length using Nat.strong_induction_on generalizing p s ap with
  | h k ih =>
    subst hlen
    by_cases hp : chr '%' ∈ s
    · obtain ⟨a, b, rfl, ha⟩ := List.eq_append_cons_of_mem hp
      rw [demands_text ha, demands, if_pos rfl] at hm
      obtain ⟨f, t, e, ap', rfl, hf, ht, hm', hsw⟩ :=
        switched (p ++ a ++ [chr '%']) b .start ap hm
      have hmid : p ++ a ++ [chr '%'] ++ (f ++ t) = p ++ (a ++ chr '%' :: (f ++ t)) := by simp
      have hlen : (p ++ a ++ [chr '%']).length = p.length + a.length + 1 := by
        simp only [List.length_append, List.length_singleton]
      rw [hmid, hlen] at hsw
      have htext : ∀ n, a.length < n → putText (p ++ (a ++ chr '%' :: (f ++ t))) n p.length =
          some (a.map ucharInt, some (p.length + a.length + 1)) := fun n hn =>
        putText_escape (fun c hc => hs c (by simp [hc])) ha hn
      cases hc : caseOf (t.headD 0) with
      | conv k =>
        obtain ⟨c, t, rfl⟩ : ∃ c t', t = c :: t' := by
          cases t with
          | nil => cases hc
          | cons c t => exact ⟨c, t, rfl⟩
        rw [List.headD_cons] at hc hsw
        simp only [demands, hc] at hm'
        obtain ⟨new, ap'', hm'', hnew⟩ := convert_prints hm'
        obtain ⟨out, -, hout⟩ := ih t.length (by simp; omega) (p ++ a ++ [chr '%'] ++ f ++ [c]) t ap''
          (fun d hd => hs d (by simp [hd])) hm'' rfl
        refine ⟨a.map ucharInt ++ new ++ out, fun hlit => ?_, fun n hn => ?_⟩
        · have := hlit.other hf ht
          rw [List.headD_cons, hc] at this
          cases this
        · obtain ⟨m, rfl⟩ := Nat.exists_eq_add_one_of_ne_zero (Nat.ne_zero_of_lt hn)
          simp only [List.length_append, List.length_cons] at hn
          have hrest := hout m (by omega)
          rw [show p ++ a ++ [chr '%'] ++ f ++ [c] ++ t = p ++ (a ++ chr '%' :: (f ++ c :: t)) by
            simp, show (p ++ a ++ [chr '%'] ++ f ++ [c]).length =
              p.length + a.length + 1 + f.length + 1 by
                simp only [List.length_append, List.length_singleton]] at hrest
          refine vprintfmt_conv (htext m (by omega)) (hsw m ?_) hc (hnew _ (prints_vprintfmt ?_)) hrest
          · simp only [List.length_append, List.length_cons]
            omega
          · omega
      | other =>
        have hpf : chr '%' ∉ f := fun h => absurd (hf _ h) (by decide)
        obtain ⟨out, hlit, hout⟩ := ih (f ++ t).length (by simp; omega) (p ++ a ++ [chr '%']) (f ++ t)
          ap' (fun d hd => hs d (by simp [List.mem_append.1 hd])) (by
            rwa [demands_text hpf, ← demands_other hc]) rfl
        rw [hmid, hlen] at hout
        refine ⟨a.map ucharInt ++ [charInt (chr '%')] ++ out, fun h => ?_, fun n hn => ?_⟩
        · have hmap : (a ++ chr '%' :: (f ++ t)).map ucharInt =
              a.map ucharInt ++ (chr '%' :: (f ++ t)).map ucharInt := List.map_append
          rw [hlit h.tail, hmap, List.append_assoc]
          rfl
        · obtain ⟨m, rfl⟩ := Nat.exists_eq_add_one_of_ne_zero (Nat.ne_zero_of_lt hn)
          simp only [List.length_append, List.length_cons] at hn
          have hback := backUp_append (p := p ++ a) (t := t) hpf
          rw [List.length_append, List.append_assoc] at hback
          refine vprintfmt_other (htext m (by omega)) (hsw m ?_) hc hback (hout m ?_)
          · rw [List.length_append]
            omega
          · rw [List.length_append]
            omega
      | _ => rw [skips, hc] at ht; cases ht
    · refine ⟨s.map ucharInt, fun _ => rfl, fun n hn => ?_⟩
      obtain ⟨m, rfl⟩ := Nat.exists_eq_add_one_of_ne_zero (Nat.ne_zero_of_lt hn)
      exact vprintfmt_end (putText_rest hs hp (by omega))

end

/-- `vprintfmt` comes to an end and reads only the format and its NUL; a format without a
conversion is printed as it stands. -/
theorem vprintfmt_ends {fmt : List Byte} {ap : List Arg} (hfmt : ∀ c ∈ fmt, c ≠ 0)
    (hm : Matches (demands none fmt) ap) : ∃ out,
      (∀ fuel, fmt.length + 13 ≤ fuel → vprintfmt fuel fmt ap 0 = some out) ∧
      (Literal fmt → out = fmt.map ucharInt) := by
  obtain ⟨out, hlit, hout⟩ := vprintfmt_from [] fmt ap hfmt hm
  exact ⟨out, hout, hlit⟩

theorem vprintfmt_ends_error : ∃ out,
    (∀ fuel, 24 ≤ fuel → vprintfmt fuel (bytes "%-8q %*le%l") [.int 5, .int (-3)] 0 = some out) ∧
      (Literal (bytes "%-8q %*le%l") → out = (bytes "%-8q %*le%l").map ucharInt) := by
  have hm : Matches (demands none (bytes "%-8q %*le%l")) [.int 5, .int (-3)] :=
    ⟨trivial, show (-3 : Word) ≠ 0x80000000 by decide, trivial⟩
  exact vprintfmt_ends (by decide) hm

/-- `vsnprintf` into a buffer of `n` bytes: the first `n - 1` characters at most and a NUL are
stored from its beginning on, and the length of the whole output is returned. -/
theorem vsnprintf_clips {fmt : List Byte} {ap : List Arg} {n : Word} (hfmt : ∀ c ∈ fmt, c ≠ 0)
    (hm : Matches (demands none fmt) ap) (hn : 1 ≤ n.toInt) : ∃ total,
      (∀ fuel, fmt.length + 13 ≤ fuel → vprintfmt fuel fmt ap 0 = some total) ∧
      (total.length < 2 ^ 31 → ∀ fuel, fmt.length + 13 ≤ fuel →
        ∃ r stored, vsnprintf fuel n fmt ap = some (r, stored) ∧ r.toInt = total.length ∧
          stored.length ≤ n.toNat ∧
          stored = (total.map (BitVec.setWidth 8)).take (min total.length (n.toNat - 1)) ++ [0]) := by
  obtain ⟨total, -, htotal⟩ := vprintfmt_from [] fmt ap hfmt hm
  refine ⟨total, htotal, fun hlen fuel hfuel => ⟨_, _, vsnprintf_eq (htotal fuel hfuel) hn, ?_, ?_, ?_⟩⟩
  · rw [BitVec.toInt_eq_toNat_cond, BitVec.toNat_ofNat]
    omega
  · have := BitVec.toInt_eq_toNat_cond n
    rw [List.length_append, List.length_map, List.length_take, List.length_singleton]
    omega
  · rw [List.map_take, List.take_eq_take_min, List.length_map, Nat.min_comm]

theorem vsnprintf_clips_two : ∃ total,
    (∀ fuel, 15 ≤ fuel → vprintfmt fuel (bytes "%s") [.str (some (bytes "abc"))] 0 = some total) ∧
      (total.length < 2 ^ 31 → ∀ fuel, 15 ≤ fuel → ∃ r stored,
        vsnprintf fuel 2 (bytes "%s") [.str (some (bytes "abc"))] = some (r, stored) ∧
          r.toInt = total.length ∧ stored.length ≤ 2 ∧
          stored = (total.map (BitVec.setWidth 8)).take (min total.length 1) ++ [0]) := by
  have hm : Matches (demands none (bytes "%s")) [.str (some (bytes "abc"))] := ⟨trivial, trivial⟩
  exact @vsnprintf_clips _ _ 2 (by decide) hm (by decide)

end Jos.User
