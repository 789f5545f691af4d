import Jos.Kern.State
import Mathlib.Logic.Function.Basic
import Mathlib.Data.List.Induction

/-! `lib/readline.c`: a line is edited in a buffer until a newline ends it. -/

namespace Jos.User

open Kern

def buflen : Int := 1024
def bsChar : Byte := 8
def delChar : Byte := 0x7F

structure Line where
  buf : Int → Byte
  i : Int

def Line.type (s : Line) (c : Byte) : Line :=
  if (c = bsChar ∨ c = delChar) ∧ s.i > 0 then { s with i := s.i - 1 }
  else if c ≥ 0x20 ∧ s.i < buflen - 1 then ⟨Function.update s.buf s.i c, s.i + 1⟩
  else s

/-- The loop of `readline`, with what `getchar` returns: `some none` is a null pointer. -/
def readline : List (Except Word Byte) → Line → Option (Option Line)
  | [], _ => none
  | .error _ :: _, _ => some none
  | .ok c :: cs, s =>
    if (c = bsChar ∨ c = delChar) ∧ s.i > 0 then readline cs { s with i := s.i - 1 }
    else if c ≥ 0x20 ∧ s.i < buflen - 1 then readline cs ⟨Function.update s.buf s.i c, s.i + 1⟩
    else if c = 0x0A ∨ c = 0x0D then some (some { s with buf := Function.update s.buf s.i 0 })
    else readline cs s

def Line.text (s : Line) : List Byte :=
  ((List.range buflen.toNat).map fun j : Nat => s.buf j).takeWhile (· ≠ 0)

def edit (held : List Byte) (c : Byte) : List Byte :=
  if c = bsChar ∨ c = delChar then held.dropLast
  else if c ≥ 0x20 ∧ held.length < buflen.toNat - 1 then held ++ [c]
  else held

def lineCount (n : Nat) (c : Byte) : Nat :=
  if (c = bsChar ∨ c = delChar) ∧ n > 0 then n - 1
  else if c ≥ 0x20 ∧ n < buflen.toNat - 1 then n + 1
  else n

/-- Each DEL that was typed on an empty line has been deleted again. -/
def NoStrayDel (cs : List Byte) : Prop :=
  ∀ pre post, cs = pre ++ delChar :: post → pre.foldl lineCount 0 = 0 →
    ∃ post', post' <+: post ∧ (pre ++ delChar :: post').foldl lineCount 0 = 0

section

variable {cs : List Byte} {c : Byte}

theorem noStrayDel_of_empty (h : cs.foldl lineCount 0 = 0) : NoStrayDel cs := by
  rintro pre post rfl -
  exact ⟨post, List.prefix_rfl, h⟩

theorem noStrayDel_first (h : cs.foldl lineCount 0 = 0)
    (hpos : (cs ++ [c]).foldl lineCount 0 ≠ 0) : NoStrayDel (cs ++ [c]) ↔ c ≠ delChar := by
  constructor
  · rintro hno rfl
    obtain ⟨post', hpost, h0⟩ := hno cs [] rfl h
    rw [List.prefix_nil.1 hpost] at h0
    exact hpos h0
  · intro hc pre post heq _
    obtain rfl | ⟨post, x, rfl⟩ := post.eq_nil_or_concat
    · exact absurd (List.append_inj' heq rfl).2 (by simpa using hc)
    · rw [List.concat_eq_append, ← List.cons_append, ← List.append_assoc] at heq
      obtain ⟨rfl, -⟩ := List.append_inj' heq rfl
      exact ⟨post, by simp, h⟩

theorem noStrayDel_later (h : cs.foldl lineCount 0 ≠ 0)
    (hpos : (cs ++ [c]).foldl lineCount 0 ≠ 0) : NoStrayDel (cs ++ [c]) ↔ NoStrayDel cs := by
  constructor
  · rintro hno pre post rfl h0
    obtain ⟨post', hpost, hend⟩ := hno pre (post ++ [c]) (by simp) h0
    obtain rfl | ⟨hpre⟩ := List.prefix_concat_iff.1 hpost
    · rw [List.append_assoc, List.cons_append] at hpos
      exact absurd hend hpos
    · exact ⟨post', hpre, hend⟩
  · intro hno pre post heq h0
    obtain rfl | ⟨post, x, rfl⟩ := post.eq_nil_or_concat
    · obtain ⟨rfl, -⟩ := List.append_inj' heq rfl
      exact absurd h0 h
    · rw [List.concat_eq_append, ← List.cons_append, ← List.append_assoc] at heq
      obtain ⟨rfl, -⟩ := List.append_inj' heq rfl
      obtain ⟨post', hpost, hend⟩ := hno pre post rfl h0
      exact ⟨post', hpost.trans (by simp), hend⟩

def typed (held : List Byte) (c : Byte) : List Byte :=
  if (c = bsChar ∨ c = delChar) ∧ held.length > 0 then held.dropLast
  else if c ≥ 0x20 ∧ held.length < buflen.toNat - 1 then held ++ [c]
  else held

variable {held : List Byte} {s : Line}

theorem length_typed : (typed held c).length = lineCount held.length c := by
  rw [typed, lineCount]
  split
  · exact List.length_dropLast
  · split
    · exact List.length_append
    · rfl

theorem length_foldl_typed : (cs.foldl typed []).length = cs.foldl lineCount 0 := by
  induction cs using List.reverseRecOn with
  | nil => rfl
  | append_singleton cs c ih =>
    rw [List.foldl_concat, List.foldl_concat, length_typed, ih]

structure Line.Shows (s : Line) (held : List Byte) : Prop where
  i : s.i = held.length
  le : held.length ≤ buflen.toNat - 1
  chars : ∀ j : Nat, j < held.length → held[j]? = some (s.buf j)
  nonzero : 0 ∉ held

theorem Line.Shows.type (h : s.Shows held) : (s.type c).Shows (typed held c) := by
  have hi := h.i
  have hle := h.le
  have hbuf : buflen.toNat = 1024 := rfl
  rw [Line.type, typed]
  by_cases hdel : (c = bsChar ∨ c = delChar) ∧ held.length > 0
  · rw [if_pos hdel, if_pos ⟨hdel.1, by omega⟩]
    have hlen : held.dropLast.length = held.length - 1 := List.length_dropLast
    refine ⟨by dsimp only; omega, by omega, fun j hj => ?_, fun h0 => h.nonzero
      (List.mem_of_mem_dropLast h0)⟩
    rw [List.getElem?_dropLast, if_pos (by omega)]
    exact h.chars j (by omega)
  · rw [if_neg hdel, if_neg fun hd => hdel ⟨hd.1, by omega⟩]
    by_cases hput : c ≥ 0x20 ∧ held.length < buflen.toNat - 1
    · rw [if_pos hput, if_pos ⟨hput.1, by rw [buflen]; omega⟩]
      refine ⟨by dsimp only; rw [List.length_append, List.length_singleton]; omega,
        by rw [List.length_append, List.length_singleton]; omega, fun j hj => ?_, fun h0 => ?_⟩
      · dsimp only
        rw [List.length_append, List.length_singleton] at hj
        obtain hlt | rfl := Nat.lt_succ_iff_lt_or_eq.1 hj
        · rw [List.getElem?_append_left hlt, Function.update_of_ne (by omega)]
          exact h.chars j hlt
        · rw [List.getElem?_concat_length, hi, Function.update_self]
      · obtain h0 | h0 := List.mem_append.1 h0
        · exact h.nonzero h0
        · rw [← List.mem_singleton.1 h0] at hput
          exact absurd hput.1 (by decide)
    · rw [if_neg hput, if_neg fun hp => hput ⟨hp.1, by rw [buflen] at hp; omega⟩]
      exact h

theorem Line.Shows.text {b : Byte} (h : s.Shows held) (hb : b = 0) :
    ({ s with buf := Function.update s.buf s.i b } : Line).text = held := by
  obtain ⟨k, hk⟩ : ∃ k, buflen.toNat = held.length + (k + 1) :=
    ⟨buflen.toNat - 1 - held.length, by have := h.le; have : buflen.toNat = 1024 := rfl; omega⟩
  have hmap : (List.range held.length).map (fun j : Nat => Function.update s.buf s.i b j) = held := by
    apply List.ext_getElem?
    intro j
    rw [List.getElem?_map]
    by_cases hj : j < held.length
    · rw [List.getElem?_range hj, h.chars j hj, h.i, Option.map_some,
        Function.update_of_ne (by omega)]
    · rw [List.getElem?_eq_none (Nat.le_of_not_lt hj), List.getElem?_eq_none (by
        rw [List.length_range]; omega)]
      rfl
  have hpos : ∀ x ∈ held, decide (x ≠ 0) = true := fun x hx =>
    decide_eq_true fun h0 => h.nonzero (h0 ▸ hx)
  rw [Line.text, hk, List.range_add, List.range_succ_eq_map, List.map_append, hmap,
    List.takeWhile_append_of_pos hpos, List.map_cons, List.map_cons, List.takeWhile_cons_of_neg,
    List.append_nil]
  rw [Nat.add_zero, ← h.i]
  simp [hb]

theorem readline_eq {nl : Byte} {rest : List (Except Word Byte)}
    (hcs : ∀ c ∈ cs, c ≠ 0x0A ∧ c ≠ 0x0D) (hnl : nl = 0x0A ∨ nl = 0x0D) :
    readline (cs.map .ok ++ .ok nl :: rest) s = some (some
      { cs.foldl Line.type s with
        buf := Function.update (cs.foldl Line.type s).buf (cs.foldl Line.type s).i 0 }) := by
  induction cs generalizing s with
  | nil =>
    have hctl : ¬ (nl = bsChar ∨ nl = delChar) ∧ ¬ nl ≥ 0x20 := by
      obtain rfl | rfl := hnl <;> decide
    rw [List.map_nil, List.nil_append, readline, if_neg fun h => hctl.1 h.1,
      if_neg fun h => hctl.2 h.1, if_pos hnl]
    rfl
  | cons c cs ih =>
    have hc := hcs c List.mem_cons_self
    rw [List.map_cons, List.cons_append, readline, List.foldl_cons,
      ← ih fun c hc => hcs c (List.mem_cons_of_mem _ hc), Line.type]
    split
    · rfl
    · split
      · rfl
      · rw [if_neg (not_or.2 hc)]

def Edited (cs held' held : List Byte) : Prop :=
  (NoStrayDel cs ∧ held' = held) ∨
    (¬ NoStrayDel cs ∧ ∃ a, held' = delChar :: a ∧
      (held.length = a.length ∨ held.length = a.length + 1))

theorem typed_eq_edit (h : c ≠ delChar ∨ held ≠ []) : typed held c = edit held c := by
  rw [typed, edit]
  by_cases hdel : c = bsChar ∨ c = delChar
  · rw [if_pos hdel]
    by_cases hlen : held.length > 0
    · rw [if_pos ⟨hdel, hlen⟩]
    · obtain rfl : held = [] := List.length_eq_zero_iff.1 (Nat.eq_zero_of_not_pos hlen)
      obtain rfl := hdel.resolve_right (h.resolve_right (not_not.2 rfl))
      rfl
  · rw [if_neg fun h => hdel h.1, if_neg hdel]

theorem length_foldl_typed_le : (cs.foldl typed []).length ≤ buflen.toNat - 1 := by
  induction cs using List.reverseRecOn with
  | nil => exact Nat.zero_le _
  | append_singleton cs c ih =>
    rw [List.foldl_concat, length_typed, lineCount]
    split_ifs <;> omega

theorem edited_stray {a : List Byte} (hle : a.length + 1 ≤ buflen.toNat - 1)
    (hlen : held.length = a.length ∨ held.length = a.length + 1) :
    (typed (delChar :: a) c = [] ∧ edit held c = []) ∨
      ∃ a', typed (delChar :: a) c = delChar :: a' ∧
        ((edit held c).length = a'.length ∨ (edit held c).length = a'.length + 1) := by
  rw [typed, edit, List.length_cons]
  by_cases hdel : c = bsChar ∨ c = delChar
  · rw [if_pos ⟨hdel, Nat.succ_pos _⟩, if_pos hdel]
    cases a with
    | nil =>
      refine .inl ⟨rfl, List.length_eq_zero_iff.1 ?_⟩
      rw [List.length_nil] at hlen
      rw [List.length_dropLast]
      omega
    | cons x a =>
      refine .inr ⟨(x :: a).dropLast, rfl, ?_⟩
      rw [List.length_cons] at hlen
      rw [List.length_dropLast, List.length_dropLast, List.length_cons]
      omega
  · rw [if_neg fun h => hdel h.1, if_neg hdel]
    refine .inr ?_
    by_cases hput : c ≥ 0x20 ∧ a.length + 1 < buflen.toNat - 1
    · rw [if_pos hput, if_pos ⟨hput.1, by omega⟩]
      refine ⟨a ++ [c], rfl, ?_⟩
      rw [List.length_append, List.length_append]
      omega
    · rw [if_neg hput]
      refine ⟨a, rfl, ?_⟩
      split_ifs with hspec
      · have : ¬ a.length + 1 < buflen.toNat - 1 := fun hlt => hput ⟨hspec.1, hlt⟩
        rw [List.length_append, List.length_singleton]
        omega
      · exact hlen

theorem edited : Edited cs (cs.foldl typed []) (cs.foldl edit []) := by
  induction cs using List.reverseRecOn with
  | nil => exact .inl ⟨noStrayDel_of_empty rfl, rfl⟩
  | append_singleton cs c ih =>
    have hcount : (cs ++ [c]).foldl lineCount 0 = (typed (cs.foldl typed []) c).length := by
      rw [← length_foldl_typed, List.foldl_concat]
    have hbefore : cs.foldl lineCount 0 = (cs.foldl typed []).length := length_foldl_typed.symm
    have hle := @length_foldl_typed_le cs
    rw [List.foldl_concat, List.foldl_concat]
    obtain ⟨hno, heq⟩ | ⟨hstray, a, heq, hlen⟩ := ih
    · rw [heq] at hcount hbefore ⊢
      by_cases hdel : c ≠ delChar ∨ cs.foldl edit [] ≠ []
      · rw [typed_eq_edit hdel] at hcount ⊢
        refine .inl ⟨?_, rfl⟩
        by_cases h0 : (cs ++ [c]).foldl lineCount 0 = 0
        · exact noStrayDel_of_empty h0
        · by_cases hb : cs.foldl lineCount 0 = 0
          · rw [noStrayDel_first hb h0]
            exact hdel.resolve_right fun hne => hne (List.length_eq_zero_iff.1 (hbefore ▸ hb))
          · exact (noStrayDel_later hb h0).2 hno
      · obtain ⟨rfl, hempty⟩ : c = delChar ∧ cs.foldl edit [] = [] := by
          simpa [not_or] using hdel
        rw [hempty] at hcount hbefore ⊢
        refine .inr ⟨fun hno => ?_, [], rfl, .inl rfl⟩
        exact (noStrayDel_first hbefore (by rw [hcount]; decide)).1 hno rfl
    · rw [heq, List.length_cons] at hle hbefore
      rw [heq] at hcount ⊢
      obtain ⟨htyped, hedit⟩ | ⟨a', htyped, hlen'⟩ := edited_stray (c := c) hle hlen
      · rw [htyped] at hcount ⊢
        exact .inl ⟨noStrayDel_of_empty hcount, hedit.symm⟩
      · rw [htyped] at hcount ⊢
        refine .inr ⟨?_, a', rfl, hlen'⟩
        rwa [noStrayDel_later (by omega) (by rw [hcount, List.length_cons]; omega)]

theorem del_notMem_edit : delChar ∉ cs.foldl edit [] := by
  induction cs using List.reverseRecOn with
  | nil => exact List.not_mem_nil
  | append_singleton cs c ih =>
    rw [List.foldl_concat, edit]
    split_ifs with hdel hput
    · exact fun h => ih (List.mem_of_mem_dropLast h)
    · intro h
      obtain h | h := List.mem_append.1 h
      · exact ih h
      · exact hdel (.inr (List.mem_singleton.1 h).symm)
    · exact ih

theorem typed_eq_iff : cs.foldl typed [] = cs.foldl edit [] ↔ NoStrayDel cs := by
  obtain ⟨hno, heq⟩ | ⟨hstray, a, heq, -⟩ := @edited cs
  · exact iff_of_true heq hno
  · refine iff_of_false (fun hsame => ?_) hstray
    exact del_notMem_edit (hsame ▸ heq ▸ List.mem_cons_self)

theorem shows_foldl (buf : Int → Byte) :
    (cs.foldl Line.type ⟨buf, 0⟩).Shows (cs.foldl typed []) := by
  induction cs using List.reverseRecOn with
  | nil => exact ⟨rfl, Nat.zero_le _, fun j hj => absurd hj (Nat.not_lt_zero j), List.not_mem_nil⟩
  | append_singleton cs c ih =>
    rw [List.foldl_concat, List.foldl_concat]
    exact ih.type

end

/-- The line that `readline` returns is the one the editor makes of the characters before the
newline, exactly if each DEL on an empty line has been deleted again; and the index stays
in the buffer. -/
theorem readline_edits_iff {buf : Int → Byte} {cs : List Byte} {nl : Byte}
    {rest : List (Except Word Byte)} (hcs : ∀ c ∈ cs, c ≠ 0x0A ∧ c ≠ 0x0D)
    (hnl : nl = 0x0A ∨ nl = 0x0D) :
    (∃ s, readline (cs.map .ok ++ .ok nl :: rest) ⟨buf, 0⟩ = some (some s) ∧
      s.text = cs.foldl edit [] ∧ ∀ pre, pre <+: cs →
        0 ≤ (pre.foldl Line.type ⟨buf, 0⟩).i ∧ (pre.foldl Line.type ⟨buf, 0⟩).i ≤ buflen - 1) ↔
    NoStrayDel cs := by
  rw [← typed_eq_iff, readline_eq hcs hnl]
  constructor
  · rintro ⟨s, hs, htext, -⟩
    cases hs
    rw [← htext, (shows_foldl buf).text rfl]
  · intro heq
    refine ⟨_, rfl, by rw [(shows_foldl buf).text rfl, heq], fun pre _ => ?_⟩
    have h := @shows_foldl pre buf
    have hle := h.le
    have : buflen.toNat = 1024 := rfl
    rw [h.i, buflen]
    omega

theorem readline_delete : ∃ s, readline ([0x61, 0x62, delChar].map .ok ++ [.ok 0x0A]) ⟨fun _ => 0, 0⟩ =
    some (some s) ∧ s.text = [0x61, 0x62, delChar].foldl edit [] ∧
    ∀ pre, pre <+: [0x61, 0x62, delChar] →
      0 ≤ (pre.foldl Line.type ⟨fun _ => 0, 0⟩).i ∧
      (pre.foldl Line.type ⟨fun _ => 0, 0⟩).i ≤ buflen - 1 :=
  (readline_edits_iff (by decide) (by decide)).2 (typed_eq_iff.1 (by decide))

theorem readline_stray_del : ∃ s, readline [.ok delChar, .ok 0x0A] ⟨fun _ => 0, 0⟩ = some (some s) ∧
    s.text = [delChar] ∧ [delChar].foldl edit [] = [] :=
  ⟨_, rfl, by decide +kernel, rfl⟩

end Jos.User
