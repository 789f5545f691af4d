import Jos.User.ShellToken
import Mathlib.Data.List.DropRight

/-! The parser of the homework shell (`HW_shell/sh.c`). The cursor `*ps` is the part of the line
from it up to `es`; at `es` the line has its NUL. -/

namespace Jos.Hw

open Kern
open User (chr strchr)

def maxargs : Nat := 10

def whitespace : List Byte := [chr ' ', chr '\t', chr '\r', chr '\n', 11]
def symbols : List Byte := [chr '<', chr '|', chr '>']

def blank (c : Byte) : Bool := strchr whitespace c
def ordinary (c : Byte) : Bool := !strchr whitespace c && !strchr symbols c

def gettoken (s : List Byte) : Byte × List Byte × List Byte :=
  match s.dropWhile blank with
  | [] => (0, [], [])
  | c :: s =>
    if strchr symbols c then (c, [c], s.dropWhile blank)
    else (chr 'a', (c :: s).takeWhile ordinary, ((c :: s).dropWhile ordinary).dropWhile blank)

def peek (s toks : List Byte) : Bool × List Byte :=
  match s.dropWhile blank with
  | [] => (false, [])
  | c :: s => (strchr toks c, c :: s)

inductive Flags
  | rdonly
  | wronlyCreatTrunc

inductive Tree
  | exec (argv : List (List Byte))
  | redir (type : Byte) (cmd : Tree) (file : List Byte) (flags : Flags) (fd : Nat)
  | pipe (left right : Tree)

def redircmd (cmd : Tree) (r : Byte × List Byte) : Tree :=
  .redir r.1 cmd r.2 (if r.1 = chr '<' then .rdonly else .wronlyCreatTrunc)
    (if r.1 = chr '<' then 0 else 1)

/-- The redirections put around a command so far, with their files, first one first. The command
itself is still being filled in. -/
def parseredirs : Nat → List (Byte × List Byte) → List Byte →
    Option (List (Byte × List Byte) × List Byte)
  | 0, _, _ => none
  | n + 1, rs, s =>
    if (peek s [chr '<', chr '>']).1 then
      let (tok, _, s) := gettoken (peek s [chr '<', chr '>']).2
      let (a, file, s) := gettoken s
      if a ≠ chr 'a' then none else parseredirs n (rs ++ [(tok, file)]) s
    else some (rs, (peek s [chr '<', chr '>']).2)

def parseargs (fuel : Nat) : Nat → List (List Byte) → List (Byte × List Byte) → List Byte →
    Option (List (List Byte) × List (Byte × List Byte) × List Byte)
  | 0, _, _, _ => none
  | n + 1, argv, rs, s =>
    if (peek s [chr '|']).1 then some (argv, rs, (peek s [chr '|']).2)
    else
      let (tok, arg, s) := gettoken (peek s [chr '|']).2
      if tok = 0 then some (argv, rs, s)
      else if tok ≠ chr 'a' then none
      else if argv.length + 1 ≥ maxargs then none
      else do
        let (rs, s) ← parseredirs fuel rs s
        parseargs fuel n (argv ++ [arg]) rs s

def parseexec (fuel : Nat) (s : List Byte) : Option (Tree × List Byte) := do
  let (rs, s) ← parseredirs fuel [] s
  let (argv, rs, s) ← parseargs fuel fuel [] rs s
  some (rs.foldl redircmd (.exec argv), s)

def parsepipe (fuel : Nat) : Nat → List Byte → Option (Tree × List Byte)
  | 0, _ => none
  | n + 1, s => do
    let (cmd, s) ← parseexec fuel s
    if (peek s [chr '|']).1 then do
      let (_, _, s) := gettoken (peek s [chr '|']).2
      let (right, s) ← parsepipe fuel n s
      some (.pipe cmd right, s)
    else some (cmd, (peek s [chr '|']).2)

/-- No loop goes round more often than there are characters. -/
def parsecmd (s : List Byte) : Option Tree := do
  let (cmd, s) ← parsepipe (s.length + 1) (s.length + 1) s
  if (peek s []).2 ≠ [] then none else some cmd

inductive Item
  | word (w : List Byte)
  | redir (type : Byte) (file : List Byte)

def words : List Item → List (List Byte)
  | [] => []
  | .word w :: is => w :: words is
  | .redir _ _ :: is => words is

def redirs : List Item → List (Byte × List Byte)
  | [] => []
  | .word _ :: is => redirs is
  | .redir c w :: is => (c, w) :: redirs is

structure Name (w : List Byte) : Prop where
  nonempty : w ≠ []
  ordinary : ∀ c ∈ w, ordinary c = true
  nul : 0 ∉ w

def Blanks (b : List Byte) : Prop := ∀ c ∈ b, blank c = true

def Boundary (s : List Byte) : Prop := ∀ c ∈ s.head?, ordinary c = false

/-- A simple command written out, with any blanks where none are needed. -/
inductive Renders : List Item → List Byte → Prop
  | nil {b} : Blanks b → Renders [] b
  | word {b w is s} : Blanks b → Name w → Boundary s → Renders is s →
    Renders (.word w :: is) (b ++ (w ++ s))
  | redir {b c d w is s} : Blanks b → c = chr '<' ∨ c = chr '>' → Blanks d → Name w → Boundary s →
    Renders is s → Renders (.redir c w :: is) (b ++ c :: (d ++ (w ++ s)))

inductive Line : List (List Item) → List Byte → Prop
  | single {is s} : Renders is s → Line [is] s
  | cons {is s cmds t} : Renders is s → Line cmds t → Line (is :: cmds) (s ++ chr '|' :: t)

def simple (is : List Item) : Tree := (redirs is).foldl redircmd (.exec (words is))

/-- Pipes nest to the right. -/
def pipeline : List (List Item) → Tree
  | [] => .exec []
  | [is] => simple is
  | is :: is' :: cmds => .pipe (simple is) (pipeline (is' :: cmds))

variable {b s t w : List Byte} {c : Byte} {is : List Item}

theorem dropWhile_blanks (hb : Blanks b) : (b ++ s).dropWhile blank = s.dropWhile blank :=
  List.dropWhile_append_of_pos hb

theorem blank_of_ordinary (h : ordinary c = true) : blank c = false ∧ strchr symbols c = false := by
  rw [ordinary, Bool.and_eq_true, Bool.not_eq_true', Bool.not_eq_true'] at h
  exact h

theorem blank_symbol (h : strchr symbols c = true) : blank c = false := by
  have hc : c ∈ symbols := of_decide_eq_true h
  revert c
  decide

theorem Name.cons (h : Name w) : ∃ c v, w = c :: v ∧ blank c = false ∧ strchr symbols c = false := by
  obtain ⟨c, v, rfl⟩ := List.exists_cons_of_ne_nil h.nonempty
  exact ⟨c, v, rfl, blank_of_ordinary (h.ordinary c List.mem_cons_self)⟩

theorem takeWhile_name (h : ∀ c ∈ w, ordinary c = true) (hs : Boundary s) :
    (w ++ s).takeWhile ordinary = w ∧ (w ++ s).dropWhile ordinary = s := by
  rw [List.takeWhile_append_of_pos h, List.dropWhile_append_of_pos h]
  cases s with
  | nil => exact ⟨List.append_nil w, rfl⟩
  | cons c s =>
    have hc : ¬ ordinary c = true := Bool.eq_false_iff.mp (hs c rfl)
    rw [List.takeWhile_cons_of_neg hc, List.dropWhile_cons_of_neg hc, List.append_nil]
    exact ⟨rfl, rfl⟩

theorem gettoken_word (hb : Blanks b) (hw : Name w) (hs : Boundary s) :
    gettoken (b ++ (w ++ s)) = (chr 'a', w, s.dropWhile blank) := by
  obtain ⟨c, v, rfl, hc, hsym⟩ := hw.cons
  rw [gettoken, dropWhile_blanks hb, List.cons_append,
    List.dropWhile_cons_of_neg (Bool.eq_false_iff.mp hc)]
  dsimp only
  rw [hsym, if_neg Bool.false_ne_true, ← List.cons_append, (takeWhile_name hw.ordinary hs).1,
    (takeWhile_name hw.ordinary hs).2]

theorem gettoken_symbol (hb : Blanks b) (hc : strchr symbols c = true) :
    gettoken (b ++ c :: s) = (c, [c], s.dropWhile blank) := by
  rw [gettoken, dropWhile_blanks hb, List.dropWhile_cons_of_neg (Bool.eq_false_iff.mp (blank_symbol hc))]
  dsimp only
  rw [if_pos hc]

theorem peek_cons (hb : Blanks b) (hc : blank c = false) (toks : List Byte) :
    peek (b ++ c :: s) toks = (strchr toks c, c :: s) := by
  rw [peek, dropWhile_blanks hb, List.dropWhile_cons_of_neg (Bool.eq_false_iff.mp hc)]

theorem peek_nil (hb : Blanks b) (toks : List Byte) : peek b toks = (false, []) := by
  have := @dropWhile_blanks b [] hb
  rw [List.append_nil] at this
  rw [peek, this]
  rfl

theorem peek_name (hb : Blanks b) (hw : Name w) {toks : List Byte} (hsub : toks ⊆ symbols) :
    peek (b ++ (w ++ s)) toks = (false, w ++ s) := by
  obtain ⟨c, v, rfl, hc, hsym⟩ := hw.cons
  have hno : strchr toks c = false := decide_eq_false fun hm => of_decide_eq_false hsym (hsub hm)
  rw [List.cons_append, peek_cons hb hc, hno]

theorem gettoken_dropWhile (s : List Byte) : gettoken (s.dropWhile blank) = gettoken s := by
  rw [gettoken, gettoken, List.dropWhile_idempotent]

theorem parseredirs_dropWhile (n : Nat) (rs : List (Byte × List Byte)) (s : List Byte) :
    parseredirs n rs (s.dropWhile blank) = parseredirs n rs s := by
  have hpeek : ∀ toks, peek (s.dropWhile blank) toks = peek s toks := by
    intro toks
    rw [peek, peek, List.dropWhile_idempotent]
  cases n with
  | zero => rfl
  | succ n => rw [parseredirs, parseredirs, hpeek]

def Stop (t : List Byte) : Prop := t = [] ∨ ∃ u, t = chr '|' :: u

theorem Boundary.append (hs : Boundary s) (ht : Stop t) : Boundary (s ++ t) := by
  cases s with
  | nil =>
    rcases ht with rfl | ⟨u, rfl⟩
    · exact hs
    · rintro c ⟨⟩
      decide
  | cons c s => exact hs

theorem Blanks.nil : Blanks [] := by rintro c ⟨⟩

theorem parseargs_renders {fuel : Nat} (h : Renders is s) (ht : Stop t) (hfuel : is.length < fuel) :
    ∀ m n argv rs, is.length < m → is.length < n → argv.length + (words is).length < maxargs →
      ((parseredirs m rs (s ++ t)).bind fun x => parseargs fuel n argv x.1 x.2) =
        some (argv ++ words is, rs ++ redirs is, t) := by
  induction h with
  | @nil b hb =>
    intro m n argv rs hm hn hlen
    obtain ⟨m, rfl⟩ := Nat.exists_eq_succ_of_ne_zero (Nat.ne_zero_of_lt hm)
    obtain ⟨n, rfl⟩ := Nat.exists_eq_succ_of_ne_zero (Nat.ne_zero_of_lt hn)
    rw [words, redirs, List.append_nil, List.append_nil, parseredirs]
    rcases ht with rfl | ⟨u, rfl⟩
    · rw [List.append_nil, peek_nil hb, if_neg Bool.false_ne_true, Option.bind_some, parseargs,
        peek_nil .nil, if_neg Bool.false_ne_true]
      rfl
    · have hno : strchr [chr '<', chr '>'] (chr '|') = false := by decide
      rw [peek_cons hb (by decide), hno, if_neg Bool.false_ne_true, Option.bind_some, parseargs,
        show peek (chr '|' :: u) [chr '|'] = (true, chr '|' :: u) from peek_cons .nil (by decide) _,
        if_pos rfl]
  | @word b w is s hb hw hs _ ih =>
    intro m n argv rs hm hn hlen
    obtain ⟨m, rfl⟩ := Nat.exists_eq_succ_of_ne_zero (Nat.ne_zero_of_lt hm)
    obtain ⟨n, rfl⟩ := Nat.exists_eq_succ_of_ne_zero (Nat.ne_zero_of_lt hn)
    rw [words, List.length_cons] at hlen
    rw [words, redirs, List.append_assoc, List.append_assoc, parseredirs, peek_name hb hw (by decide),
      if_neg Bool.false_ne_true, Option.bind_some, parseargs,
      show peek (w ++ (s ++ t)) [chr '|'] = _ from peek_name .nil hw (by decide),
      if_neg Bool.false_ne_true,
      show gettoken (w ++ (s ++ t)) = _ from @gettoken_word [] _ _ .nil hw (hs.append ht)]
    dsimp only
    rw [if_neg (by decide), if_neg (by decide), if_neg (by omega), parseredirs_dropWhile]
    rw [List.length_cons] at hfuel hn
    have := ih (by omega) fuel n (argv ++ [w]) rs (by omega) (by omega)
      (by rw [List.length_append, List.length_singleton]; omega)
    rw [List.append_assoc] at this
    exact this
  | @redir b c d w is s hb hc hd hw hs _ ih =>
    intro m n argv rs hm hn hlen
    obtain ⟨m, rfl⟩ := Nat.exists_eq_succ_of_ne_zero (Nat.ne_zero_of_lt hm)
    have hsym : strchr symbols c = true := by rcases hc with rfl | rfl <;> decide
    have hin : strchr [chr '<', chr '>'] c = true := by rcases hc with rfl | rfl <;> decide
    rw [List.length_cons] at hfuel hm hn
    have := ih (by omega) m n argv (rs ++ [(c, w)]) (by omega) (by omega) hlen
    rw [words, redirs, List.append_assoc, List.cons_append, List.append_assoc, List.append_assoc,
      parseredirs, peek_cons hb (blank_symbol hsym), if_pos hin,
      show gettoken (c :: (d ++ (w ++ (s ++ t)))) = _ from gettoken_symbol .nil hsym]
    dsimp only
    rw [gettoken_dropWhile, gettoken_word hd hw (hs.append ht)]
    dsimp only
    rw [if_neg (by decide), parseredirs_dropWhile, this, List.append_assoc]
    rfl

theorem Renders.length_le (h : Renders is s) : is.length ≤ s.length := by
  induction h with
  | nil => exact Nat.zero_le _
  | word _ hw _ _ ih =>
    have := List.length_pos_of_ne_nil hw.nonempty
    rw [List.length_cons, List.length_append, List.length_append]
    omega
  | redir _ _ _ _ _ _ ih =>
    rw [List.length_cons, List.length_append, List.length_cons, List.length_append, List.length_append]
    omega

theorem parseexec_renders {fuel : Nat} (h : Renders is s) (ht : Stop t) (hfuel : is.length < fuel)
    (hlen : (words is).length < maxargs) : parseexec fuel (s ++ t) = some (simple is, t) := by
  have := parseargs_renders h ht hfuel fuel fuel [] [] hfuel hfuel (by rw [List.length_nil]; omega)
  obtain ⟨x, hx, hargs⟩ := Option.bind_eq_some_iff.mp this
  rw [parseexec, hx, Option.bind_eq_bind, Option.bind_some]
  dsimp only
  rw [hargs]
  rfl

theorem parsepipe_dropWhile (fuel n : Nat) (s : List Byte) :
    parsepipe fuel n (s.dropWhile blank) = parsepipe fuel n s := by
  cases n with
  | zero => rfl
  | succ n => rw [parsepipe, parsepipe, parseexec, parseexec, parseredirs_dropWhile]

theorem parsepipe_line {fuel : Nat} {cmds : List (List Item)} (h : Line cmds s)
    (hlen : ∀ is ∈ cmds, (words is).length < maxargs) (hfuel : s.length < fuel) :
    ∀ n, s.length < n → parsepipe fuel n s = some (pipeline cmds, []) := by
  induction h with
  | @single is s hr =>
    intro n hn
    obtain ⟨n, rfl⟩ := Nat.exists_eq_succ_of_ne_zero (Nat.ne_zero_of_lt hn)
    have := parseexec_renders hr (.inl rfl) (Nat.lt_of_le_of_lt hr.length_le hfuel)
      (hlen is List.mem_cons_self)
    rw [List.append_nil] at this
    rw [parsepipe, this]
    rfl
  | @cons is s cmds t hr hl ih =>
    intro n hn
    obtain ⟨n, rfl⟩ := Nat.exists_eq_succ_of_ne_zero (Nat.ne_zero_of_lt hn)
    rw [List.length_append, List.length_cons] at hn hfuel
    have hle := hr.length_le
    obtain ⟨hfst, hrest⟩ := List.forall_mem_cons.mp hlen
    rw [parsepipe, parseexec_renders hr (.inr ⟨t, rfl⟩) (by omega) hfst, Option.bind_eq_bind,
      Option.bind_some]
    dsimp only
    rw [show peek (chr '|' :: t) [chr '|'] = (true, chr '|' :: t) from peek_cons .nil (by decide) _,
      if_pos rfl, show gettoken (chr '|' :: t) = _ from @gettoken_symbol [] _ _ .nil (by decide)]
    dsimp only
    rw [parsepipe_dropWhile, ih hrest (by omega) n (by omega)]
    cases hl with
    | single => rfl
    | cons => rfl

/-- A pipeline of simple commands with fewer than `MAXARGS` words each, however it is written,
is parsed into its tree and nothing is left over. -/
theorem parsecmd_renders (cmds : List (List Item)) (s : List Byte) (h : Line cmds s)
    (hlen : ∀ is ∈ cmds, (words is).length < maxargs) : parsecmd s = some (pipeline cmds) := by
  rw [parsecmd, parsepipe_line h hlen (Nat.lt_succ_self _) _ (Nat.lt_succ_self _)]
  rfl

theorem parsecmd_cat_wc :
    parsecmd [chr 'c', chr '>', chr 'f', chr '|', chr ' ', chr 'w'] =
      some (.pipe (redircmd (.exec [[chr 'c']]) (chr '>', [chr 'f'])) (.exec [[chr 'w']])) := by
  have hname : ∀ c, ordinary c = true → c ≠ 0 → Name [c] := fun c hc h0 =>
    ⟨List.cons_ne_nil c [], List.forall_mem_singleton.mpr hc, fun h => h0 (List.mem_singleton.mp h).symm⟩
  have hb : Boundary [] := by rintro c ⟨⟩
  exact parsecmd_renders [[.word [chr 'c'], .redir (chr '>') [chr 'f']], [.word [chr 'w']]] _
    (.cons (.word (b := []) .nil (hname _ (by decide) (by decide)) (by rintro c ⟨⟩; decide)
      (.redir (b := []) (d := []) .nil (.inr rfl) .nil (hname _ (by decide) (by decide)) hb (.nil .nil)))
      (.single (.word (b := [chr ' ']) (List.forall_mem_singleton.mpr (by decide))
        (hname _ (by decide) (by decide)) hb (.nil .nil))))
    (by decide)

end Jos.Hw
