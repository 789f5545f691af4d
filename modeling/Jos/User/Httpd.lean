import Jos.User.Strtol
import Jos.User.FormatSpec
import Mathlib.Data.Finset.Basic

/-! `user/httpd.c`: a request is received, parsed and answered with a file. -/

namespace Jos.User

open Kern

def buffsize : Nat := 512

section Data

/-- The loop of `send_data`. Each pass has the result of `read` and that of `write`; `buff` and
`n` have no value at first. The result is that of the call and the bytes that were sent. -/
def sendData : Word → List Byte → List (Nat × Nat) → List Byte → Word × List Byte
  | n, _, [], _ => (n, [])
  | n, buff, (r, w) :: io, file =>
    let buff := file.take r ++ buff.drop r
    let sent := (buff.take buffsize).take w
    if w ≠ r then (-1, sent)
    else
      let x := sendData (n + BitVec.ofNat 32 r) buff io (file.drop r)
      (x.1, sent ++ x.2)

def sendSize (fuel : Nat) (size : Word) : Option (List Byte) := do
  let (r, buf) ← vsnprintf fuel 64 (bytes "Content-Length: %ld\r\n") [.long size]
  if (63 : Word).slt r then none else some (buf.take r.toNat)

variable {n : Word} {buff file : List Byte} {io : List (Nat × Nat)}

theorem sendData_of_eq (h : ∀ x ∈ io, x.2 = x.1) (hread : ∀ x ∈ io, x.1 ≤ buffsize)
    (hsum : (io.map Prod.fst).sum = file.length) :
    sendData n buff io file = (n + BitVec.ofNat 32 file.length, file) := by
  induction io generalizing n buff file with
  | nil =>
    obtain rfl : file = [] := List.eq_nil_of_length_eq_zero hsum.symm
    rw [sendData]
    exact Prod.ext (BitVec.add_zero n).symm rfl
  | cons x io ih =>
    obtain ⟨r, w⟩ := x
    obtain ⟨hw, hio⟩ := List.forall_mem_cons.mp h
    obtain rfl : w = r := hw
    obtain ⟨hr, hread⟩ := List.forall_mem_cons.mp hread
    rw [List.map_cons, List.sum_cons] at hsum
    have hlen : (file.take w).length = w := by rw [List.length_take]; omega
    rw [sendData, if_neg (not_not.mpr rfl), ih hio hread (by rw [List.length_drop]; omega),
      List.take_take, Nat.min_eq_left hr, List.take_append_of_le_length (Nat.le_of_eq hlen.symm), List.take_of_length_le (Nat.le_of_eq hlen)]
    dsimp only at hsum ⊢
    rw [List.take_append_drop, BitVec.add_assoc, ← BitVec.ofNat_add, List.length_drop,
      Nat.add_sub_cancel' (by omega)]

theorem sendData_of_ne (h : ¬ ∀ x ∈ io, x.2 = x.1) : (sendData n buff io file).1 = -1 := by
  induction io generalizing n buff file with
  | nil => exact absurd (List.forall_mem_nil _) h
  | cons x io ih =>
    obtain ⟨r, w⟩ := x
    rw [sendData]
    by_cases hw : w = r
    · rw [if_neg (not_not.mpr hw)]
      exact ih fun hio => h (List.forall_mem_cons.mpr ⟨hw, hio⟩)
    · rw [if_pos hw]

theorem convert_long {v : Word} (hpos : v.slt 0 = false)
    {print : List Byte → List Arg → Option (List Word)} :
    convert print { Escape.start with lflag := 1 } [.long v] .signed =
      some (putNumber .start 10 one_lt_ten (v.signExtend 64), []) := by
  have hget : getint 1 [.long v] = some (v.signExtend 64, []) := rfl
  rw [convert, hget, Option.bind_eq_bind, Option.bind_some]
  dsimp only
  rw [Radix.slt_signExtend, if_neg (by rw [hpos]; decide)]
  rfl

theorem putNumber_signExtend {v : Word} (hpos : v.slt 0 = false) :
    (putNumber .start 10 one_lt_ten (v.signExtend 64)).map (BitVec.setWidth 8) =
      numeral 10 one_lt_ten v.toNat := by
  rw [putNumber_start, Radix.toNat_signExtend, if_neg (by rw [hpos]; decide)]

theorem sendSize_eq (size : Nat) (h : size < 2 ^ 31) {fuel : Nat} (hf : 34 ≤ fuel) :
    sendSize fuel (BitVec.ofNat 32 size) =
      some (bytes "Content-Length: " ++ numeral 10 one_lt_ten size ++ bytes "\r\n") := by
  obtain ⟨m, rfl⟩ := Nat.exists_eq_add_of_le' hf
  have hnat : (BitVec.ofNat 32 size).toNat = size := by rw [BitVec.toNat_ofNat]; omega
  have hpos : (BitVec.ofNat 32 size).slt 0 = false := by
    rw [show (BitVec.ofNat 32 size).slt 0 = _ from BitVec.slt_zero_eq_msb, BitVec.msb_eq_decide, hnat]
    exact decide_eq_false (by omega)
  have hnum := putNumber_signExtend hpos
  rw [hnat] at hnum
  have hlen : (numeral 10 one_lt_ten size).length ≤ 10 :=
    length_numeral (k := 9) (Nat.lt_of_lt_of_le h (by decide))
  have htext : putText (bytes "Content-Length: %ld\r\n") (m + 33) 0 =
    some ((bytes "Content-Length: ").map ucharInt, some 17) := rfl
  have hsw : reswitch (bytes "Content-Length: %ld\r\n") (m + 33) .start [.long (BitVec.ofNat 32 size)] 17 =
    some (chr 'd', { Escape.start with lflag := 1 }, [.long (BitVec.ofNat 32 size)], 19) := rfl
  have hrest : vprintfmt (m + 33) (bytes "Content-Length: %ld\r\n") [] 19 =
    some ((bytes "\r\n").map ucharInt) := rfl
  have hout := vprintfmt_conv htext hsw rfl (convert_long hpos) hrest
  generalize putNumber .start 10 one_lt_ten ((BitVec.ofNat 32 size).signExtend 64) = ds at hout hnum
  rw [← hnum, List.length_map] at hlen
  generalize hl : (bytes "Content-Length: ").map ucharInt ++ ds ++ (bytes "\r\n").map ucharInt = out
    at hout
  have hlout : out.length = 16 + ds.length + 2 := by
    rw [← hl, List.length_append, List.length_append]
    rfl
  have h64 : (64 : Word).toInt = 64 := rfl
  have hr : (BitVec.ofNat 32 out.length).toNat = out.length := by rw [BitVec.toNat_ofNat]; omega
  have h63 : (63 : Word).slt (BitVec.ofNat 32 out.length) = false := by
    rw [BitVec.slt_eq_decide, decide_eq_false_iff_not, BitVec.toInt_eq_toNat_cond (BitVec.ofNat _ _), hr,
      show (63 : Word).toInt = 63 from rfl]
    omega
  rw [sendSize, vsnprintf_fits hout (by omega), Option.bind_eq_bind, Option.bind_some]
  dsimp only
  rw [h63, if_neg Bool.false_ne_true, hr, List.take_append_of_le_length (by rw [List.length_map]),
    List.take_of_length_le (by rw [List.length_map]), ← hl, List.map_append, List.map_append, hnum]
  rfl

end Data

section Request

/-- Whether `strncmp` finds the first characters equal. There is nothing to read behind the bytes
that were received. -/
def strncmpEq : List Byte → List Byte → Option Bool
  | [], _ => some true
  | _ :: _, [] => none
  | q :: qs, c :: cs => if c ≠ 0 ∧ c = q then strncmpEq qs cs else some false

def scanTo (stop : Byte) : List Byte → Option (List Byte × List Byte)
  | [] => none
  | c :: cs =>
    if c ≠ 0 ∧ c ≠ stop then do
      let (w, rest) ← scanTo stop cs
      some (c :: w, rest)
    else some ([], c :: cs)

/-- Nothing for `-E_BAD_REQ`, or the url and the version. -/
def httpRequestParse (buf : List Byte) : Option (Option (List Byte × List Byte)) := do
  if (← strncmpEq (bytes "GET ") buf) = false then some none
  else
    let (url, rest) ← scanTo (chr ' ') (buf.drop 4)
    let (version, _) ← scanTo (chr '\n') rest.tail
    some (some (url, version))

variable {stop : Byte} {buf w rest : List Byte}

theorem scanTo_eq (h : scanTo stop buf = some (w, rest)) :
    buf = w ++ rest ∧ ∃ c cs, rest = c :: cs ∧ (c = 0 ∨ c = stop) := by
  induction buf generalizing w with
  | nil => cases h
  | cons c cs ih =>
    rw [scanTo] at h
    split_ifs at h with hc
    · obtain ⟨x, hx, h⟩ := Option.bind_eq_some_iff.mp h
      cases h
      obtain ⟨hcs, hrest⟩ := ih hx
      exact ⟨by rw [hcs]; rfl, hrest⟩
    · cases h
      exact ⟨rfl, c, cs, rfl, by rwa [not_and_or, not_not, not_not] at hc⟩

theorem scanTo_append {a b : List Byte} {c : Byte} (hc : c = 0 ∨ c = stop) :
    ∃ w d, scanTo stop (a ++ c :: b) = some (w, d ++ c :: b) := by
  induction a with
  | nil =>
    refine ⟨[], [], ?_⟩
    rw [List.nil_append, scanTo, if_neg (by rwa [not_and_or, not_not, not_not])]
  | cons x a ih =>
    obtain ⟨w, d, h⟩ := ih
    rw [List.cons_append, scanTo]
    split_ifs
    · exact ⟨x :: w, d, by rw [h]; rfl⟩
    · exact ⟨[], x :: a, rfl⟩

theorem strncmpEq_eq {qs : List Byte} (hq : 0 ∉ qs) :
    strncmpEq qs buf = if qs <+: buf then some true else if buf <+: qs then none else some false := by
  induction qs generalizing buf with
  | nil => rw [strncmpEq, if_pos List.nil_prefix]
  | cons q qs ih =>
    cases buf with
    | nil => rw [strncmpEq, if_neg (by simp), if_pos List.nil_prefix]
    | cons c cs =>
      have hq0 : q ≠ 0 := fun h => hq (h ▸ List.mem_cons_self)
      rw [strncmpEq]
      by_cases hc : c = q
      · subst hc
        rw [if_pos ⟨hq0, rfl⟩, ih fun h => hq (List.mem_cons_of_mem _ h)]
        simp only [List.cons_prefix_cons, true_and]
      · rw [if_neg fun h => hc h.2, if_neg fun h => hc (List.cons_prefix_cons.mp h).1.symm,
          if_neg fun h => hc (List.cons_prefix_cons.mp h).1]

/-- The bytes differ from `GET ` before they end, or have a space or NUL behind it and a newline
or NUL behind that. -/
def Complete (buf : List Byte) : Prop :=
  ¬ bytes "GET " <+: buf ∧ ¬ buf <+: bytes "GET " ∨
    ∃ url c version d rest, buf = bytes "GET " ++ (url ++ c :: (version ++ d :: rest)) ∧
      (c = 0 ∨ c = chr ' ') ∧ (d = 0 ∨ d = chr '\n')

/-- Only the bytes received are read, and the url and the version are parts of them, if and only
if the request is `Complete`. -/
theorem httpRequestParse_iff (buf : List Byte) :
    (∃ r, httpRequestParse buf = some r ∧
      ∀ url version, r = some (url, version) → url <:+: buf ∧ version <:+: buf) ↔ Complete buf := by
  have hget : (0 : Byte) ∉ bytes "GET " := by decide
  rw [httpRequestParse, strncmpEq_eq hget, Complete]
  by_cases hpre : bytes "GET " <+: buf
  · obtain ⟨body, rfl⟩ := hpre
    have hdrop : (bytes "GET " ++ body).drop 4 = body := rfl
    rw [if_pos (List.prefix_append _ _), Option.bind_eq_bind, Option.bind_some, if_neg Bool.noConfusion,
      hdrop]
    constructor
    · rintro ⟨r, hr, -⟩
      obtain ⟨⟨url, rest⟩, hurl, hr⟩ := Option.bind_eq_some_iff.mp hr
      obtain ⟨⟨version, rest'⟩, hver, -⟩ := Option.bind_eq_some_iff.mp hr
      obtain ⟨rfl, c, cs, rfl, hc⟩ := scanTo_eq hurl
      obtain ⟨hcs, d, ds, rfl, hd⟩ := scanTo_eq hver
      exact .inr ⟨url, c, version, d, ds, by rw [← hcs]; rfl, hc, hd⟩
    · rintro (⟨hno, -⟩ | ⟨url, c, version, d, rest, heq, hc, hd⟩)
      · exact absurd (List.prefix_append _ _) hno
      · obtain rfl := List.append_cancel_left heq
        obtain ⟨u, e, hurl⟩ := @scanTo_append _ url (version ++ d :: rest) _ hc
        obtain ⟨a, ha⟩ : ∃ a, (e ++ c :: (version ++ d :: rest)).tail = a ++ d :: rest := by
          cases e with
          | nil => exact ⟨version, rfl⟩
          | cons x e => exact ⟨e ++ c :: version, by simp⟩
        obtain ⟨v, f, hver⟩ := @scanTo_append _ a rest _ hd
        rw [← ha] at hver
        refine ⟨some (u, v), ?_, ?_⟩
        · rw [hurl, Option.bind_eq_bind, Option.bind_some]
          dsimp only
          rw [hver]
          rfl
        rintro _ _ ⟨⟩
        obtain ⟨hbody, c', cs, hrest, -⟩ := scanTo_eq hurl
        obtain ⟨htail, -⟩ := scanTo_eq hver
        rw [hbody]
        refine ⟨⟨bytes "GET ", _, List.append_assoc ..⟩, bytes "GET " ++ u ++ [c'], f ++ d :: rest, ?_⟩
        rw [hrest, List.tail_cons] at htail
        rw [hrest, htail]
        simp
  · rw [if_neg hpre]
    by_cases hshort : buf <+: bytes "GET "
    · rw [if_pos hshort]
      refine iff_of_false (fun h => by obtain ⟨r, hr, -⟩ := h; cases hr) ?_
      rintro (⟨-, hno⟩ | ⟨url, c, version, d, rest, rfl, -⟩)
      · exact hno hshort
      · exact hpre (List.prefix_append _ _)
    · rw [if_neg hshort]
      exact iff_of_true ⟨none, rfl, by rintro _ _ ⟨⟩⟩ (.inl ⟨hpre, hshort⟩)

theorem httpRequestParse_past : httpRequestParse (bytes "GET /") = none := by rfl

end Request

section Descriptors

namespace Httpd

def fdAlloc (fds : Finset Nat) : Option Nat := (List.range 32).find? fun i => i ∉ fds

/-- What the calls made for a request come to: whether bytes were received, whether they are a
request, whether the file server opens the file, the `st_isdir` of `fstat`, whether the header was
sent, and the results of the calls behind it. -/
structure Outcome where
  received : Bool
  request : Bool
  opened : Bool
  fstat : Option Bool
  header : Bool
  size : Int
  contentType : Int
  headerFin : Int
  data : Int
  error : Int

def sendFile (o : Outcome) (fds : Finset Nat) : Option (Int × Finset Nat) :=
  match fdAlloc fds with
  | none => some (o.error, fds)
  | some fd =>
    if o.opened = false then some (o.error, fds)
    else match o.fstat with
      | none => some (o.error, insert fd fds)
      | some true => some (o.error, insert fd fds)
      | some false =>
        if o.header = false then none
        else
          let r :=
            if o.size < 0 then o.size
            else if o.contentType < 0 then o.contentType
            else if o.headerFin < 0 then o.headerFin
            else o.data
          some (r, (insert fd fds).erase fd)

def handleClient (o : Outcome) (sock : Nat) (fds : Finset Nat) : Option (Finset Nat) :=
  if o.received = false then none
  else if o.request = false then some (fds.erase sock)
  else do
    let (_, fds) ← sendFile o fds
    some (fds.erase sock)

def Outcome.Stuck (o : Outcome) (fds : Finset Nat) : Prop :=
  o.request = true ∧ (∃ i < 32, i ∉ fds) ∧ o.opened = true ∧ o.fstat ≠ some false

variable {o : Outcome} {sock : Nat} {fds fds' : Finset Nat}

theorem fdAlloc_eq_some {fd : Nat} (h : fdAlloc fds = some fd) : fd < 32 ∧ fd ∉ fds :=
  ⟨List.mem_range.mp (List.mem_of_find?_eq_some h),
    of_decide_eq_true (List.find?_some (p := fun i => decide (i ∉ fds)) h)⟩

theorem fdAlloc_eq_none (h : fdAlloc fds = none) : ¬ ∃ i < 32, i ∉ fds := by
  rintro ⟨i, hi, hfree⟩
  exact List.find?_eq_none.mp h i (List.mem_range.mpr hi) (decide_eq_true hfree)

theorem sendFile_cases {r : Int} (hreq : o.request = true) (h : sendFile o fds = some (r, fds')) :
    (¬ o.Stuck fds ∧ fds' = fds) ∨ (o.Stuck fds ∧ ∃ fd ∉ fds, fds' = insert fd fds) := by
  rw [sendFile] at h
  cases hfd : fdAlloc fds with
  | none =>
    rw [hfd] at h
    cases h
    exact .inl ⟨fun hs => fdAlloc_eq_none hfd hs.2.1, rfl⟩
  | some fd =>
    obtain ⟨hlt, hfree⟩ := fdAlloc_eq_some hfd
    rw [hfd] at h
    dsimp only at h
    cases hopen : o.opened with
    | false =>
      rw [hopen, if_pos rfl] at h
      cases h
      exact .inl ⟨fun hs => Bool.false_ne_true (hopen.symm.trans hs.2.2.1), rfl⟩
    | true =>
      rw [hopen, if_neg (Bool.false_ne_true ∘ Eq.symm)] at h
      cases hstat : o.fstat with
      | none =>
        rw [hstat] at h
        cases h
        exact .inr ⟨⟨hreq, ⟨fd, hlt, hfree⟩, hopen, by rw [hstat]; decide⟩, fd, hfree, rfl⟩
      | some isdir =>
        rw [hstat] at h
        cases isdir with
        | true =>
          cases h
          exact .inr ⟨⟨hreq, ⟨fd, hlt, hfree⟩, hopen, by rw [hstat]; decide⟩, fd, hfree, rfl⟩
        | false =>
          refine .inl ⟨fun hs => hs.2.2.2 hstat, ?_⟩
          dsimp only at h
          split at h
          · cases h
          · cases h
            exact Finset.erase_insert hfree

/-- A request leaves the descriptors as they were, without the client's, just if it opens no file
that is not there to send. -/
theorem handleClient_closes_iff (hsock : sock ∈ fds) (h : handleClient o sock fds = some fds') :
    fds' = fds.erase sock ↔ ¬ o.Stuck fds := by
  rw [handleClient] at h
  split at h
  · cases h
  split at h
  next _ hreq =>
    cases h
    exact iff_of_true rfl fun hs => Bool.false_ne_true (hreq.symm.trans hs.1)
  next _ hreq =>
    obtain ⟨⟨r, mid⟩, hfile, hmid⟩ := Option.bind_eq_some_iff.mp h
    cases hmid
    obtain ⟨hok, rfl⟩ | ⟨hstuck, fd, hfree, rfl⟩ := sendFile_cases (Bool.eq_true_of_not_eq_false hreq) hfile
    · exact iff_of_true rfl hok
    · refine iff_of_false (fun heq => hfree ?_) (not_not.mpr hstuck)
      have hne : fd ≠ sock := by
        rintro rfl
        exact hfree hsock
      have hmem : fd ∈ (insert fd fds).erase sock :=
        Finset.mem_erase.mpr ⟨hne, Finset.mem_insert_self fd fds⟩
      rw [heq] at hmem
      exact Finset.mem_of_mem_erase hmem

def Outcome.found (isdir : Bool) : Outcome where
  received := true
  request := true
  opened := true
  fstat := some isdir
  header := true
  size := 0
  contentType := 0
  headerFin := 0
  data := 0
  error := 0

theorem handleClient_closes_file :
    handleClient (.found false) 4 {3, 4} = some {3} ∧
      (({3} : Finset Nat) = ({3, 4} : Finset Nat).erase 4 ↔ ¬ (Outcome.found false).Stuck {3, 4}) := by
  have h : handleClient (.found false) 4 {3, 4} = some {3} := by decide
  exact ⟨h, handleClient_closes_iff (by decide) h⟩

theorem handleClient_directory :
    handleClient (.found true) 4 {3, 4} = some {0, 3} ∧
      ({0, 3} : Finset Nat) ≠ ({3, 4} : Finset Nat).erase 4 := by
  decide

end Httpd

end Descriptors

end Jos.User
