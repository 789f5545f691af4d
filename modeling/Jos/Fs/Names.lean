import Jos.Fs.ReadWrite
import Mathlib.Data.List.Find

/-! Directories: the names in their blocks, and what the searches of `dir_lookup` and
`dir_alloc_file` come back with. -/

namespace Jos.Fs

open Kern Lib Cache

variable {D : Prop} {s t u : Cache} {A : Set Label} {a b c d g i j k n : Nat} {name : List Byte}
  {js : List Nat} {m m' : Lib.Image}

def nameIs (m : Lib.Image) (a : Nat) : List Byte → Bool
  | [] => m a == 0
  | x :: xs => m a == x && nameIs m (a + 1) xs

def entry (b j : Nat) : Nat := b * blksize + filesize * j

def findIn (m : Lib.Image) (name : List Byte) (b : Nat) : Option Nat :=
  ((List.range blkfiles).find? fun j => nameIs m (entry b j) name).map (entry b)

/-- A search for the name ends at block `i` of the directory.  A block that is missing counts as
one of entries without a name. -/
def hit (m : Lib.Image) (d : Nat) (name : List Byte) (i : Nat) : Bool :=
  match blockOf m d i with
  | some b => (findIn m name b).isSome
  | none => name.isEmpty

section Pure

theorem hit_of_some (hb : blockOf m d i = some b) : hit m d name i = (findIn m name b).isSome := by
  rw [hit, hb]

theorem hit_of_none (hb : blockOf m d i = none) : hit m d name i = name.isEmpty := by
  rw [hit, hb]

theorem nameIs_congr (h : ∀ y, y ≤ name.length → m' (a + y) = m (a + y)) :
    nameIs m' a name = nameIs m a name := by
  induction name generalizing a with
  | nil =>
    rw [nameIs, nameIs, ← Nat.add_zero a, h 0 (Nat.le_refl _)]
  | cons x xs ih =>
    rw [nameIs, nameIs, ih fun y hy => ?_, ← Nat.add_zero a, h 0 (Nat.zero_le _)]
    · have := h (y + 1) (Nat.succ_le_succ hy)
      rwa [Nat.add_comm y 1, ← Nat.add_assoc] at this

theorem entry_div (hj : j < blkfiles) (hy : k < filesize) : (entry b j + k) / blksize = b := by
  rw [blkfiles, blksize, filesize] at hj
  rw [filesize] at hy
  rw [entry, blksize, filesize]
  omega

theorem findIn_congr (h : ∀ j, j < blkfiles → nameIs m' (entry b j) name = nameIs m (entry b j) name) :
    findIn m' name b = findIn m name b := by
  rw [findIn, findIn]
  congr 1
  exact List.find?_congr fun j hj => h j (List.mem_range.1 hj)

theorem findIn_eq_some (h : findIn m name b = some a) : ∃ j, j < blkfiles ∧ a = entry b j ∧
    nameIs m a name = true ∧ ∀ j', j' < j → nameIs m (entry b j') name = false := by
  obtain ⟨j, hj, rfl⟩ := Option.map_eq_some_iff.1 h
  obtain ⟨hname, hmem, hno⟩ := List.find?_range_eq_some.1 hj
  refine ⟨j, List.mem_range.1 hmem, rfl, hname, fun j' hj' => ?_⟩
  rw [← Bool.not_eq_true']
  exact hno j' hj'

theorem findIn_eq_none : findIn m name b = none ↔ ∀ j, j < blkfiles → nameIs m (entry b j) name = false := by
  rw [findIn, Option.map_eq_none_iff, List.find?_eq_none]
  simp only [List.mem_range, Bool.not_eq_true]

end Pure

section Search

theorem strEq_wp (h : Up D s) (hb : ∀ y, y ≤ name.length → D ∨ s.Served ((a + y) / blksize)) :
    Wp D (strEq a name) s fun r t => Loads s t ∧ r = nameIs s.view a name := by
  induction name generalizing s a with
  | nil =>
    have h0 : D ∨ s.Served (a / blksize) := hb 0 (Nat.le_refl _)
    refine .bind ((load_wp h.super_mapped h0).mono fun c t ht => .pure ⟨ht.1, ?_⟩)
    rw [ht.2, nameIs]
  | cons x xs ih =>
    have h0 : D ∨ s.Served (a / blksize) := hb 0 (Nat.zero_le _)
    refine .bind ((load_wp h.super_mapped h0).mono fun c t ht => ?_)
    obtain ⟨ht, rfl⟩ := ht
    refine .ite (fun hx => ?_) fun hx => .pure ⟨ht, ?_⟩
    · refine (ih (h.loads ht) fun y hy => ?_).mono fun r u hu => ⟨ht.trans hu.1, ?_⟩
      · have := hb (y + 1) (Nat.succ_le_succ hy)
        rw [Nat.add_comm y 1, ← Nat.add_assoc] at this
        exact this.imp id fun hs => hs.loads ht
      · rw [hu.2, ht.view, nameIs, hx, Bool.true_and]
    · rw [nameIs, Bool.eq_false_of_not_eq_true hx, Bool.false_and]

theorem scanBlock_wp (h : Up D s) (hb : D ∨ s.Served b) (hlen : name.length < maxnamelen)
    (hjs : ∀ j ∈ js, j < blkfiles) :
    Wp D (scanBlock (strEq · name) (b * blksize) js) s fun r t => Loads s t ∧
      r = (js.find? fun j => nameIs s.view (entry b j) name).map (entry b) := by
  induction js generalizing s with
  | nil => exact .pure ⟨.refl, rfl⟩
  | cons j js ih =>
    have hj := hjs j (List.mem_cons_self)
    refine .bind ((strEq_wp h fun y hy => ?_).mono fun r t ht => ?_)
    · rw [← entry, entry_div hj]
      · exact hb
      · rw [maxnamelen] at hlen
        rw [filesize]
        omega
    · obtain ⟨ht, rfl⟩ := ht
      rw [← entry, List.find?_cons]
      refine .ite (fun hx => .pure ⟨ht, ?_⟩) fun hx => ?_
      · rw [hx]
        rfl
      · rw [Bool.eq_false_of_not_eq_true hx]
        refine (ih (h.loads ht) (hb.imp id fun hs => hs.loads ht) fun j hj =>
          hjs j (List.mem_cons_of_mem _ hj)).mono fun r u hu => ⟨ht.trans hu.1, ?_⟩
        rw [hu.2, ht.view]

end Search

section Kept

theorem node_entry (hd : Node m d) (htype : m.word (fType d) = ftypeDir)
    (hb : blockOf m d i = some b) (hj : j < blkfiles) : Node m (entry b j) := .entry hd htype hb hj

theorem entry_inj {b' j' : Nat} (hj : j < blkfiles) (hj' : j' < blkfiles)
    (h : entry b j = entry b' j') : b = b' ∧ j = j' := by
  rw [blkfiles, blksize, filesize] at hj hj'
  rw [entry, entry, blksize, filesize] at h
  omega

theorem node_entry_cases (hj : j < blkfiles) (h : Node m (entry b j)) :
    ∃ d i, Node m d ∧ m.word (fType d) = ftypeDir ∧ blockOf m d i = some b := by
  generalize ha : entry b j = a at h
  cases h with
  | root =>
    rw [entry, blksize, filesize, sRoot, blksize] at ha
    omega
  | @entry d i b' j' hd htype hb hj' =>
    obtain ⟨rfl, -⟩ := entry_inj hj hj' ha
    exact ⟨d, i, hd, htype, hb⟩

variable (h : Steps A s t) (hs : Ready D s) (hd : Node s.view d)
  (htype : s.view.word (fType d) = ftypeDir) (hr : ∀ g, s.view.word (fType g) = ftypeDir → .resize g ∉ A)
  (hn : ∀ g, .name g ∉ A) (hlen : name.length < maxnamelen)
include h hs hd htype hn hlen

theorem findIn_of_steps (hb : blockOf s.view d i = some b) : findIn t.view name b = findIn s.view name b := by
  refine findIn_congr fun j hj => nameIs_congr fun y hy => ?_
  exact h.name hs (node_entry hd htype hb hj) (Nat.lt_of_le_of_lt hy hlen) (hn _)

include hr

theorem nameIs_new (hz : 0 ∉ name) (h0 : blockOf s.view d i = none) (hb : blockOf t.view d i = some b)
    (hj : j < blkfiles) : nameIs t.view (entry b j) name = name.isEmpty := by
  have ht := h.ready hs
  have hdt := h.node hs hd
  have hnot : ¬ Node s.view (entry b j) := by
    intro hnode
    obtain ⟨d', i', hd', htype', hb'⟩ := node_entry_cases hj hnode
    obtain ⟨rfl, rfl⟩ := ht.owned.block_inj hdt (h.node hs hd') hb
      (h.block hs hd' (hr d' htype') hb')
    rw [h0] at hb'
    cases hb'
  have hzero : t.view (entry b j) = 0 := by
    have := h.blank hs (y := 0) (node_entry hdt ((h.type hs hd).trans htype) hb hj) hnot (by decide)
      (hn _)
    rwa [Nat.add_zero] at this
  cases name with
  | nil =>
    rw [nameIs, hzero]
    rfl
  | cons x xs =>
    have hx : (0 == x) = false := by
      rw [beq_eq_false_iff_ne]
      rintro rfl
      exact hz List.mem_cons_self
    rw [nameIs, hzero, hx]
    rfl

theorem hit_of_steps (hz : 0 ∉ name) : hit t.view d name i = hit s.view d name i := by
  cases hb : blockOf s.view d i with
  | some b =>
    rw [hit_of_some hb, hit_of_some (h.block hs hd (hr d htype) hb),
      findIn_of_steps h hs hd htype hn hlen hb]
  | none =>
    rw [hit_of_none hb]
    cases hb' : blockOf t.view d i with
    | none => exact hit_of_none hb'
    | some b =>
      rw [hit_of_some hb']
      have hnew := fun j hj => nameIs_new h hs hd htype hr hn hlen hz hb hb' (j := j) hj
      cases hempty : name.isEmpty with
      | false =>
        rw [hempty] at hnew
        rw [findIn_eq_none.2 hnew]
        rfl
      | true =>
        rw [← Bool.not_eq_false, Option.isSome_eq_false_iff, Option.isNone_iff_eq_none]
        intro hnone
        have := findIn_eq_none.1 hnone 0 (by decide)
        rw [hnew 0 (by decide), hempty] at this
        cases this

end Kept

structure Scanned (d i n : Nat) (s t : Cache) : Prop where
  steps : Steps {.quiet, .grow d} s t
  free : freeCount t.view + need s.view d i n = freeCount s.view
  there : ∀ k, i ≤ k → k < i + n → blockOf t.view d k ≠ none
  idle : need s.view d i n = 0 → Loads s t

theorem Scanned.refl : Scanned d i 0 s s :=
  ⟨.refl, rfl, fun k hk hk' => by omega, fun _ => .refl⟩

theorem Fetched.scanned (h : Fetched d i b s t) (hl : Loads t u) : Scanned d i 1 s u where
  steps := h.steps.trans (.loads (.inl rfl) hl)
  free := hl.view.symm ▸ h.free
  there k hk hk' := by
    obtain rfl : k = i := by omega
    rw [hl.view, h.block]
    exact Option.some_ne_none b
  idle h0 := (h.idle (need_eq_zero.1 h0 i (Nat.le_refl i) (Nat.lt_succ_self i))).trans hl

theorem Fetched.scanned_cons {v : Cache} (h : Fetched d i b s t) (hl : Loads t u) (hs : Ready D s)
    (hd : Node s.view d) (h' : Scanned d (i + 1) n u v) : Scanned d i (n + 1) s v := by
  obtain ⟨hneed, hfree⟩ := h.need (n := n) (j := i + 1) hl (.inr rfl)
  have hfirst := h.scanned hl
  have hu := hfirst.steps.ready hs
  have hfree' := h'.free
  refine ⟨hfirst.steps.trans h'.steps, by omega, fun k hk hk' => ?_, fun h0 => ?_⟩
  · by_cases hki : k = i
    · obtain ⟨c, hc⟩ := Option.ne_none_iff_exists'.1 (hfirst.there i (Nat.le_refl i) (Nat.lt_succ_self i))
      rw [hki, h'.steps.block hu (hfirst.steps.node hs hd) (by simp) hc]
      exact Option.some_ne_none c
    · exact h'.there k (by omega) (by omega)
  · exact (hfirst.idle (by omega)).trans (h'.idle (by omega))

def Searched (d : Nat) (name : List Byte) (i n : Nat) (s : Cache) (r : Except Word (Option Nat))
    (t : Cache) : Prop :=
  match r with
  | .ok none => (∀ k, k < n → hit s.view d name (i + k) = false) ∧ Scanned d i n s t
  | .ok (some a) => ∃ k b, k < n ∧ (∀ k', k' < k → hit s.view d name (i + k') = false) ∧
      hit s.view d name (i + k) = true ∧ blockOf t.view d (i + k) = some b ∧
      findIn t.view name b = some a ∧ Scanned d i (k + 1) s t
  | .error e => e = -eNoDisk ∧ ∃ k, k < n ∧ (∀ k', k' < k → hit s.view d name (i + k') = false) ∧
      freeCount s.view < need s.view d i (k + 1) ∧ freeCount t.view = 0 ∧ Steps {.quiet, .grow d} s t

theorem Scanned.of_loads (hl : Loads s t) (h : Scanned d i n t u) : Scanned d i n s u where
  steps := .trans (.loads (.inl rfl) hl) h.steps
  free := hl.view ▸ h.free
  there := h.there
  idle h0 := hl.trans (h.idle (hl.view.symm ▸ h0))

theorem Searched.of_loads {r : Except Word (Option Nat)} (hl : Loads s t) (h : Searched d name i n t r u) :
    Searched d name i n s r u := by
  match r, h with
  | .ok none, ⟨hall, hscan⟩ => exact ⟨hl.view ▸ hall, hscan.of_loads hl⟩
  | .ok (some a), ⟨k, b, hk, hall, hhit, hb, ha, hscan⟩ =>
    exact ⟨k, b, hk, hl.view ▸ hall, hl.view ▸ hhit, hb, ha, hscan.of_loads hl⟩
  | .error e, ⟨he, k, hk, hall, hfree, h0, hsteps⟩ =>
    exact ⟨he, k, hk, hl.view ▸ hall, hl.view ▸ hfree, h0, .trans (.loads (.inl rfl) hl) hsteps⟩

theorem Searched.cons {v : Cache} {r : Except Word (Option Nat)} (h : Fetched d i b s t) (hl : Loads t u)
    (hs : Ready D s) (hd : Node s.view d) (hkept : ∀ k, hit u.view d name k = hit s.view d name k)
    (hno : hit s.view d name i = false) (h' : Searched d name (i + 1) n u r v) :
    Searched d name i (n + 1) s r v := by
  have hfirst := h.scanned hl
  have hshift : ∀ k, i + 1 + k = i + (k + 1) := fun k => by omega
  have hnone : ∀ {k}, (∀ k', k' < k → hit u.view d name (i + 1 + k') = false) →
      ∀ k', k' < k + 1 → hit s.view d name (i + k') = false := by
    intro k hall k' hk'
    cases k' with
    | zero => exact hno
    | succ k' =>
      rw [← hshift, ← hkept]
      exact hall k' (by omega)
  match r, h' with
  | .ok none, ⟨hall, hscan⟩ => exact ⟨hnone hall, h.scanned_cons hl hs hd hscan⟩
  | .ok (some a), ⟨k, c, hk, hall, hhit, hc, ha, hscan⟩ =>
    rw [hshift] at hc
    rw [hkept, hshift] at hhit
    exact ⟨k + 1, c, by omega, hnone hall, hhit, hc, ha, h.scanned_cons hl hs hd hscan⟩
  | .error e, ⟨he, k, hk, hall, hfree, h0, hsteps⟩ =>
    obtain ⟨hneed, hfree'⟩ := h.need (n := k + 1) (j := i + 1) hl (.inr rfl)
    exact ⟨he, k + 1, by omega, hnone hall, by omega, h0, hfirst.steps.trans hsteps⟩

theorem scanDir_wp (hs : Ready D s) (hd : Node s.view d) (htype : s.view.word (fType d) = ftypeDir)
    (hlen : name.length < maxnamelen) (hz : 0 ∉ name)
    (hroom : ∀ k, k < i + n → k * blksize < (s.view.word (fSize d)).toNat) :
    Wp D (scanDir (strEq · name) d (List.range' i n)).run s (Searched d name i n s) := by
  induction n generalizing s i with
  | zero => exact .pureE ⟨fun k hk => absurd hk (Nat.not_lt_zero k), .refl⟩
  | succ n ih =>
    have hmax := hs.sized d hd
    have hi : i < ndirect + nindirect := by
      have := hroom i (by omega)
      rw [maxfilesize] at hmax
      exact Nat.lt_of_mul_lt_mul_right (Nat.lt_of_lt_of_le this hmax)
    rw [List.range'_succ]
    refine .bindE ((fileGetBlock_wp hs hd hi (hroom i (by omega))).mono fun r t hr => ?_)
    cases r with
    | error e =>
      obtain ⟨he, hfree, hsteps, h0, -⟩ := hr
      exact ⟨he, 0, Nat.succ_pos n, fun k' hk' => absurd hk' (Nat.not_lt_zero k'), hfree, h0, hsteps⟩
    | ok blk =>
      obtain ⟨b, rfl, hb⟩ := hr
      have ht := hb.steps.ready hs
      have hserved := hb.served hs hd (mul_div_blksize b)
      rw [mul_div_blksize] at hserved
      refine .bindL ((scanBlock_wp ht.up hserved hlen fun j hj => List.mem_range.1 hj).mono
        fun r u hu => ?_)
      obtain ⟨hl, rfl⟩ := hu
      rw [← findIn]
      have hscan := hb.scanned hl
      have hkept : ∀ k, hit u.view d name k = hit s.view d name k := fun k =>
        hit_of_steps hscan.steps hs hd htype (by simp) (by simp) hlen hz
      have hhit : hit s.view d name i = (findIn t.view name b).isSome := by
        rw [← hkept, hl.view, hit_of_some hb.block]
      cases hfind : findIn t.view name b with
      | some a =>
        rw [hfind] at hhit
        refine .pureE ⟨0, b, Nat.succ_pos n, fun k' hk' => absurd hk' (Nat.not_lt_zero k'), hhit, ?_, ?_,
          hscan⟩
        · rw [hl.view]
          exact hb.block
        · rw [hl.view]
          exact hfind
      | none =>
        rw [hfind] at hhit
        have hu := hscan.steps.ready hs
        have hsize := hscan.steps.sizeOf_grow hs hd
        refine (ih hu (hscan.steps.node hs hd) ((hscan.steps.type hs hd).trans htype) fun k hk => ?_).mono
          fun r v hr => .cons hb hl hs hd hkept hhit hr
        rw [hsize]
        exact hroom k (by omega)

section Lookup

def dirSize (m : Lib.Image) (d : Nat) : Nat := (m.word (fSize d)).toNat / blksize

def firstHit (m : Lib.Image) (d : Nat) (name : List Byte) : Option Nat :=
  (List.range (dirSize m d)).find? (hit m d name)

def looked (m : Lib.Image) (d : Nat) (name : List Byte) : Nat :=
  match firstHit m d name with
  | some i => i + 1
  | none => dirSize m d

def lookup (m : Lib.Image) (d : Nat) (name : List Byte) : Option Nat :=
  (firstHit m d name).bind fun i => (blockOf m d i).bind (findIn m name)

theorem firstHit_eq_some : firstHit m d name = some i ↔ i < dirSize m d ∧
    hit m d name i = true ∧ ∀ k, k < i → hit m d name k = false := by
  rw [firstHit, List.find?_range_eq_some, List.mem_range]
  simp only [Bool.not_eq_true', and_left_comm]

theorem firstHit_eq_none : firstHit m d name = none ↔ ∀ k, k < dirSize m d → hit m d name k = false := by
  rw [firstHit, List.find?_eq_none]
  simp only [List.mem_range, Bool.not_eq_true]

theorem looked_of_hit (hi : firstHit m d name = some i) : looked m d name = i + 1 := by
  rw [looked, hi]

theorem looked_of_none (h : firstHit m d name = none) : looked m d name = dirSize m d := by
  rw [looked, h]

theorem lt_looked (hk : k < dirSize m d) (h : ∀ k', k' < k → hit m d name k' = false) :
    k < looked m d name := by
  rw [looked]
  split
  · next i hi =>
    obtain ⟨-, hhit, -⟩ := firstHit_eq_some.1 hi
    by_contra hge
    rw [h i (by omega)] at hhit
    cases hhit
  · exact hk

theorem mul_lt_of_lt_dirSize (hk : k < dirSize m d) : k * blksize < (m.word (fSize d)).toNat := by
  rw [dirSize, blksize] at hk
  rw [blksize]
  omega

theorem dirBlocks_wp (h : Ready D s) (hd : Node s.view d) (htype : s.view.word (fType d) = ftypeDir) :
    Wp D (dirBlocks d) s fun n t => Loads s t ∧ n = dirSize s.view d ∧
      (s.view.word (fSize d)).toNat % blksize = 0 := by
  have hlt := lt_of_le_maxfilesize (h.sized d hd)
  refine .bind ((h.loadWord_node hd (by decide) (by decide)).mono fun size t ht => ?_)
  obtain ⟨ht, rfl⟩ := ht
  refine .bind (.require (fun hmod => .pure ⟨ht, toNat_sdiv_block hlt, hmod⟩) fun hmod => ?_)
  exact h.live.resolve_right fun hl => hmod (hl.2 d hd htype)

theorem dirLookup_wp (hs : Ready D s) (hd : Node s.view d) (htype : s.view.word (fType d) = ftypeDir)
    (hlen : name.length < maxnamelen) (hz : 0 ∉ name) (hne : name ≠ []) :
    Wp D (dirLookup d name).run s fun r t =>
      if need s.view d 0 (looked s.view d name) ≤ freeCount s.view then
        Scanned d 0 (looked s.view d name) s t ∧
          r = match lookup s.view d name with
            | some a => .ok a
            | none => .error (-eNotFound)
      else
        Steps {.quiet, .grow d} s t ∧ freeCount t.view = 0 ∧ r = .error (-eNoDisk) := by
  refine .bindL ((dirBlocks_wp hs hd htype).mono fun n t ht => ?_)
  obtain ⟨hl, rfl, -⟩ := ht
  have hr := hs.loads hl
  rw [List.range_eq_range']
  refine .bindE ((scanDir_wp hr (hl.view.symm ▸ hd) (hl.view.symm ▸ htype) hlen hz fun k hk => ?_).mono
    fun r u hu => ?_)
  · rw [hl.view]
    exact mul_lt_of_lt_dirSize (by omega)
  match r, hu.of_loads hl with
  | .ok none, ⟨hall, hscan⟩ =>
    have hnone := firstHit_eq_none.2 fun k hk => (Nat.zero_add k ▸ hall k hk)
    have hfree := hscan.free
    refine .throwE ?_
    rw [looked_of_none hnone, lookup, hnone, if_pos (by omega)]
    exact ⟨hscan, rfl⟩
  | .ok (some a), ⟨k, b, hk, hall, hhit, hb, ha, hscan⟩ =>
    rw [Nat.zero_add] at hhit hb
    have hfirst := firstHit_eq_some.2 ⟨hk, hhit, fun k' hk' => (Nat.zero_add k' ▸ hall k' hk')⟩
    have hfree := hscan.free
    refine .pureE ?_
    rw [looked_of_hit hfirst, lookup, hfirst, if_pos (by omega)]
    refine ⟨hscan, ?_⟩
    -- the block was there before, since a new one has no names
    cases hc : blockOf s.view d k with
    | none =>
      rw [hit_of_none hc, List.isEmpty_iff] at hhit
      exact absurd hhit hne
    | some c =>
      obtain rfl : c = b := Option.some.inj ((hscan.steps.block hs hd (by simp) hc).symm.trans hb)
      rw [findIn_of_steps hscan.steps hs hd htype (by simp) hlen hc] at ha
      rw [Option.bind_some, hc, Option.bind_some, ha]
  | .error e, ⟨he, k, hk, hall, hfree, h0, hsteps⟩ =>
    have hlt := lt_looked hk fun k' hk' => (Nat.zero_add k' ▸ hall k' hk')
    have hneed := need_mono (m := s.view) (f := d) (i := 0) (show k + 1 ≤ looked s.view d name from hlt)
    dsimp only
    rw [if_neg (by omega)]
    exact ⟨hsteps, h0, congrArg _ he⟩

variable (h : Steps A s t) (hs : Ready D s) (hd : Node s.view d)
  (htype : s.view.word (fType d) = ftypeDir) (hr : ∀ g, s.view.word (fType g) = ftypeDir → .resize g ∉ A)
  (hn : ∀ g, .name g ∉ A) (he : .enlarge d ∉ A) (hlen : name.length < maxnamelen) (hz : 0 ∉ name)
include h hs hd htype hr he

theorem dirSize_of_steps : dirSize t.view d = dirSize s.view d := by
  rw [dirSize, dirSize, h.size hs hd he (hr d htype)]

include hn hlen hz

theorem firstHit_of_steps : firstHit t.view d name = firstHit s.view d name := by
  rw [firstHit, firstHit, dirSize_of_steps h hs hd htype hr he]
  exact List.find?_congr fun i _ => hit_of_steps h hs hd htype hr hn hlen hz

theorem looked_of_steps : looked t.view d name = looked s.view d name := by
  rw [looked, looked, firstHit_of_steps h hs hd htype hr hn he hlen hz,
    dirSize_of_steps h hs hd htype hr he]

theorem lookup_of_steps (hne : name ≠ []) : lookup t.view d name = lookup s.view d name := by
  rw [lookup, lookup, firstHit_of_steps h hs hd htype hr hn he hlen hz]
  cases hi : firstHit s.view d name with
  | none => rfl
  | some i =>
    rw [Option.bind_some, Option.bind_some]
    cases hb : blockOf s.view d i with
    | none =>
      have hhit := (firstHit_eq_some.1 hi).2.1
      rw [hit_of_none hb, List.isEmpty_iff] at hhit
      exact absurd hhit hne
    | some b =>
      rw [h.block hs hd (hr d htype) hb, Option.bind_some, Option.bind_some,
        findIn_of_steps h hs hd htype hn hlen hb]

end Lookup

end Jos.Fs
