import Jos.Fs.Truncate

/-! The loops of `file_read` and `file_write` on a sane server, at positions a file can have. -/

namespace Jos.Fs

open Kern Lib Cache

variable {D : Prop} {s t u : Cache} {A : Set Label} {a b c f g i j k n x : Nat}

def span (pos stop : Nat) : Nat := if pos < stop then blocksFor stop - pos / 4096 else 0

section Positions

variable {pos stop : Word}

theorem toNat_sdiv_block (h : pos.toNat < 2 ^ 31) : (pos.sdiv 4096).toNat = pos.toNat / 4096 := by
  have hmsb : pos.msb = false := by
    rw [BitVec.msb_eq_false_iff_two_mul_lt]
    omega
  rw [BitVec.sdiv_eq, hmsb, show (4096 : Word).msb = false from rfl, BitVec.udiv_eq,
    BitVec.toNat_udiv]
  rfl

theorem toNat_srem_block (h : pos.toNat < 2 ^ 31) : (pos.srem 4096).toNat = pos.toNat % 4096 := by
  have hmsb : pos.msb = false := by
    rw [BitVec.msb_eq_false_iff_two_mul_lt]
    omega
  rw [BitVec.srem_eq, hmsb, show (4096 : Word).msb = false from rfl]
  exact BitVec.toNat_umod

theorem toNat_chunk (h : pos.toNat < stop.toNat) (hs : stop.toNat < 2 ^ 31) :
    (chunk pos stop).toNat = min (4096 - pos.toNat % 4096) (stop.toNat - pos.toNat) := by
  have hrem : (pos.srem 4096).toNat = pos.toNat % 4096 := toNat_srem_block (by omega)
  have hsub : (4096 - pos.srem 4096).toNat = 4096 - pos.toNat % 4096 := by
    rw [BitVec.toNat_sub_of_le, hrem]
    · rfl
    · rw [BitVec.le_def, hrem]
      exact Nat.le_of_lt (Nat.mod_lt _ (by decide))
  have hsub' : (stop - pos).toNat = stop.toNat - pos.toNat :=
    BitVec.toNat_sub_of_le (BitVec.le_def.2 (Nat.le_of_lt h))
  rw [chunk]
  split
  · next hle =>
    rw [BitVec.le_def, hsub, hsub'] at hle
    rw [hsub]
    omega
  · next hle =>
    rw [BitVec.le_def, hsub, hsub'] at hle
    rw [hsub']
    omega

theorem inBlock_eq (h : pos.toNat < 2 ^ 31) : inBlock a pos = a + pos.toNat % 4096 := by
  have hrem := toNat_srem_block h
  have hlt := Nat.mod_lt pos.toNat (show 0 < 4096 by decide)
  rw [inBlock, BitVec.toInt_eq_toNat_of_lt (by omega), hrem]
  rfl

theorem toNat_add_chunk (h : pos.toNat < stop.toNat) (hs : stop.toNat < 2 ^ 31) :
    (pos + chunk pos stop).toNat = pos.toNat + (chunk pos stop).toNat := by
  have := toNat_chunk h hs
  rw [BitVec.toNat_add]
  omega

end Positions

theorem loadBytes_wp (h : Up D s) (hb : ∀ x, a ≤ x → x < a + n → D ∨ s.Served (x / blksize)) :
    Wp D (loadBytes a n) s fun bs t => Loads s t ∧ bs = (List.range n).map fun i => s.view (a + i) := by
  refine .bind ((touch_all_wp h.super_mapped fun b hb' => ?_).mono fun _ t ht => ?_)
  · obtain ⟨x, hx, hx', rfl⟩ := mem_blocksOf.1 hb'
    exact hb x hx hx'
  · refine .bind (.get (.pure ⟨ht.1, List.map_congr_left fun i hi => ?_⟩))
    have hm := ht.2 _ (mem_blocksOf.2 ⟨a + i, by omega, by
      have := List.mem_range.1 hi
      omega, rfl⟩)
    rw [← ht.1.view, view_of_mapped hm]

theorem Fetched.served (h : Fetched f i b s t) (hs : Ready D s) (hf : Node s.view f)
    (hx : x / blksize = b) : D ∨ t.Served (x / blksize) := by
  have ht := h.steps.ready hs
  obtain ⟨a, ha, hab⟩ := blockOf_eq_some.1 h.block
  rw [hx]
  exact ht.served_ptr (.slot (h.steps.node hs hf) ha) hab

theorem span_of_lt {pos stop : Nat} (h : pos < stop) : span pos stop = blocksFor stop - pos / 4096 :=
  if_pos h

theorem span_succ {pos stop pos' : Nat} (h : pos < stop)
    (hpos : pos' = pos + min (4096 - pos % 4096) (stop - pos)) :
    span pos stop = span pos' stop + 1 ∧ (pos' < stop → pos' / 4096 = pos / 4096 + 1) := by
  rw [span_of_lt h, span, blocksFor]
  split
  all_goals omega

theorem lt_of_size (h : n < c) (hc : c ≤ maxfilesize) :
    c < 2 ^ 31 ∧ n / 4096 < ndirect + nindirect ∧ n / 4096 * blksize < c := by
  rw [maxfilesize, ndirect, nindirect, blksize] at hc
  rw [ndirect, nindirect, blksize]
  omega

theorem Fetched.need (h : Fetched f i b s t) (hl : Loads t u) (hn : n = 0 ∨ j = i + 1) :
    need s.view f i (n + 1) = need s.view f i 1 + need u.view f j n ∧
      freeCount u.view + need s.view f i 1 = freeCount s.view := by
  rw [hl.view]
  refine ⟨?_, h.free⟩
  have hsucc := need_succ (n := n) (fun j hj => h.other j (by omega)) h.indirect
  obtain rfl | rfl := hn
  · rw [hsucc]
    rfl
  · exact hsucc

theorem Steps.sizeOf_grow (h : Steps {.quiet, .grow f} s t) (hs : Ready D s) (hf : Node s.view f) :
    t.view.word (fSize f) = s.view.word (fSize f) := h.size hs hf (by simp) (by simp)

theorem Fetched.bytes (h : Fetched f i b s t) (hs : Ready D s) (hf : Node s.view f)
    (hi : x / 4096 = i) (hk : x % 4096 + k < 4096) :
    t.view (b * blksize + x % 4096 + k) = fileByte s.view f (x + k) := by
  have hxk : (x + k) / blksize = i := by
    rw [blksize]
    omega
  have hk' : b * blksize + x % 4096 + k = b * blksize + (x + k) % blksize := by
    rw [blksize]
    omega
  rw [← h.steps.fileByte_grow hs hf, fileByte_of_some (hxk ▸ h.block), hk']

theorem fileReadFrom_wp {pos stop : Word} (h : Ready D s) (hf : Node s.view f)
    (hle : pos.toNat ≤ stop.toNat) (hsize : stop.toNat ≤ (s.view.word (fSize f)).toNat)
    (hn : stop.toNat ≤ pos.toNat + n) :
    Wp D (fileReadFrom f stop n pos).run s fun r t => Steps {.quiet, .grow f} s t ∧
      (need s.view f (pos.toNat / 4096) (span pos.toNat stop.toNat) = 0 → Loads s t) ∧
      match r with
      | .ok bytes =>
        bytes = (List.range' pos.toNat (stop.toNat - pos.toNat)).map (fileByte s.view f) ∧
        freeCount t.view + need s.view f (pos.toNat / 4096) (span pos.toNat stop.toNat) =
          freeCount s.view
      | .error e => e = -eNoDisk ∧
        freeCount s.view < need s.view f (pos.toNat / 4096) (span pos.toNat stop.toNat) := by
  have hdone : stop.toNat ≤ pos.toNat → stop.toNat - pos.toNat = 0 ∧
      need s.view f (pos.toNat / 4096) (span pos.toNat stop.toNat) = 0 := by
    intro hge
    rw [span, if_neg (Nat.not_lt.2 hge)]
    exact ⟨by omega, rfl⟩
  induction n generalizing s pos with
  | zero =>
    obtain ⟨hsub, hneed⟩ := hdone (by omega)
    refine .pureE ⟨.refl, fun _ => .refl, ?_⟩
    rw [hsub, hneed]
    exact ⟨rfl, rfl⟩
  | succ n ih =>
    refine .ite (fun hlt => ?_) fun hge => ?_
    rotate_left
    · rw [BitVec.lt_def, Nat.not_lt] at hge
      obtain ⟨hsub, hneed⟩ := hdone hge
      refine .pureE ⟨.refl, fun _ => .refl, ?_⟩
      rw [hsub, hneed]
      exact ⟨rfl, rfl⟩
    rw [BitVec.lt_def] at hlt
    have hmax := h.sized f hf
    obtain ⟨hstop, hi, hroom⟩ := lt_of_size (Nat.lt_of_lt_of_le hlt hsize) hmax
    rw [toNat_sdiv_block (by omega)]
    have hchunk := toNat_chunk hlt (by omega)
    have hpos := toNat_add_chunk hlt (by omega)
    generalize chunk pos stop = bn at hchunk hpos ⊢
    obtain ⟨hspan, hnext⟩ := span_succ hlt (hpos.trans (by rw [hchunk]))
    refine .bindE ((fileGetBlock_wp h hf hi hroom).mono fun r t hr => ?_)
    cases r with
    | error e =>
      obtain ⟨rfl, hfree, hsteps, -⟩ := hr
      have hneed := need_mono (m := s.view) (f := f) (i := pos.toNat / 4096)
        (Nat.le_add_left 1 (span (pos + bn).toNat stop.toNat))
      rw [hspan]
      exact ⟨hsteps, fun h0 => by omega, rfl, by omega⟩
    | ok blk =>
      dsimp only
      rw [inBlock_eq (by omega)]
      obtain ⟨b, rfl, hb⟩ := hr
      have ht := hb.steps.ready h
      refine .bindL ((loadBytes_wp ht.up fun x hx hx' => hb.served h hf ?_).mono fun bytes u hu => ?_)
      · rw [blksize] at hx hx' ⊢
        omega
      obtain ⟨hu, rfl⟩ := hu
      have hsu : Steps {.quiet, .grow f} s u := hb.steps.trans (.loads (.inl rfl) hu)
      have hn0 : span (pos + bn).toNat stop.toNat = 0 ∨ (pos + bn).toNat / 4096 = pos.toNat / 4096 + 1 := by
        by_cases hlt' : (pos + bn).toNat < stop.toNat
        · exact .inr (hnext hlt')
        · exact .inl (if_neg hlt')
      obtain ⟨hneed, hfree⟩ := hb.need hu hn0
      refine .bindE ((ih (hsu.ready h) (hsu.node h hf) (by omega) ?_ (by omega) fun hge => ?_).mono
        fun r v hr => ?_)
      · rw [hsu.sizeOf_grow h hf]
        exact hsize
      · rw [span, if_neg (Nat.not_lt.2 hge)]
        exact ⟨by omega, rfl⟩
      obtain ⟨hsteps, hidle, hr⟩ := hr
      rw [hspan]
      have hidle' : need s.view f (pos.toNat / 4096) (span (pos + bn).toNat stop.toNat + 1) = 0 →
          Loads s v := by
        intro h0
        have hblock : blockOf s.view f (pos.toNat / 4096) ≠ none :=
          need_eq_zero.1 h0 _ (Nat.le_refl _) (by omega)
        exact ((hb.idle hblock).trans hu).trans (hidle (by omega))
      cases r with
      | error e =>
        obtain ⟨rfl, hlt⟩ := hr
        exact ⟨hsu.trans hsteps, hidle', rfl, by omega⟩
      | ok rest =>
        obtain ⟨rfl, hfree'⟩ := hr
        refine .pureE ⟨hsu.trans hsteps, hidle', ?_, by omega⟩
        have hlen : stop.toNat - pos.toNat = bn.toNat + (stop.toNat - (pos + bn).toNat) := by omega
        rw [hlen, ← List.range'_append_1, List.map_append, ← hpos]
        congr 1
        · rw [List.range'_eq_map_range, List.map_map]
          refine List.map_congr_left fun k hk => ?_
          have hk := List.mem_range.1 hk
          exact hb.bytes h hf rfl (by omega)
        · exact List.map_congr_left fun x _ => hsu.fileByte_grow h hf

theorem Edit.sameTree_of_data {m m' : Lib.Image} (h : Edit (.data f) m m') (hm : Owned m) :
    SameTree m m' := by
  cases h with
  | data hf htype hb hoff =>
    refine (hm.sameTree_data hf htype hb fun x hx => ?_).1
    rw [blksize] at hoff ⊢
    exact Lib.Image.put_of_notMem (by omega)

theorem Step.need_of_data (h : Step (.data f) s t) (hs : Ready D s) (hf : Node s.view f) :
    need t.view f i n = need s.view f i n ∧ freeCount t.view = freeCount s.view := by
  have hst := (h.edit hs.toSane).1.sameTree_of_data hs.owned
  constructor
  · rw [need, need, holes_congr (m := s.view) fun j _ _ => hst.blockOf hf,
      ptrAt_congr (hst.ptr (.indirect hf))]
  · exact freeCount_congr hst.nblocks fun b hb => hst.free hb

def cut (pos k : Nat) : Nat := if k = 0 then pos else (pos / 4096 + k) * 4096

def Patched (f pos stop : Nat) (bs : Nat → Byte) (s t : Cache) : Prop :=
  ∀ x, fileByte t.view f x = if pos ≤ x ∧ x < stop then bs (x - pos) else fileByte s.view f x

theorem Patched.trans {pos mid stop : Nat} {bs : Nat → Byte} (h : Patched f pos mid bs s t)
    (h' : Patched f mid stop (fun k => bs (mid - pos + k)) t u) (hle : pos ≤ mid)
    (hle' : mid ≤ stop) : Patched f pos stop bs s u := by
  intro x
  rw [h' x, h x]
  by_cases hmid : mid ≤ x
  · by_cases hx : x < stop
    · rw [if_pos ⟨hmid, hx⟩, if_pos (by omega)]
      dsimp only
      rw [show mid - pos + (x - mid) = x - pos by omega]
    · rw [if_neg (by omega), if_neg (by omega), if_neg (by omega)]
  · rw [if_neg (by omega)]
    by_cases hx : pos ≤ x
    · rw [if_pos (by omega), if_pos (by omega)]
    · rw [if_neg (by omega), if_neg (by omega)]

theorem Fetched.store {off n : Nat} {bs : Nat → Byte} (h : Fetched f i b s t) (hs : Ready D s)
    (hf : Node s.view f) (htype : s.view.word (fType f) ≠ ftypeDir) (hoff : off + n ≤ blksize) :
    Wp D (store (b * blksize + off) n bs) t fun _ u => Step (.data f) t u ∧
      Patched f (i * blksize + off) (i * blksize + off + n) bs s u := by
  have ht := h.steps.ready hs
  have hft := h.steps.node hs hf
  have htypet : t.view.word (fType f) ≠ ftypeDir := (h.steps.type hs hf).symm ▸ htype
  refine (ht.up.store fun x hx hx' => h.served hs hf ?_).mono fun _ u hu => ?_
  · rw [blksize] at *
    omega
  · refine ⟨.data hft htypet h.block hoff hu, fun x => ?_⟩
    rw [hu.view, fileByte_data ht.owned hft htypet h.block hoff, h.steps.fileByte_grow hs hf]

theorem Patched.refl {pos : Nat} {bs : Nat → Byte} (h : ∀ x, fileByte t.view f x = fileByte s.view f x) :
    Patched f pos pos bs s t := fun x => by
  rw [h x, if_neg (by omega)]

/-- What `file_write`'s loop has done when it comes back with `r`: all of it, or what the free
blocks were enough for. -/
def Wrote (f pos stop : Nat) (bs : Nat → Byte) (s : Cache) (r : Except Word Unit) (t : Cache) : Prop :=
  Steps {.quiet, .grow f, .data f} s t ∧
    match r with
    | .ok _ => Patched f pos stop bs s t ∧ need t.view f (pos / 4096) (span pos stop) = 0 ∧
      freeCount t.view + need s.view f (pos / 4096) (span pos stop) = freeCount s.view
    | .error e => e = -eNoDisk ∧ ∃ k, k < span pos stop ∧
      need s.view f (pos / 4096) k ≤ freeCount s.view ∧
      freeCount s.view < need s.view f (pos / 4096) (k + 1) ∧ Patched f pos (cut pos k) bs s t

theorem Wrote.nothing {pos : Nat} {bs : Nat → Byte} : Wrote f pos pos bs s (.ok ()) s := by
  refine ⟨.refl, .refl fun _ => rfl, ?_⟩
  rw [span, if_neg (by omega)]
  exact ⟨rfl, rfl⟩

theorem Wrote.cons {pos mid stop : Nat} {bs : Nat → Byte} {r : Except Word Unit}
    (hb : Fetched f (pos / 4096) b s t) (hstep : Step (.data f) t u)
    (hpatch : Patched f pos mid bs s u) (hs : Ready D s) (hf : Node s.view f) (hlt : pos < stop)
    (hmid : mid = pos + min (4096 - pos % 4096) (stop - pos)) {v : Cache}
    (h : Wrote f mid stop (fun k => bs (mid - pos + k)) u r v) : Wrote f pos stop bs s r v := by
  obtain ⟨hspan, hnext⟩ := span_succ hlt hmid
  obtain ⟨hsteps, hr⟩ := h
  have ht := hb.steps.ready hs
  have hft := hb.steps.node hs hf
  have hsu : Steps {.quiet, .grow f, .data f} s u :=
    (hb.steps.mono (by simp)).trans (.single (by simp) hstep)
  have hu := hsu.ready hs
  have hfu := hsu.node hs hf
  have hneed : ∀ {n}, n ≤ span mid stop → need s.view f (pos / 4096) (n + 1) =
      need s.view f (pos / 4096) 1 + need u.view f (mid / 4096) n := by
    intro n hn
    rw [(hstep.need_of_data ht hft).1]
    refine (hb.need .refl ?_).1
    by_cases hlt' : mid < stop
    · exact .inr (hnext hlt')
    · rw [span, if_neg hlt'] at hn
      exact .inl (by omega)
  have hfree := hb.free
  rw [← (hstep.need_of_data (i := 0) (n := 0) ht hft).2] at hfree
  refine ⟨hsu.trans hsteps, ?_⟩
  cases r with
  | ok _ =>
    obtain ⟨hpatch', h0, hfree'⟩ := hr
    refine ⟨hpatch.trans hpatch' (by omega) (by omega), ?_, ?_⟩
    · refine need_eq_zero.2 fun j hj hj' hnone => ?_
      by_cases hji : j = pos / 4096
      · subst hji
        have hbu := (hstep.carries ht.toSane).block hft nofun hb.block
        rw [hsteps.block hu hfu (by simp) hbu] at hnone
        cases hnone
      · have hlt' : mid < stop := by
          by_contra hge
          rw [hspan, span, if_neg hge] at hj'
          omega
        rw [hspan] at hj'
        rw [hnext hlt'] at h0
        exact need_eq_zero.1 h0 j (by omega) (by omega) hnone
    · rw [hspan, hneed (Nat.le_refl _)]
      omega
  | error e =>
    obtain ⟨rfl, k, hk, hle, hlt', hpatch'⟩ := hr
    refine ⟨rfl, k + 1, by omega, ?_, ?_, ?_⟩
    · rw [hneed (by omega)]
      omega
    · rw [hneed (by omega)]
      omega
    · have hmid' : mid < stop := by
        by_contra hge
        rw [span, if_neg hge] at hk
        omega
      have hcut : cut mid k = cut pos (k + 1) := by
        rw [cut, cut, hnext hmid', if_neg (Nat.succ_ne_zero k)]
        split
        · omega
        · rw [Nat.add_assoc, Nat.add_comm 1 k]
      rw [← hcut]
      refine hpatch.trans hpatch' (by omega) ?_
      rw [cut]
      split
      · exact Nat.le_refl _
      · omega

theorem fileWriteFrom_wp {pos stop : Word} {buf : Nat → Byte} (h : Ready D s) (hf : Node s.view f)
    (htype : s.view.word (fType f) ≠ ftypeDir) (hle : pos.toNat ≤ stop.toNat)
    (hsize : stop.toNat ≤ (s.view.word (fSize f)).toNat) (hn : stop.toNat ≤ pos.toNat + n) :
    Wp D (fileWriteFrom f buf stop n pos i).run s
      (Wrote f pos.toNat stop.toNat (fun k => buf (i + k)) s) := by
  induction n generalizing s pos i with
  | zero =>
    rw [show stop.toNat = pos.toNat by omega]
    exact .pureE .nothing
  | succ n ih =>
    refine .ite (fun hlt => ?_) fun hge => ?_
    rotate_left
    · rw [BitVec.lt_def, Nat.not_lt] at hge
      rw [show stop.toNat = pos.toNat by omega]
      exact .pureE .nothing
    rw [BitVec.lt_def] at hlt
    have hmax := h.sized f hf
    obtain ⟨hstop, hi, hroom⟩ := lt_of_size (Nat.lt_of_lt_of_le hlt hsize) hmax
    rw [toNat_sdiv_block (by omega)]
    have hchunk := toNat_chunk hlt (by omega)
    have hpos := toNat_add_chunk hlt (by omega)
    generalize chunk pos stop = bn at hchunk hpos ⊢
    refine .bindE ((fileGetBlock_wp h hf hi hroom).mono fun r t hr => ?_)
    cases r with
    | error e =>
      obtain ⟨rfl, hfree, hsteps, -⟩ := hr
      refine ⟨hsteps.mono (by simp), rfl, 0, ?_, Nat.zero_le _, hfree, ?_⟩
      · rw [span_of_lt hlt, blocksFor]
        omega
      · exact .refl fun _ => hsteps.fileByte_grow h hf
    | ok blk =>
      dsimp only
      rw [inBlock_eq (by omega)]
      obtain ⟨b, rfl, hb⟩ := hr
      refine .bindL ((hb.store h hf htype (by rw [blksize]; omega)).mono fun _ u hu => ?_)
      obtain ⟨hstep, hpatch⟩ := hu
      have hsu : Steps {.quiet, .grow f, .data f} s u :=
        (hb.steps.mono (by simp)).trans (.single (by simp) hstep)
      have hstart : pos.toNat / 4096 * blksize + pos.toNat % 4096 = pos.toNat := by
        rw [blksize]
        omega
      rw [hstart, ← hpos] at hpatch
      refine (ih (hsu.ready h) (hsu.node h hf) ((hsu.type h hf).symm ▸ htype) (by omega) ?_
        (by omega)).mono fun r v hr => ?_
      · rw [hsu.size h hf (by simp) (by simp)]
        exact hsize
      · refine .cons hb hstep hpatch h hf hlt (hpos.trans (by rw [hchunk])) ?_
        have hbs : (fun k => buf (i + ((pos + bn).toNat - pos.toNat + k))) =
            fun k => buf (i + bn.toNat + k) := by
          funext k
          rw [hpos, Nat.add_sub_cancel_left, Nat.add_assoc]
        rw [hbs]
        exact hr

theorem sle_iff_of_lt {w w' : Word} (h : w.toNat < 2 ^ 31) (h' : w'.toNat < 2 ^ 31) :
    w.sle w' = true ↔ w.toNat ≤ w'.toNat := by
  rw [BitVec.sle_iff_toInt_le, BitVec.toInt_eq_toNat_of_lt (by omega),
    BitVec.toInt_eq_toNat_of_lt (by omega)]
  omega

theorem lt_of_le_maxfilesize (h : n ≤ maxfilesize) : n < 2 ^ 31 := by
  rw [maxfilesize, ndirect, nindirect, blksize] at h
  omega

theorem fileRead_wp {count offset : Word} (h : Ready D s) (hf : Node s.view f)
    (hoff : offset.toNat < 2 ^ 31)
    (hk : k = min count.toNat ((s.view.word (fSize f)).toNat - offset.toNat)) :
    Wp D (fileRead f count offset).run s fun r t => Steps {.quiet, .grow f} s t ∧
      (need s.view f (offset.toNat / 4096) (span offset.toNat (offset.toNat + k)) = 0 → Loads s t) ∧
      match r with
      | .ok (c, bytes) => c.toNat = k ∧
        bytes = (List.range' offset.toNat k).map (fileByte s.view f) ∧
        freeCount t.view + need s.view f (offset.toNat / 4096) (span offset.toNat (offset.toNat + k)) =
          freeCount s.view
      | .error e => e = -eNoDisk ∧ freeCount s.view <
        need s.view f (offset.toNat / 4096) (span offset.toNat (offset.toNat + k)) := by
  have hsize := lt_of_le_maxfilesize (h.sized f hf)
  refine .bindL ((h.loadWord_node hf (by decide) (by decide)).mono fun size u hu => ?_)
  obtain ⟨hu, hsz⟩ := hu
  have hsz : size = s.view.word (fSize f) := hsz
  rw [← hsz] at hk hsize
  have hu' := h.loads hu
  have hfu : Node u.view f := hu.view.symm ▸ hf
  have hsle := sle_iff_of_lt hsize hoff
  refine .ite (fun hge => .pureE ?_) fun hlt => ?_
  · have hk0 : k = 0 := by
      have := hsle.1 hge
      omega
    rw [hk0, Nat.add_zero, span, if_neg (by omega)]
    exact ⟨.loads (.inl rfl) hu, fun _ => hu, rfl, rfl, by rw [hu.view]; rfl⟩
  have hlt : offset.toNat < size.toNat := by
    by_contra hge
    exact hlt (hsle.2 (Nat.not_lt.1 hge))
  have hsub : (size - offset).toNat = size.toNat - offset.toNat :=
    BitVec.toNat_sub_of_le (BitVec.le_def.2 (Nat.le_of_lt hlt))
  have hc : (if count ≤ size - offset then count else size - offset).toNat = k := by
    split
    · next hle =>
      rw [BitVec.le_def, hsub] at hle
      omega
    · next hle =>
      rw [BitVec.le_def, hsub] at hle
      rw [hsub]
      omega
  dsimp only
  generalize (if count ≤ size - offset then count else size - offset) = c at hc ⊢
  have hstop : (offset + c).toNat = offset.toNat + k := by
    rw [BitVec.toNat_add, hc]
    omega
  refine .bindE ((fileReadFrom_wp hu' hfu (by omega) ?_ (by omega)).mono fun r t hr => ?_)
  · rw [hu.view, ← hsz]
    omega
  rw [hstop, Nat.add_sub_cancel_left, hu.view] at hr
  obtain ⟨hsteps, hidle, hr⟩ := hr
  have hsteps := Steps.trans (.loads (.inl rfl) hu) hsteps
  cases r with
  | error e => exact ⟨hsteps, fun h0 => hu.trans (hidle h0), hr⟩
  | ok bytes => exact .pureE ⟨hsteps, fun h0 => hu.trans (hidle h0), hc, hr⟩

structure Extended (f w : Nat) (s t : Cache) : Prop where
  steps : Steps {.quiet, .resize f} s t
  size : (t.view.word (fSize f)).toNat = w
  block : ∀ j, blockOf t.view f j = blockOf s.view f j
  byte : ∀ x, fileByte t.view f x = fileByte s.view f x
  need : ∀ i n, need t.view f i n = need s.view f i n
  free : freeCount t.view = freeCount s.view

theorem Loads.extended (h : Loads s t) : Extended f (s.view.word (fSize f)).toNat s t where
  steps := .loads (.inl rfl) h
  size := by rw [h.view]
  block _ := by rw [h.view]
  byte _ := by rw [h.view]
  need _ _ := by rw [h.view]
  free := by rw [h.view]

theorem Extended.of_loads {w : Nat} (hl : Loads s t) (h : Extended f w t u) : Extended f w s u where
  steps := .trans (.loads (.inl rfl) hl) h.steps
  size := h.size
  block := hl.view ▸ h.block
  byte := hl.view ▸ h.byte
  need := hl.view ▸ h.need
  free := hl.view ▸ h.free

theorem Resized.extended {w : Word} (h : Resized f w s.view t.view) (hstep : Step (.resize f) s t)
    (hs : Ready D s) (hf : Node s.view f) (hle : (s.view.word (fSize f)).toNat ≤ w.toNat) :
    Extended f w.toNat s t := by
  have hst := hs.owned.sameTree_size (w := w) hf
  have hview := h.larger hle
  have hblock : ∀ j, blockOf t.view f j = blockOf s.view f j := fun j => by
    rw [hview]
    exact hst.blockOf hf
  refine ⟨.single (.inr rfl) hstep, by rw [h.size], hblock, fun x => ?_, fun i n => ?_, ?_⟩
  · rw [h.byte x]
    split
    · rfl
    · next hx =>
      refine (fileByte_of_none (hs.owned.blockOf_past hf ?_)).symm
      rw [blocksFor] at hx ⊢
      omega
  · rw [need, need, holes_congr (m := s.view) fun j _ _ => hblock j, hview,
      ptrAt_congr (hst.ptr (.indirect hf))]
  · rw [hview]
    exact freeCount_congr hst.nblocks fun b hb => hst.free hb

theorem fileWrite_wp {count offset : Word} {buf : Nat → Byte} (h : Ready D s) (hf : Node s.view f)
    (htype : s.view.word (fType f) ≠ ftypeDir) (hmax : offset.toNat + count.toNat ≤ maxfilesize) :
    Wp D (fileWrite f buf count offset).run s fun r t => ∃ u,
      Extended f (max (s.view.word (fSize f)).toNat (offset.toNat + count.toNat)) s u ∧
      match r with
      | .ok c => c = count ∧
        Wrote f offset.toNat (offset.toNat + count.toNat) buf u (.ok ()) t
      | .error e => Wrote f offset.toNat (offset.toNat + count.toNat) buf u (.error e) t := by
  have hstop : (offset + count).toNat = offset.toNat + count.toNat := by
    have := lt_of_le_maxfilesize hmax
    rw [BitVec.toNat_add]
    omega
  refine .bindL ((h.loadWord_node hf (by decide) (by decide)).mono fun size u hu => ?_)
  obtain ⟨hu, hsz⟩ := hu
  have hsz : size = s.view.word (fSize f) := hsz
  have hu' := h.loads hu
  have hfu : Node u.view f := hu.view.symm ▸ hf
  have htypeu : u.view.word (fType f) ≠ ftypeDir := hu.view.symm ▸ htype
  have hround : ∀ {v}, Extended f (max (s.view.word (fSize f)).toNat (offset.toNat + count.toNat)) s v →
      Wp D (do fileWriteFrom f buf (offset + count) count.toNat offset 0; return count : Try Word).run v
        fun r t => ∃ u,
          Extended f (max (s.view.word (fSize f)).toNat (offset.toNat + count.toNat)) s u ∧
          match r with
          | .ok c => c = count ∧
            Wrote f offset.toNat (offset.toNat + count.toNat) buf u (.ok ()) t
          | .error e => Wrote f offset.toNat (offset.toNat + count.toNat) buf u (.error e) t := by
    intro v hv
    have hready := hv.steps.ready h
    have hsize : (offset + count).toNat ≤ (v.view.word (fSize f)).toNat := by
      rw [hv.size, hstop]
      exact Nat.le_max_right _ _
    refine .bindE ((fileWriteFrom_wp hready (hv.steps.node h hf) ((hv.steps.type h hf).symm ▸ htype)
      (by omega) hsize (by omega)).mono fun r t hr => ?_)
    have hbuf : (fun k => buf (0 + k)) = buf := by
      funext k
      rw [Nat.zero_add]
    rw [hstop, hbuf] at hr
    cases r with
    | ok _ => exact .pureE ⟨v, hv, rfl, hr⟩
    | error e => exact ⟨v, hv, hr⟩
  refine .bindE (.ite (fun hlt => .liftE ?_) fun hge => .pureE (hround ?_))
  · rw [BitVec.lt_def, hstop, hsz] at hlt
    refine (fileSetSize_wp hu' hfu htypeu (hstop ▸ hmax)).mono fun _ v hv => hround ?_
    have hle : (u.view.word (fSize f)).toNat ≤ (offset + count).toNat := by
      rw [hu.view, hstop]
      omega
    have := (hv.2.extended hv.1 hu' hfu hle).of_loads hu
    rwa [Nat.max_eq_right (by omega), ← hstop]
  · rw [BitVec.lt_def, hstop, hsz] at hge
    rw [Nat.max_eq_left (by omega)]
    exact hu.extended

end Jos.Fs
